import PipeCompiler.Proofs.Layout
import PipeCompiler.Proofs.LineShift
import PipeCompiler.Proofs.ParserCompleteness

/-! Programs one after the other.

A program and another one below it, with a semicolon on a line of its own between them, are one
program: its statements are those of the first and then those of the second, some lines further
down, and so is its code. -/
namespace PipeCompiler

open Grammar
open Token.Relabelling (linesDown)

/-- What ends at the end of input ends at a semicolon too. -/
theorem Grammar.Greedy.statement_semicolon {s : Stmt} {toks : List Token}
    (h : Greedy (.statement s) toks .eof) : Greedy (.statement s) toks .semicolon := by
  by_cases hbare : ∃ tok, s = .ret tok .missing
  · obtain ⟨tok, rfl⟩ := hbare
    cases h with
    | leave ht hk => exact .leave ht (by decide)
    | ret ht hv hk => exact .ret ht (hv.asFinal (.ofCloser (by decide)) rfl) (by decide)
  · exact h.statement_asFinal (.ofCloser (by decide)) (by decide) (not_exists.mp hbare)

/-- No statement is without tokens. -/
theorem Grammar.Greedy.statements_nil {body : List Stmt} {next : Token.Kind}
    (h : Greedy (.statements body) [] next) : body = [] := by
  generalize hnil : ([] : List Token) = toks at h
  cases h with
  | noStatements hk => rfl
  | moreStatements hs hk hb =>
    obtain ⟨tok, rest, rfl, -⟩ := hs.derives.opens (by simp)
    cases hnil
  | closedStatement hs ht hb => simp at hnil

/-- Where a semicolon follows the last of some statements, reading goes on behind it. -/
theorem Grammar.Greedy.statements_semicolon {body others : List Stmt} {toks more : List Token}
    {semi : Token} (h : Greedy (.statements body) toks .eof) (hne : toks ≠ [])
    (hlast : ∀ tok ∈ toks.getLast?, tok.kind ≠ .semicolon) (hsemi : semi.kind = .semicolon)
    (hmore : Greedy (.statements others) more .eof) :
    Greedy (.statements (body ++ others)) (toks ++ semi :: more) .eof := by
  -- The last token of the rest, if there is one, is the last token of all.
  have hrest (ts : List Token) {us : List Token} :
      ∀ tok ∈ us.getLast?, tok ∈ (ts ++ us).getLast? := by
    intro tok htok
    rw [List.getLast?_append, Option.mem_def.mp htok]
    rfl
  induction body generalizing toks with
  | nil =>
    cases h
    exact absurd rfl hne
  | cons s body ih =>
    cases h with
    | @moreStatements ts us _ _ _ hs hk hb =>
      cases us with
      | nil =>
        have hbody : body = [] := hb.statements_nil
        rw [hbody, List.append_nil]
        exact .closedStatement hs.statement_semicolon hsemi hmore
      | cons tok us =>
        rw [List.append_assoc]
        refine .moreStatements hs hk (ih hb (List.cons_ne_nil tok us) fun x hx => ?_)
        exact hlast x (hrest ts x hx)
    | @closedStatement tok ts us _ _ _ hs ht hb =>
      rw [List.append_assoc, List.cons_append]
      cases us with
      | nil => exact absurd ht (hlast tok (by simp))
      | cons next us =>
        refine .closedStatement hs ht (ih hb (List.cons_ne_nil next us) fun x hx => hlast x ?_)
        have hall := hrest (ts ++ [tok]) x hx
        rwa [List.append_assoc] at hall

/-- A program, a semicolon that is not its own, and then another program. -/
theorem Parser.program_semicolon {ts ts' us us' : Tokens} {p q : Program} {semi : Token}
    (hstop : ts.stop.kind = .eof) (hahead : ∀ tok ∈ ts.ahead, tok.kind ≠ .eof)
    (hp : program ts = .ok p ts') (hne : ts.ahead ≠ [])
    (hlast : ∀ tok ∈ ts.ahead.getLast?, tok.kind ≠ .semicolon) (hsemi : semi.kind = .semicolon)
    (hstop' : us.stop.kind = .eof) (hahead' : ∀ tok ∈ us.ahead, tok.kind ≠ .eof)
    (hq : program us = .ok q us') :
    program ⟨ts.ahead ++ semi :: us.ahead, us.stop⟩ = .ok ⟨p.body ++ q.body⟩ ⟨[], us.stop⟩ := by
  have hfirst := (program_greedy hstop hahead hp).2
  have hsecond := (program_greedy hstop' hahead' hq).2
  exact (hfirst.statements_semicolon hne hlast hsemi hsecond).program hstop'

private theorem Stmt.lowerBody_append (body others : List Stmt) :
    Stmt.lowerBody false (body ++ others) = (do
      let first ← Stmt.lowerBody false body
      return first ++ (← Stmt.lowerBody false others)) := by
  induction body with
  | nil => simp [Stmt.lowerBody]
  | cons s body ih =>
    rw [List.cons_append, Stmt.lowerBody_cons s (.inr rfl), Stmt.lowerBody_cons s (.inr rfl), ih]
    simp

namespace Target

/-- What every module begins with: the import of the library and an empty line. -/
def preamble : Bytes :=
  "import * as " ++ Library.namespaceName ++ " from '" ++ Library.moduleSpecifier ++ "';\n\n"

private theorem Stmt.prints_append (depth : Nat) (body others : List Stmt) :
    Stmt.prints depth (body ++ others) = Stmt.prints depth body ++ Stmt.prints depth others := by
  induction body with
  | nil => rfl
  | cons s body ih => rw [List.cons_append, Stmt.prints, Stmt.prints, ih, List.append_assoc]

end Target

theorem Program.code_eq_ok {p : Program} {code : Bytes} :
    p.code = .ok code ↔ ∃ body, Stmt.lowerBody false p.body = .ok body ∧
      code = Target.preamble ++ Target.Stmt.prints 0 body := by
  unfold Program.code Program.lower
  cases Stmt.lowerBody false p.body with
  | error e => exact ⟨nofun, nofun⟩
  | ok body =>
    constructor
    · rintro ⟨⟩
      exact ⟨body, rfl, rfl⟩
    · rintro ⟨_, ⟨⟩, rfl⟩
      rfl

/-- The code of programs one after the other has only one preamble. -/
theorem Program.code_append {p q : Program} {code code' : Bytes} (hp : p.code = .ok code)
    (hq : q.code = .ok code') :
    ∃ own own', code = Target.preamble ++ own ∧ code' = Target.preamble ++ own' ∧
      (Program.mk (p.body ++ q.body)).code = .ok (Target.preamble ++ own ++ own') := by
  obtain ⟨body, hbody, rfl⟩ := Program.code_eq_ok.mp hp
  obtain ⟨body', hbody', rfl⟩ := Program.code_eq_ok.mp hq
  refine ⟨_, _, rfl, rfl, Program.code_eq_ok.mpr ⟨body ++ body', ?_, ?_⟩⟩
  · rw [Stmt.lowerBody_append, hbody, hbody']
    rfl
  · rw [Target.Stmt.prints_append, List.append_assoc]

/-- A semicolon on a line of its own. -/
def semicolonLine : Bytes := "\n;\n"

private theorem append_semicolonLine (source rest : Bytes) :
    source ++ semicolonLine ++ rest =
      source ++ '\n'.toUInt8 :: (Bytes.ofString ";" ++ '\n'.toUInt8 :: rest) := by
  rw [List.append_assoc]
  rfl

def Token.semicolon : Token := ⟨.semicolon, ";", [], .start⟩

private theorem tokenize_semicolon :
    tokenize ";" = .ok [Token.semicolon, ⟨.eof, [], [], ⟨1, 2⟩⟩] := by
  decide +kernel

/-- The tokens of two texts with a semicolon on a line between them. -/
theorem tokenize_semicolonLine {source rest : Bytes} {toks more : List Token}
    (h : tokenize source = .ok toks) (hrest : tokenize rest = .ok more) :
    ∃ body stop pos pos', toks = body ++ [stop] ∧
      tokenize (source ++ semicolonLine ++ rest) = .ok (body ++ Cursor.lineBreak pos ::
        linesDown (source.count '\n'.toUInt8 + 1) Token.semicolon :: Cursor.lineBreak pos' ::
          more.map (linesDown (source.count '\n'.toUInt8 + 2))) := by
  obtain ⟨body₁, stop₁, hends, hline⟩ := tokenize_nextLine tokenize_semicolon rest
  have hsplit : [Token.semicolon] ++ [_] = body₁ ++ [stop₁] := hends
  obtain ⟨rfl, -⟩ := List.append_inj' hsplit rfl
  rw [hrest] at hline
  obtain ⟨body, stop, rfl, hall⟩ :=
    tokenize_nextLine h (Bytes.ofString ";" ++ '\n'.toUInt8 :: rest)
  rw [hline] at hall
  have hcount : (List.count '\n'.toUInt8 (Bytes.ofString ";") : Int) + 1 = 1 := rfl
  have hdown : (more.map (linesDown 1)).map (linesDown (source.count '\n'.toUInt8 + 1)) =
      more.map (linesDown (source.count '\n'.toUInt8 + 2)) := by
    rw [List.map_map]
    refine List.map_congr_left fun tok _ => ?_
    rw [Function.comp_apply, Token.Relabelling.linesDown_linesDown, Int.add_left_comm]
    rfl
  refine ⟨body, stop, stop.pos, stop₁.pos.down (source.count '\n'.toUInt8 + 1), rfl, ?_⟩
  rw [append_semicolonLine, hall, hcount, ← hdown]
  rfl

/-- The parser sees the tokens of the first text, the semicolon, and the tokens of the second text
further down. -/
theorem Tokens.ofList_semicolonLine {source rest : Bytes} {toks more : List Token}
    (h : tokenize source = .ok toks) (hrest : tokenize rest = .ok more) :
    ∃ all semi us, tokenize (source ++ semicolonLine ++ rest) = .ok all ∧
      semi.kind = .semicolon ∧
      us = (ofList more).relabel (linesDown (source.count '\n'.toUInt8 + 2)) ∧
      ofList all = ⟨(ofList toks).ahead ++ semi :: us.ahead, us.stop⟩ := by
  obtain ⟨body, stop, pos, pos', rfl, hall⟩ := tokenize_semicolonLine h hrest
  generalize (source.count '\n'.toUInt8 : Int) = n at hall ⊢
  obtain ⟨hstop, hbody⟩ := Cursor.tokens_concat h
  obtain ⟨body', stop', rfl, hstop', hbody'⟩ := Cursor.tokens_end hrest
  have hshown : body ++ Cursor.lineBreak pos :: linesDown (n + 1) Token.semicolon ::
        Cursor.lineBreak pos' :: (body' ++ [stop']).map (linesDown (n + 2)) =
      (body ++ Cursor.lineBreak pos :: linesDown (n + 1) Token.semicolon ::
        Cursor.lineBreak pos' :: body'.map (linesDown (n + 2))) ++ [linesDown (n + 2) stop'] := by
    simp
  have hkinds : ∀ tok ∈ body ++ Cursor.lineBreak pos :: linesDown (n + 1) Token.semicolon ::
      Cursor.lineBreak pos' :: body'.map (linesDown (n + 2)), tok.kind ≠ .eof := by
    simp only [List.forall_mem_append, List.forall_mem_cons, List.forall_mem_map,
      Token.Relabelling.kind_map]
    exact ⟨hbody, nofun, nofun, nofun, hbody'⟩
  have hahead : (body ++ Cursor.lineBreak pos :: linesDown (n + 1) Token.semicolon ::
        Cursor.lineBreak pos' :: body'.map (linesDown (n + 2))).filter (·.kind ≠ .newline) =
      body.filter (·.kind ≠ .newline) ++ linesDown (n + 1) Token.semicolon ::
        (body'.filter (·.kind ≠ .newline)).map (linesDown (n + 2)) := by
    simp [List.filter_map, Function.comp_def, Cursor.lineBreak, Token.semicolon]
  have hlast : (linesDown (n + 2) stop').kind = .eof := hstop'
  refine ⟨_, linesDown (n + 1) Token.semicolon, _, hall, rfl, rfl, ?_⟩
  rw [hshown, ofList_end hlast hkinds, ofList_end hstop hbody, ofList_end hstop' hbody', hahead]
  rfl

/-- The last token that is neither a line break nor the end of input is the last one that the parser
sees. -/
theorem Tokens.getLast?_ahead {c : Cursor} {toks : List Token} (h : c.tokens = .ok toks) :
    (ofList toks).ahead.getLast? =
      (toks.filter fun tok => tok.kind ≠ .newline ∧ tok.kind ≠ .eof).getLast? := by
  obtain ⟨body, stop, rfl, hstop, hbody⟩ := Cursor.tokens_end h
  have hkept : body.filter (fun tok => decide (tok.kind ≠ .newline ∧ tok.kind ≠ .eof)) =
      body.filter (·.kind ≠ .newline) :=
    List.filter_congr fun tok htok => by simp [hbody tok htok]
  have hnone : [stop].filter (fun tok => decide (tok.kind ≠ .newline ∧ tok.kind ≠ .eof)) = [] := by
    simp [hstop]
  rw [ofList_end hstop hbody, List.filter_append, hkept, hnone, List.append_nil]

/-- A program and another one below it, with a semicolon on a line between them that the first one
does not have yet, are one program: its statements are those of both, the second ones as many lines
further down as they stand in the text, and its code is that of both, with one preamble. -/
theorem compile_semicolonLine {source rest : Bytes} {r r' : Compiled} {toks : List Token}
    {last : Token} (h : compile source = .ok r) (h' : compile rest = .ok r')
    (htoks : tokenize source = .ok toks)
    (hlast : (toks.filter fun tok => tok.kind ≠ .newline ∧ tok.kind ≠ .eof).getLast? = some last)
    (hkind : last.kind ≠ .semicolon) :
    ∃ all own own', compile (source ++ semicolonLine ++ rest) = .ok all ∧
      all.program.body = r.program.body ++
        (r'.program.relabel (linesDown (source.count '\n'.toUInt8 + 2))).body ∧
      r.code = Target.preamble ++ own ∧ r'.code = Target.preamble ++ own' ∧
      all.code = Target.preamble ++ own ++ own' := by
  obtain ⟨hparse, hcode⟩ := compile_eq_ok.mp h
  obtain ⟨hparse', hcode'⟩ := compile_eq_ok.mp h'
  obtain ⟨toks₁, htoks₁, hp⟩ := Program.parse_eq_ok.mp hparse
  obtain ⟨more, hmore, hq⟩ := Program.parse_eq_ok.mp hparse'
  rw [htoks] at htoks₁
  cases htoks₁
  obtain ⟨ts, hp⟩ := Tokens.parse_eq_ok.mp hp
  obtain ⟨ts', hq⟩ := Tokens.parse_eq_ok.mp hq
  obtain ⟨all, semi, us, hall, hsemi, hus, hsame⟩ := Tokens.ofList_semicolonLine htoks hmore
  -- The second program is read from tokens that stand further down.
  have hdown := Parser.program_commutes (linesDown (source.count '\n'.toUInt8 + 2))
    (Tokens.ofList_stop more)
  rw [hq, ← hus] at hdown
  have hstop : us.stop.kind = .eof := by
    rw [hus]
    exact Tokens.ofList_stop more
  have hahead : ∀ tok ∈ us.ahead, tok.kind ≠ .eof := by
    rw [hus]
    refine List.forall_mem_map.mpr fun tok htok => ?_
    rw [Token.Relabelling.kind_map]
    exact Tokens.kind_ne_eof htok
  rw [← Tokens.getLast?_ahead htoks] at hlast
  have hne : (Tokens.ofList toks).ahead ≠ [] := by
    intro hnil
    simp [hnil] at hlast
  have hsemicolon : ∀ tok ∈ (Tokens.ofList toks).ahead.getLast?, tok.kind ≠ .semicolon := by
    simpa [hlast] using hkind
  have hprogram := Parser.program_semicolon (Tokens.ofList_stop toks)
    (fun _ => Tokens.kind_ne_eof) hp hne hsemicolon hsemi hstop hahead hdown
  rw [← hsame] at hprogram
  rw [← Program.code_retoken (g := (linesDown (source.count '\n'.toUInt8 + 2)).everywhere)
    (Program.parse_formed hparse')] at hcode'
  obtain ⟨own, own', hown, hown', hboth⟩ := Program.code_append hcode hcode'
  refine ⟨⟨_, _⟩, own, own', ?_, rfl, hown, hown', rfl⟩
  refine compile_eq_ok.mpr ⟨Program.parse_eq_ok.mpr ⟨all, hall, ?_⟩, hboth⟩
  exact Tokens.parse_eq_ok.mpr ⟨_, hprogram⟩

/-- A line break within a string, and a bare return before the end of the text. -/
def Grammar.bareReturn : Bytes :=
  "let a = 'x\ny' // first\nreturn // last"

/-- A choice whose alternative stands on a line of its own. -/
def Grammar.lateAlternative : Bytes :=
  "if a then print(a)\n  else a |> print"

theorem compile_semicolonLine_bareReturn :
    ∃ r r' all own own', compile bareReturn = .ok r ∧ compile lateAlternative = .ok r' ∧
      compile (bareReturn ++ semicolonLine ++ lateAlternative) = .ok all ∧
      all.program.body = r.program.body ++ (r'.program.relabel (linesDown 4)).body ∧
      r.code = Target.preamble ++ own ∧ r'.code = Target.preamble ++ own' ∧
      all.code = Target.preamble ++ own ++ own' := by
  obtain ⟨r, h⟩ := eq_ok_of_isSome (x := compile bareReturn) (by decide +kernel)
  obtain ⟨r', h'⟩ := eq_ok_of_isSome (x := compile lateAlternative) (by decide +kernel)
  obtain ⟨toks, htoks⟩ := eq_ok_of_isSome (x := tokenize bareReturn) (by decide +kernel)
  have hkinds : (tokenize bareReturn).toOption.map (fun toks =>
      (toks.filter fun tok => tok.kind ≠ .newline ∧ tok.kind ≠ .eof).getLast?.map Token.kind) =
      some (some .returnWord) := by
    decide +kernel
  rw [htoks] at hkinds
  obtain ⟨last, hlast, hkind⟩ := Option.map_eq_some_iff.mp (Option.some.inj hkinds)
  have hcount : (List.count '\n'.toUInt8 bareReturn : Int) + 2 = 4 := by decide +kernel
  obtain ⟨all, own, own', hall, hbody, hcode⟩ :=
    compile_semicolonLine h h' htoks hlast (by rw [hkind]; decide)
  rw [hcount] at hbody
  exact ⟨r, r', all, own, own', h, h', hall, hbody, hcode⟩

end PipeCompiler
