import PipeCompiler.Command.Scaffold
import PipeCompiler.Proofs.SeenTokens
import PipeCompiler.Proofs.StatementSequences
import PipeCompiler.Proofs.TextCuts

/-! The first program of a project.

The name of a project stands in a comment and in a string of its first program and can leave neither
of them. The lines between the two are known, so the tokens of the program are known but for the
value of the string, and its code is known but for one string literal. -/
namespace PipeCompiler

open Grammar
open Token.Relabelling (plain)

/-- A byte is read as itself, whether it is escaped or not. -/
theorem Lexeme.string?_escapeByte (b : UInt8) (s : Bytes) :
    (string? '"' (Scaffold.escapeByte b ++ s)).map (fun r => (r.1, r.2.2)) =
      (string? '"' s).map fun r => (b :: r.1, r.2.2) := by
  have hescape {e : UInt8} (he : unescape e = b) :
      (string? '"' ('\\'.toUInt8 :: e :: s)).map (fun r => (r.1, r.2.2)) =
        (string? '"' s).map fun r => (b :: r.1, r.2.2) := by
    rw [string?_escape (by decide), Option.map_map, he]
    rfl
  unfold Scaffold.escapeByte
  split_ifs with hslash hquote hline htab hreturn
  · exact hescape (beq_iff_eq.mp hslash ▸ rfl)
  · exact hescape (beq_iff_eq.mp hquote ▸ rfl)
  · exact hescape (beq_iff_eq.mp hline ▸ rfl)
  · exact hescape (beq_iff_eq.mp htab ▸ rfl)
  · exact hescape (beq_iff_eq.mp hreturn ▸ rfl)
  · rw [List.singleton_append, string?_plain (by simpa using hquote) (by simpa using hslash),
      Option.map_map]
    rfl

/-- A text as a string of the language is read as the text. -/
theorem Scaffold.lexes_quote (s rest : Bytes) : Lexes (quote s) (IsToken .string s) rest := by
  have hbytes : ∀ b ∈ s, ∀ t,
      (Lexeme.string? '"' (escapeByte b ++ t)).map (fun r => (r.1, r.2.2)) =
        (Lexeme.string? '"' t).map fun r => ([b] ++ r.1, r.2.2) :=
    fun b _ t => Lexeme.string?_escapeByte b t
  obtain ⟨text, hread⟩ := Lexeme.string?_pieces hbytes rest
  rw [List.flatMap_singleton'] at hread
  exact lexes_string hread

/-- Only bytes beyond ASCII are stray. -/
theorem not_ascii_of_stray {b : UInt8} {s : Bytes} (h : .stray b ∈ glyphs s) : ¬b < 0x80 := by
  fun_induction glyphs s with
  | case1 => cases h
  | case2 a s c rest hc ih => exact ih (by simpa using h)
  | case3 a s hc ih =>
    rw [List.mem_cons, Glyph.stray.injEq] at h
    rcases h with rfl | h
    · intro hb
      rw [Utf8.char?_ascii hb] at hc
      cases hc
    · exact ih h

private theorem Glyph.words_subset {gs w : List Glyph} (h : w ∈ words gs) :
    ∀ g ∈ w, g ∈ gs ∧ g.isBlank = false := by
  fun_induction words gs with
  | case1 => cases h
  | case2 a gs hblank ih => exact fun g hg => ⟨.tail a (ih h g hg).1, (ih h g hg).2⟩
  | case3 a gs hblank ih =>
    rw [List.mem_cons] at h
    intro g hg
    rcases h with rfl | h
    · rw [List.mem_cons] at hg
      rcases hg with rfl | hg
      · exact ⟨.head _, by simpa using hblank⟩
      · have hkept := List.mem_takeWhile_imp hg
        exact ⟨.tail a ((List.takeWhile_sublist _).mem hg), by simpa using hkept⟩
    · obtain ⟨hmem, hg⟩ := ih h g hg
      exact ⟨.tail a ((List.dropWhile_sublist _).mem hmem), hg⟩

/-- A text on one line has no line break. -/
theorem Scaffold.lineBreak_notMem_oneLine (name : Bytes) : '\n'.toUInt8 ∉ oneLine name := by
  refine Bytes.notMem_intercalate (by decide) ?_
  intro w hw hmem
  obtain ⟨gs, hgs, rfl⟩ := List.mem_map.mp hw
  obtain ⟨g, hg, hbyte⟩ := List.mem_flatMap.mp hmem
  obtain ⟨hglyph, hblank⟩ := Glyph.words_subset hgs g hg
  cases g with
  | char c =>
    refine Bytes.notMem_ofChar (by decide) ?_ hbyte
    rintro rfl
    revert hblank
    decide
  | stray b =>
    rw [Glyph.bytes, List.mem_singleton] at hbyte
    exact not_ascii_of_stray hglyph (hbyte ▸ by decide)

/-- A comment runs up to the line break. -/
theorem tokenize_comment {s : Bytes} (h : '\n'.toUInt8 ∉ s) :
    ∃ stop, tokenize ("//" ++ s) = .ok [stop] ∧ stop.kind = .eof := by
  have hall : ∀ b ∈ Bytes.ofString "//" ++ s, (!Lexeme.isLineBreak b) = true := by
    intro b hb
    have hne : b ≠ '\n' := by
      rintro rfl
      rw [List.mem_append] at hb
      exact hb.elim (by decide) h
    simpa [Lexeme.isLineBreak] using hne
  have hgap : Lexeme.gap ("//" ++ s) = (Bytes.ofString "//" ++ s, []) := by
    have hslash : ¬Lexeme.isGap '/' = true := by decide
    have hcomment : (Bytes.ofString "//").isPrefixOf (Bytes.ofString "//" ++ s) = true := by
      simp
    have hblanks : (Bytes.ofString "//" ++ s).takeWhile Lexeme.isGap = [] :=
      List.takeWhile_cons_of_neg hslash
    have hrest : (Bytes.ofString "//" ++ s).dropWhile Lexeme.isGap = Bytes.ofString "//" ++ s :=
      List.dropWhile_cons_of_neg hslash
    rw [Lexeme.gap, hblanks, hrest, if_pos hcomment, List.takeWhile_eq_self_iff.mpr hall,
      List.dropWhile_eq_nil_iff.mpr hall]
    rfl
  have hrun : tokenize ("//" ++ s) =
      .ok [⟨.eof, [], [], Position.start.advance (Bytes.ofString "//" ++ s)⟩] := by
    rw [tokenize, Cursor.tokens_eq]
    simp only [Cursor.step, Cursor.start, hgap]
  exact ⟨_, hrun, rfl⟩

/-- A text below some lines. -/
def below (lines : List String) (text : Bytes) : Bytes :=
  lines.foldr (fun line s => Bytes.ofString line ++ '\n'.toUInt8 :: s) text

theorem below_eq_append (lines : List String) (text : Bytes) :
    below lines text = below lines [] ++ text := by
  induction lines with
  | nil => rfl
  | cons line lines ih =>
    change Bytes.ofString line ++ _ :: below lines text = _
    rw [ih]
    simp [below]

private theorem seen?_below {lines : List (String × List Token)} {text : Bytes} {us : List Token}
    (hlines : ∀ line ∈ lines, seen? (Bytes.ofString line.1) = some line.2)
    (htext : seen? text = some us) :
    seen? (below (lines.map Prod.fst) text) = some (lines.flatMap Prod.snd ++ us) := by
  induction lines with
  | nil => exact htext
  | cons line lines ih =>
    rw [List.forall_mem_cons] at hlines
    have hrest := seen?_nextLine hlines.1 (ih hlines.2)
    rwa [← List.append_assoc, ← List.flatMap_cons] at hrest

/-- Statements that could end the input are read in the same way before other statements, unless
the others begin with what could go on with the last one. -/
theorem Grammar.Greedy.statements_append {body others : List Stmt} {toks us : List Token}
    {next : Token.Kind} (h : Greedy (.statements body) toks .eof)
    (hu : Greedy (.statements others) us next) (hf : AsFinal .eof (first us next))
    (ha : first us next ≠ .assign) (hs : first us next ≠ .semicolon)
    (hlast : ∀ tok ∈ toks.getLast?, tok.kind ≠ .returnWord) :
    Greedy (.statements (body ++ others)) (toks ++ us) next := by
  induction body generalizing toks with
  | nil =>
    cases h
    exact hu
  | cons s body ih =>
    cases h with
    | @moreStatements ts vs _ _ _ hstmt hk hb =>
      have hrest : ∀ tok ∈ vs.getLast?, tok.kind ≠ .returnWord := by
        intro tok htok
        refine hlast tok ?_
        rw [List.getLast?_append, Option.mem_def.mp htok]
        rfl
      rw [List.append_assoc]
      refine .moreStatements ?_ ?_ (ih hb hrest)
      · rw [first_append]
        cases vs with
        | cons v vs => exact hstmt
        | nil =>
          refine hstmt.statement_asFinal hf ha ?_
          rintro tok rfl
          cases hstmt with
          | leave ht => exact hlast tok rfl ht
          | ret ht hv =>
            have hformed : Formed (fun _ => True) (.expr .missing) :=
              hv.derives.formed fun _ _ => trivial
            exact hformed.ne_missing rfl
      · rw [first_append]
        cases vs with
        | cons v vs => exact hk
        | nil => exact hs
    | @closedStatement tok ts vs _ _ _ hstmt ht hb =>
      have hrest : ∀ tok ∈ vs.getLast?, tok.kind ≠ .returnWord := by
        intro tok htok
        refine hlast tok ?_
        rw [List.getLast?_append, List.getLast?_cons, Option.mem_def.mp htok]
        rfl
      rw [List.append_assoc, List.cons_append]
      exact .closedStatement hstmt ht (ih hb hrest)

namespace Scaffold

/-- The lines between the comment and the last line, and their tokens. -/
def knownLines : List (String × List Token) :=
  [("", []),
    ("fn square(x) = x * x",
      [.shown .fnWord "fn", .shown .ident "square", .shown .lparen "(", .shown .ident "x",
        .shown .rparen ")", .shown .assign "=", .shown .ident "x", .shown .asterisk "*",
        .shown .ident "x"]),
    ("", []),
    ("let numbers = range(1, 6)",
      [.shown .letWord "let", .shown .ident "numbers", .shown .assign "=", .shown .ident "range",
        .shown .lparen "(", .shown .number "1", .shown .comma ",", .shown .number "6",
        .shown .rparen ")"]),
    ("", []),
    ("let total = numbers",
      [.shown .letWord "let", .shown .ident "total", .shown .assign "=", .shown .ident "numbers"]),
    ("  |> map(|n, i| square(n))",
      [.shown .pipe "|>", .shown .ident "map", .shown .lparen "(", .shown .bar "|",
        .shown .ident "n", .shown .comma ",", .shown .ident "i", .shown .bar "|",
        .shown .ident "square", .shown .lparen "(", .shown .ident "n", .shown .rparen ")",
        .shown .rparen ")"]),
    ("  |> filter(|n, i| n % 2 == 1)",
      [.shown .pipe "|>", .shown .ident "filter", .shown .lparen "(", .shown .bar "|",
        .shown .ident "n", .shown .comma ",", .shown .ident "i", .shown .bar "|",
        .shown .ident "n", .shown .percent "%", .shown .number "2", .shown .eq "==",
        .shown .number "1", .shown .rparen ")"]),
    ("  |> sum", [.shown .pipe "|>", .shown .ident "sum"]),
    ("", [])]

private theorem seen?_knownLines :
    ∀ line ∈ knownLines, seen? (Bytes.ofString line.1) = some line.2 := by
  decide +kernel

def knownTokens : List Token := knownLines.flatMap Prod.snd

/-- The code of the statements on these lines. -/
def knownCode : Bytes :=
  "function square(x) \x7b\n  return (x * x);\n\x7d\n" ++
  "const numbers = runtime.range(1, 6);\n" ++
  "const total = runtime.sum(runtime.filter(runtime.map(numbers, ((n, i) => square(n))), " ++
    "((n, i) => ((n % 2) === 1))));\n"

/-- They are read as statements, of which the code is known too. -/
theorem greedy_knownTokens :
    ∃ p : Program, Greedy (.statements p.body) knownTokens .eof ∧
      p.code = .ok (Target.preamble ++ knownCode) := by
  have hrun : ((Tokens.mk knownTokens (.shown .eof [])).parse.1.toOption.bind
      fun p => p.code.toOption) = some (Target.preamble ++ knownCode) := by
    decide +kernel
  have hkinds : ∀ tok ∈ knownTokens, tok.kind ≠ .eof := by decide
  cases hp : (Tokens.mk knownTokens (.shown .eof [])).parse.1 with
  | error e => simp [hp, Except.toOption] at hrun
  | ok p =>
    obtain ⟨rest, hprogram⟩ := Tokens.parse_eq_ok.mp hp
    refine ⟨p, (Parser.program_greedy rfl hkinds hprogram).2, ?_⟩
    cases hcode : p.code with
    | error e => simp [hp, hcode, Except.toOption] at hrun
    | ok code => simpa [hp, hcode, Except.toOption] using hrun

/-- The comment behind its slashes. -/
def remark (name : Bytes) : Bytes :=
  " " ++ oneLine name ++ ": generated by `pipelang init`"

def lastLine (s : Bytes) : Bytes :=
  "print(" ++ quote s ++ ", total)"

private theorem mainText_eq (name : Bytes) :
    mainText name = "//" ++ remark name ++ '\n'.toUInt8 :: below (knownLines.map Prod.fst)
      (lastLine (name ++ ": sum of odd squares is") ++ '\n'.toUInt8 :: []) := by
  have hknown : below (knownLines.map Prod.fst) [] =
      Bytes.ofString "\n" ++ Bytes.ofString "fn square(x) = x * x\n" ++ Bytes.ofString "\n" ++
      Bytes.ofString "let numbers = range(1, 6)\n" ++ Bytes.ofString "\n" ++
      Bytes.ofString "let total = numbers\n" ++ Bytes.ofString "  |> map(|n, i| square(n))\n" ++
      Bytes.ofString "  |> filter(|n, i| n % 2 == 1)\n" ++ Bytes.ofString "  |> sum\n" ++
      Bytes.ofString "\n" := by
    decide
  have hopen : Bytes.ofString "// " = Bytes.ofString "//" ++ Bytes.ofString " " := rfl
  have hremark : Bytes.ofString ": generated by `pipelang init`\n" =
      Bytes.ofString ": generated by `pipelang init`" ++ ['\n'.toUInt8] := by
    decide
  have hlast : Bytes.ofString ", total)\n" = Bytes.ofString ", total)" ++ ['\n'.toUInt8] := by
    decide
  rw [below_eq_append, hknown]
  simp only [mainText, remark, lastLine, hopen, hremark, hlast, List.append_assoc,
    List.cons_append, List.nil_append]

/-- The tokens of the last line. -/
def lastTokens (s : Bytes) : List Token :=
  [.shown .ident "print", .shown .lparen "(", .shown .string s, .shown .comma ",",
    .shown .ident "total", .shown .rparen ")"]

set_option maxRecDepth 2000 in
private theorem seen?_lastLine (s : Bytes) : seen? (lastLine s) = some (lastTokens s) := by
  have hopen : Bytes.ofString "print(" = Bytes.ofString "print" ++ Bytes.ofString "(" := rfl
  have hclose : Bytes.ofString ", total)" = Bytes.ofString "," ++ (Bytes.ofString " " ++
    (Bytes.ofString "total" ++ Bytes.ofString ")")) := rfl
  have hparen {b : UInt8} {t : Bytes} (hb : Lexeme.isNamePart b = false) :
      ∀ c ∈ (b :: t).head?, Lexeme.isNamePart c = false := by
    simpa using hb
  rw [lastLine, hopen, hclose, List.append_assoc, List.append_assoc]
  apply seen?_of_cut
  apply Cut.cons (lexes_name (by decide) (hparen (by decide))) (by decide)
  apply Cut.cons (lexes_bracket "(" .lparen (by decide)) (by decide)
  apply Cut.cons (lexes_quote s _) (by decide)
  apply Cut.cons (lexes_bracket "," .comma (by decide)) (by decide)
  apply Cut.blank
  apply Cut.cons (lexes_name (by decide) (hparen (by decide))) (by decide)
  exact Cut.token (lexes_bracket ")" .rparen (by decide)) (by decide)

/-- The parser sees nothing of the comment, and the last line holds the only unknown token. -/
theorem seen?_mainText (name : Bytes) : seen? (mainText name) =
    some (knownTokens ++ lastTokens (name ++ ": sum of odd squares is")) := by
  have hremark : '\n'.toUInt8 ∉ remark name := by
    simp only [remark, List.mem_append, not_or]
    exact ⟨⟨by decide, lineBreak_notMem_oneLine name⟩, by decide⟩
  obtain ⟨stop, hcomment, hstop⟩ := tokenize_comment hremark
  have hnone : seen? ("//" ++ remark name) = some [] := by
    refine seen?_eq_some.mpr ⟨_, hcomment, ?_⟩
    have hlist : Tokens.ofList ([] ++ [stop]) = ⟨[], stop⟩ := Tokens.ofList_end hstop (by simp)
    exact congrArg (fun ts : Tokens => ts.ahead.map plain) hlist
  have hempty : seen? [] = some [] := seen?_of_cut Cut.nil
  have hlast := seen?_nextLine (seen?_lastLine (name ++ ": sum of odd squares is")) hempty
  have hall := seen?_nextLine hnone (seen?_below seen?_knownLines hlast)
  rwa [← mainText_eq, List.append_nil] at hall

def lastStatement (s : Bytes) : Stmt :=
  .expr (.shown .ident "print") (.call (.shown .lparen "(")
    (.name (.mk (.shown .ident "print") "print"))
    [.string (.shown .string s) s, .name (.mk (.shown .ident "total") "total")])

private theorem greedy_lastTokens (s : Bytes) :
    Greedy (.statements [lastStatement s]) (lastTokens s) .eof := by
  have hstring : Greedy (.expr .call (.string (.shown .string s) s)) [.shown .string s] .comma :=
    .tighter (.string rfl) (by decide)
  have htotal : Greedy (.expr .call (.name (.mk (.shown .ident "total") "total")))
      [.shown .ident "total"] .rparen :=
    .tighter (.name rfl) (by decide)
  have hprint : Greedy (.expr .call (.name (.mk (.shown .ident "print") "print")))
      [.shown .ident "print"] .lparen :=
    .tighter (.name rfl) (by decide)
  have hcall : Greedy (.expr .call _) (lastTokens s) .eof :=
    .call hprint rfl (.moreExprs (hstring.ofCall (by decide) (by decide)) rfl
      (.lastExpr (htotal.ofCall (by decide) (by decide)) rfl))
  have hvalue : Greedy (.expr .pipeline _) (lastTokens s) .eof :=
    hcall.ofCall (by decide) (by decide)
  have hstatement : Greedy (.statement (lastStatement s)) (lastTokens s) .eof :=
    .exprStatement hvalue (by decide) (fun _ => nofun)
  exact .moreStatements hstatement (by decide) (.noStatements (by decide))

private theorem code_lastStatement (s : Bytes) : (Program.mk [lastStatement s]).code =
    .ok (Target.preamble ++ ("runtime.print(" ++ Target.stringLiteral s ++ ", total);\n")) := by
  refine Program.code_eq_ok.mpr
    ⟨[.expr (.call (.library "print") [.string s, .name "total"])], rfl, ?_⟩
  have hopen : Bytes.ofString "runtime.print(" = Target.indent 0 ++ (Library.namespaceName ++
      (Bytes.ofString "." ++ (Bytes.ofString "print" ++ Bytes.ofString "("))) := by
    decide
  have hclose : Bytes.ofString ", total);\n" = Bytes.ofString ", " ++ (Bytes.ofString "total" ++
      (Bytes.ofString ")" ++ Bytes.ofString ";\n")) := by
    decide
  simp [Target.Stmt.prints, Target.Stmt.print, Target.Expr.print, Target.Expr.prints,
    Target.commaList, List.intercalate, hopen, hclose]

end Scaffold

/-- A text of which the parser sees the tokens of a program compiles to the code of the program. -/
theorem compile_of_seen {source code : Bytes} {ts : List Token} {body : List Stmt}
    (hseen : seen? source = some ts) (h : Greedy (.statements body) ts .eof)
    (hcode : (Program.mk body).code = .ok code) :
    ∃ r, compile source = .ok r ∧ r.code = code := by
  obtain ⟨p, hparse, hsame⟩ := parse_of_seen hseen h
  rw [← hsame, Program.code_retoken (Program.parse_formed hparse)] at hcode
  exact ⟨⟨p, code⟩, compile_eq_ok.mpr ⟨hparse, hcode⟩, rfl⟩

open Scaffold in
/-- Whatever the name of a project is, its first program compiles, and all of the code but one
string literal, which stands for the name and a fixed text behind it, is the same for every name. -/
theorem scaffolded_program_compiles (name : Bytes) :
    ∃ r, compile (mainText name) = .ok r ∧
      r.code = Target.preamble ++ knownCode ++ ("runtime.print(" ++
        Target.stringLiteral (name ++ ": sum of odd squares is") ++ ", total);\n") := by
  generalize htext : name ++ Bytes.ofString ": sum of odd squares is" = text
  have hseen := seen?_mainText name
  rw [htext] at hseen
  obtain ⟨p, hknown, hcode⟩ := greedy_knownTokens
  have hfirst : first (lastTokens text) .eof = .ident := rfl
  have hfinal : AsFinal .eof (first (lastTokens text) .eof) :=
    ⟨fun level _ => by rw [hfirst]; cases level <;> decide, fun _ => nofun⟩
  have hall := hknown.statements_append (greedy_lastTokens text) hfinal nofun nofun (by decide)
  obtain ⟨own, own', hown, hown', hboth⟩ := Program.code_append hcode (code_lastStatement text)
  rw [← List.append_cancel_left hown, ← List.append_cancel_left hown'] at hboth
  exact compile_of_seen hseen hall hboth

end PipeCompiler
