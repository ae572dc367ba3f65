import PipeCompiler.Proofs.Outcomes
import PipeCompiler.Proofs.ParserStability
import PipeCompiler.Proofs.Reports
import PipeCompiler.Proofs.TokenForms

/-! Diagnostics point at what they are about.

A text that does not compile has an offset at which the fault is: the first one at which no lexeme
can be read, or the beginning of a token that does not fit the grammar. The diagnostic has the
position of that offset, and its report shows the line there. -/
namespace PipeCompiler

namespace Lexeme

/-- The texts that make a token. -/
inductive IsText : Bytes → Prop
  | lineBreak : IsText "\n"
  | name {s : Bytes} (h : IsName s) : IsText s
  | number {s : Bytes} (h : IsNumber s) : IsText s
  | string {quote : UInt8} {body value : Bytes} (hq : isQuote quote = true)
      (h : string? quote body = some (value, body, [])) : IsText (quote :: body)
  | operator {op : String} {kind : Token.Kind} (h : (op, kind) ∈ Token.Kind.operators) : IsText op

variable {b : UInt8} {s text rest : Bytes} {x : Lexeme}

private theorem string?_self {quote : UInt8} {value : Bytes}
    (h : string? quote s = some (value, text, rest)) :
    string? quote text = some (value, text, []) := by
  fun_induction string? quote s generalizing value text rest with
  | case1 => cases h
  | case2 b s hb =>
    cases h
    rw [string?.eq_def]
    exact if_pos hb
  | case3 => cases h
  | case4 b hq hb e s ih =>
    simp only [Option.map_eq_some_iff, Prod.exists, Prod.mk.injEq] at h
    obtain ⟨v, u, r, hr, rfl, rfl, rfl⟩ := h
    rw [string?, if_neg hq, if_pos hb, ih hr, Option.map_some]
  | case5 b s hq hb ih =>
    simp only [Option.map_eq_some_iff, Prod.exists, Prod.mk.injEq] at h
    obtain ⟨v, u, r, hr, rfl, rfl, rfl⟩ := h
    rw [string?.eq_def]
    dsimp only
    rw [if_neg hq, if_neg hb, ih hr, Option.map_some]

private theorem ofName_isLexical (name : Bytes) : (Token.Kind.ofName name).isLexical = true := by
  have hwords : ∀ w ∈ Token.Kind.words, w.2.isLexical = true := by decide
  unfold Token.Kind.ofName
  split
  · rename_i hfind
    exact hwords _ (List.mem_of_find?_eq_some hfind)
  · rfl

/-- What is read as a lexeme is one, of a kind that source texts have. -/
theorem scan_isText (h : scan b s = .ok (x, rest)) : IsText x.text ∧ x.kind.isLexical = true := by
  unfold scan at h
  split at h
  · rename_i hb
    have hline : b = '\n' := by simpa [isLineBreak] using hb
    cases h
    exact ⟨hline ▸ .lineBreak, rfl⟩
  split at h
  · rename_i hq
    split at h
    · rename_i hs
      cases h
      exact ⟨.string hq (string?_self hs), rfl⟩
    · cases h
  split at h
  · rename_i hletter
    cases h
    refine ⟨.name ⟨⟨b, rfl, hletter⟩, ?_⟩, ?_⟩
    · intro c hc
      exact List.all_eq_true.mp List.all_takeWhile c hc
    · exact ofName_isLexical _
  split at h
  · rename_i hdigit
    cases h
    exact ⟨.number (isNumber_number hdigit s), rfl⟩
  · split at h
    · rename_i hop
      cases h
      have hops : ∀ op ∈ Token.Kind.operators, op.2.isLexical = true := by decide
      obtain ⟨op, hmem, rfl⟩ := operator?_mem hop
      exact ⟨.operator hmem, hops _ hmem⟩
    · cases h

/-- A text that begins with a lexeme is read as one. -/
theorem scan_of_isText (h : IsText text) (hbegin : text <+: b :: s) :
    ∃ x rest, scan b s = .ok (x, rest) := by
  cases h with
  | lineBreak =>
    obtain ⟨rfl, -⟩ := List.cons_prefix_cons.mp hbegin
    exact ⟨_, s, rfl⟩
  | name h =>
    obtain ⟨c, t, rfl, hletter⟩ := h.eq_cons
    obtain ⟨rfl, -⟩ := List.cons_prefix_cons.mp hbegin
    exact ⟨_, _, scan_letter hletter s⟩
  | number h =>
    obtain ⟨c, t, rfl, hdigit⟩ := h.eq_cons
    obtain ⟨rfl, -⟩ := List.cons_prefix_cons.mp hbegin
    exact ⟨_, _, scan_digit hdigit s⟩
  | @string quote body value hq h =>
    obtain ⟨rfl, r, rfl⟩ := List.cons_prefix_cons.mp hbegin
    exact ⟨_, _, scan_quoted hq (string?_append_right h r)⟩
  | @operator op kind h =>
    obtain ⟨c, t, ht, -, hscan⟩ := scan_operator h
    have hb : c = b := (List.cons_prefix_cons.mp (ht ▸ hbegin)).1
    subst hb
    cases hread : Token.Kind.operator? (c :: s) with
    | some r => exact ⟨_, _, hscan _ _ _ _ hread⟩
    | none =>
      have hnone := List.findSome?_eq_none_iff.mp hread _ h
      simp [Bytes.after?, hbegin] at hnone

/-- Where no lexeme can be read, a string begins that does not end, or an unexpected character
stands. -/
theorem scan_error_cases {fault : Fault} (h : scan b s = .error fault) :
    isLineBreak b = false ∧
      fault = if isQuote b then .unterminated else .unexpected (Glyph.first b s) := by
  unfold scan at h
  split at h
  · cases h
  rename_i hline
  refine ⟨by simpa using hline, ?_⟩
  split at h
  · rename_i hq
    rw [if_pos hq]
    split at h
    · cases h
    · cases h
      rfl
  rename_i hq
  rw [if_neg hq]
  split at h
  · cases h
  split at h
  · cases h
  · split at h
    · cases h
    · cases h
      rfl

end Lexeme

namespace Cursor

/-- The lexer reads these tokens and comes to another place. -/
inductive Reads : Cursor → List Token → Cursor → Prop
  | refl (c : Cursor) : Reads c [] c
  | step {c after c' : Cursor} {tok : Token} {toks : List Token} (h : c.step = .token tok after)
      (hr : Reads after toks c') : Reads c (tok :: toks) c'

/-- Behind the tokens `before` and a gap, the lexer looks at an offset for what comes next. -/
def LooksAt (source : Bytes) (before : List Token) (offset : Nat) : Prop :=
  ∃ c, (start source).Reads before c ∧ (Lexeme.gap c.rest).2 = source.drop offset

variable {c after : Cursor} {e : LexicalError} {tok : Token} {toks : List Token}

theorem tokens_error (h : c.tokens = .error e) :
    ∃ before c' after, c.Reads before c' ∧ c'.step = .fail e after := by
  fun_induction tokens c with
  | case1 c stop after hstep => cases h
  | case2 c error after hstep =>
    cases h
    exact ⟨[], c, after, .refl c, hstep⟩
  | case3 c tok after hstep ih =>
    cases hrest : after.tokens with
    | ok toks => simp [hrest, Except.map] at h
    | error e' =>
      simp only [hrest, Except.map, Except.error.injEq] at h
      subst h
      obtain ⟨before, c', after', hreads, hfail⟩ := ih hrest
      exact ⟨tok :: before, c', after', .step hstep hreads, hfail⟩

/-- Each token is read somewhere, behind those before it. -/
theorem tokens_mem (h : c.tokens = .ok toks) (htok : tok ∈ toks) :
    ∃ before behind c' after, toks = before ++ tok :: behind ∧ c.Reads before c' ∧
      (c'.step = .token tok after ∨ c'.step = .done tok after) := by
  fun_induction tokens c generalizing toks with
  | case1 c stop after hstep =>
    cases h
    rw [List.mem_singleton.mp htok]
    exact ⟨[], [], c, after, rfl, .refl c, .inr hstep⟩
  | case2 c error after hstep => cases h
  | case3 c first after hstep ih =>
    cases hrest : after.tokens with
    | error e => simp [hrest, Except.map] at h
    | ok rest =>
      simp only [hrest, Except.map, Except.ok.injEq] at h
      subst h
      rcases List.mem_cons.mp htok with rfl | htok
      · exact ⟨[], rest, c, after, rfl, .refl c, .inl hstep⟩
      · obtain ⟨before, behind, c', after', rfl, hreads, hstep'⟩ := ih hrest htok
        exact ⟨first :: before, behind, c', after', rfl, .step hstep hreads, hstep'⟩

theorem Behind.reads {source done : Bytes} {c' : Cursor} (h : c.Behind source done)
    (hr : c.Reads toks c') : ∃ done', c'.Behind source done' := by
  induction hr generalizing done with
  | refl c => exact ⟨done, h⟩
  | step hstep hr ih =>
    obtain ⟨_, _, -, -, -, done', hafter⟩ := h.next
    rw [Cursor.next, hstep] at hafter
    exact ih hafter

/-- Behind what has been read and a gap there is an offset at which the text can be cut. -/
theorem Reads.exists_offset {source : Bytes} (h : (start source).Reads toks c) :
    ∃ offset ≤ source.length, (Lexeme.gap c.rest).2 = source.drop offset ∧
      c.pos.advance (Lexeme.gap c.rest).1 = .behind (source.take offset) ∧
      Bytes.Seam (source.take offset) (source.drop offset) := by
  obtain ⟨done, hdone⟩ := (behind_start source).reads h
  obtain ⟨happend, hseam, hpos⟩ := hdone.move (Lexeme.gap_append c.rest) (Lexeme.gap_seam c.rest)
  dsimp only at happend hseam hpos
  subst happend
  refine ⟨(done ++ (Lexeme.gap c.rest).1).length, by simp, ?_⟩
  rw [List.take_left, List.drop_left]
  exact ⟨rfl, hpos, hseam⟩

theorem step_fail (h : c.step = .fail e after) :
    e.pos = c.pos.advance (Lexeme.gap c.rest).1 ∧
      ∃ b s, (Lexeme.gap c.rest).2 = b :: s ∧ Lexeme.scan b s = .error e.fault := by
  simp only [step] at h
  split at h
  · cases h
  · rename_i b s hs
    split at h
    · cases h
    · rename_i hscan
      cases h
      exact ⟨rfl, b, s, hs, hscan⟩
    · rename_i hscan
      cases h
      exact ⟨rfl, b, s, hs, hscan⟩

/-- A token begins behind the gap, with its text. The end of input has none. -/
theorem step_text (h : c.step = .token tok after ∨ c.step = .done tok after) :
    tok.pos = c.pos.advance (Lexeme.gap c.rest).1 ∧ tok.kind.isLexical = true ∧
      if tok.kind = .eof then (Lexeme.gap c.rest).2 = []
      else Lexeme.IsText tok.text ∧ tok.text <+: (Lexeme.gap c.rest).2 := by
  rcases h with h | h
  · obtain ⟨b, s, x, rest, hs, hscan, rfl, rfl⟩ := step_token_cases h
    have hcut := Lexeme.scan_cut hscan
    obtain ⟨htext, hkind⟩ := Lexeme.scan_isText hscan
    refine ⟨rfl, hkind, ?_⟩
    rw [if_neg (by exact hcut.kind), hcut.token_text, hs]
    exact ⟨htext, rest, hcut.append⟩
  · obtain ⟨hs, rfl⟩ := step_done_cases h
    exact ⟨rfl, rfl, hs⟩

end Cursor

private theorem Token.Kind.lineBreak_notMem_describe {kind : Token.Kind}
    (h : kind.isLexical = true) :
    '\n'.toUInt8 ∉ kind.describe := by
  cases kind with
  | other name => cases h
  | _ => decide

private theorem Lexeme.lineBreak_notMem_message {b : UInt8} {s : Bytes} {fault : Lexeme.Fault}
    (h : Lexeme.scan b s = .error fault) : '\n'.toUInt8 ∉ fault.message := by
  obtain ⟨hline, rfl⟩ := Lexeme.scan_error_cases h
  split
  · decide
  · have hchar : (Glyph.first b s).toChar ≠ '\n' := by
      unfold Glyph.first
      split
      · rename_i hc
        rintro rfl
        rw [Utf8.char?_lineBreak hc] at hline
        cases hline
      · show '\uFFFD' ≠ '\n'
        decide
    have hunit := Bytes.notMem_ofChar (by decide) hchar
    have hfixed : '\n'.toUInt8 ∉ Bytes.ofString "Unexpected character '" ∧
        '\n'.toUInt8 ∉ Bytes.ofString "'" := by decide
    simp only [Lexeme.Fault.message, List.mem_append, not_or]
    exact ⟨⟨hfixed.1, hunit⟩, hfixed.2⟩

private theorem GrammarError.lineBreak_notMem_message {e : GrammarError} (h : e.Justified)
    (hk : e.tok.kind.isLexical = true) (hnumber : e.fault ≠ .badNumber) :
    '\n'.toUInt8 ∉ e.message := by
  have hfound := Token.Kind.lineBreak_notMem_describe hk
  have hfixed : ∀ text ∈ ["Expected ", " but found ", "Unexpected token ",
      "Pipe target must be a function name or call, found "].map Bytes.ofString,
      '\n'.toUInt8 ∉ text := by decide
  simp only [List.map_cons, List.map_nil, List.forall_mem_cons] at hfixed
  obtain ⟨fault, tok⟩ := e
  cases fault with
  | expected kind =>
    have hkind := Token.Kind.lineBreak_notMem_describe h
    simp only [message, List.mem_append, not_or]
    exact ⟨⟨⟨hfixed.1, hkind⟩, hfixed.2.1⟩, hfound⟩
  | unexpected =>
    simp only [message, List.mem_append, not_or]
    exact ⟨hfixed.2.2.1, hfound⟩
  | pipeTarget =>
    simp only [message, List.mem_append, not_or]
    exact ⟨hfixed.2.2.2.1, hfound⟩
  | badNumber => exact absurd rfl hnumber

namespace Diagnostic

/-- No lexeme can be read from a text. More text helps only if a string begins there. -/
def TellsOfLexeme (d : Diagnostic) (s : Bytes) : Prop :=
  ∃ b t, s = b :: t ∧ (∀ text, Lexeme.IsText text → ¬text <+: s) ∧
    (d.incomplete = true ↔ Lexeme.isQuote b = true) ∧
    d.message = if Lexeme.isQuote b then Bytes.ofString "Unterminated string"
      else "Unexpected character '" ++ Bytes.ofChar (Glyph.first b t).toChar ++ "'"

/-- A text begins with a token, and the message is about it. More text helps only if the token is
the end of input. -/
def TellsOfToken (d : Diagnostic) (tok : Token) (s : Bytes) : Prop :=
  (if tok.kind = .eof then s = [] else Lexeme.IsText tok.text ∧ tok.text <+: s) ∧
    (d.incomplete = true ↔ tok.kind = .eof) ∧
    ∃ fault, d.message = GrammarError.message ⟨fault, tok⟩

/-- What a diagnostic is about begins at an offset: something that is no lexeme and comes behind
nothing but tokens, or one of the tokens. -/
def IsAbout (d : Diagnostic) (source : Bytes) (offset : Nat) : Prop :=
  ∃ before, Cursor.LooksAt source before offset ∧
    match d.kind with
    | .lexical => d.TellsOfLexeme (source.drop offset)
    | .grammatical => ∃ tok behind, tokenize source = .ok (before ++ tok :: behind) ∧
        d.TellsOfToken tok (source.drop offset)
    | .named _ => False

/-- A diagnostic has the position of an offset of the source text, where what it is about begins.
Its report shows the line there, with the caret below the character at the offset. -/
structure PointsAt (d : Diagnostic) (source : Bytes) (offset : Nat) : Prop where
  source_eq : d.source = source
  offset_le : offset ≤ source.length
  pos : d.pos = .behind (source.take offset)
  about : d.IsAbout source offset
  line : (Bytes.lines d.render)[3]? = some (Bytes.ofInt d.pos.line ++ " | " ++
    Bytes.dropTrailing '\r' (source.lineAt offset))
  caret : (Bytes.lines d.render)[4]? =
    some (List.replicate (Bytes.ofInt d.pos.line).length ' '.toUInt8 ++ " | " ++
      List.replicate (d.pos.column - 1).toNat ' '.toUInt8 ++ "^ " ++ d.message)
  /-- The line is that of the source. The one that is shown lacks the carriage returns at its end,
  and the caret may stand behind it. -/
  column_le : d.pos.column - 1 ≤ (glyphs (source.lineAt offset)).length

/-- A diagnostic with the right position has the right report. -/
theorem IsAbout.pointsAt {d : Diagnostic} {offset : Nat} (h : d.IsAbout d.source offset)
    (hle : offset ≤ d.source.length) (hpos : d.pos = .behind (d.source.take offset))
    (hseam : Bytes.Seam (d.source.take offset) (d.source.drop offset)) (hfile : d.file = [])
    (hmessage : '\n'.toUInt8 ∉ d.message) : d.PointsAt d.source offset := by
  obtain ⟨hline, hcaret⟩ := lines_render_behind hpos hmessage hfile
  exact ⟨rfl, hle, hpos, h, hline, hcaret, hpos ▸ Position.column_behind_le hseam⟩

end Diagnostic

section

variable {source : Bytes}

private theorem LexicalError.diagnostic_pointsAt {e : LexicalError}
    (h : tokenize source = .error e) :
    ∃ offset, (e.diagnostic source).PointsAt source offset := by
  obtain ⟨before, c, after, hreads, hfail⟩ := Cursor.tokens_error h
  obtain ⟨hpos, b, s, hs, hscan⟩ := Cursor.step_fail hfail
  obtain ⟨offset, hle, hdrop, hbehind, hseam⟩ := hreads.exists_offset
  obtain ⟨-, hfault⟩ := Lexeme.scan_error_cases hscan
  have hnone : ∀ text, Lexeme.IsText text → ¬text <+: source.drop offset := by
    intro text htext hbegin
    rw [← hdrop, hs] at hbegin
    obtain ⟨x, rest, hx⟩ := Lexeme.scan_of_isText htext hbegin
    rw [hx] at hscan
    cases hscan
  have htells : (e.diagnostic source).TellsOfLexeme (source.drop offset) := by
    refine ⟨b, s, hdrop ▸ hs, hnone, ?_, ?_⟩
    · cases hq : Lexeme.isQuote b <;> simp [LexicalError.diagnostic, hfault, hq]
    · cases hq : Lexeme.isQuote b <;>
        simp [LexicalError.diagnostic, hfault, hq, Lexeme.Fault.message]
  have habout : (e.diagnostic source).IsAbout source offset := ⟨before, ⟨c, hreads, hdrop⟩, htells⟩
  exact ⟨offset, habout.pointsAt hle (hpos.trans hbehind) hseam rfl
    (Lexeme.lineBreak_notMem_message hscan)⟩

/-- Numbers of a source text can be read. -/
theorem GrammarError.fault_ne_badNumber {e : GrammarError} (h : e.Justified)
    (htok : e.tok.WellSpelled) : e.fault ≠ .badNumber := by
  intro hfault
  rw [GrammarError.Justified, hfault] at h
  obtain ⟨k, -, hread⟩ := Double.read?_isNumber (htok.number h.1)
  rw [h.2] at hread
  cases hread

theorem GrammarError.tok_mem {toks : List Token} {e : GrammarError} {rest : Tokens}
    (h : tokenize source = .ok toks)
    (hp : Parser.program (Tokens.ofList toks) = .error e rest) : e.tok ∈ toks := by
  obtain ⟨body, stop, rfl, hstop, hbody⟩ := Cursor.tokens_end h
  have htok := Parser.program_error_mem (Tokens.ofList_stop _) hp
  rw [Tokens.ofList_end hstop hbody, List.mem_append] at htok
  exact List.mem_append.mpr (htok.imp_left fun hahead => (List.mem_filter.mp hahead).1)

private theorem GrammarError.diagnostic_pointsAt {toks : List Token} {e : GrammarError}
    (h : tokenize source = .ok toks) (he : (Tokens.ofList toks).parse.1 = .error e) :
    ∃ offset, (e.diagnostic source).PointsAt source offset := by
  obtain ⟨ts', hprogram⟩ := Tokens.parse_eq_error.mp he
  have hjustified := Parser.program_justifies (Tokens.ofList_stop _) hprogram
  have hmem := e.tok_mem h hprogram
  obtain ⟨before, behind, c, after, rfl, hreads, hstep⟩ := Cursor.tokens_mem h hmem
  obtain ⟨hpos, hkind, htext⟩ := Cursor.step_text hstep
  obtain ⟨offset, hle, hdrop, hbehind, hseam⟩ := hreads.exists_offset
  rw [hdrop] at htext
  have htells : (e.diagnostic source).TellsOfToken e.tok (source.drop offset) :=
    ⟨htext, by simp [GrammarError.diagnostic], e.fault, rfl⟩
  have habout : (e.diagnostic source).IsAbout source offset :=
    ⟨before, ⟨c, hreads, hdrop⟩, e.tok, behind, h, htells⟩
  have hnumber := e.fault_ne_badNumber hjustified (Cursor.tokens_wellSpelled h _ hmem)
  exact ⟨offset, habout.pointsAt hle (hpos.trans hbehind) hseam rfl
    (GrammarError.lineBreak_notMem_message hjustified hkind hnumber)⟩

/-- Whatever keeps a source text from compiling is told by a diagnostic that points at it. -/
theorem diagnostics_point_at_faults {e : CompileError} (h : compile source = .error e) :
    ∃ d offset, e = .diagnostic d ∧ d.PointsAt source offset := by
  cases hparse : Program.parse source with
  | ok p =>
    -- A program that can be read compiles.
    obtain ⟨toks, htoks, hp⟩ := Program.parse_eq_ok.mp hparse
    obtain ⟨rest, hprogram⟩ := Tokens.parse_eq_ok.mp hp
    obtain ⟨code, hcode⟩ := compile_of_program htoks hprogram
    rw [hcode] at h
    cases h
  | error d =>
    rw [compile_eq_diagnostic.mpr hparse] at h
    cases h
    rcases Program.parse_eq_error.mp hparse with ⟨e, htokens, rfl⟩ | ⟨toks, e, htoks, he, rfl⟩
    · obtain ⟨offset, hpoints⟩ := LexicalError.diagnostic_pointsAt htokens
      exact ⟨_, offset, rfl, hpoints⟩
    · obtain ⟨offset, hpoints⟩ := GrammarError.diagnostic_pointsAt htoks he
      exact ⟨_, offset, rfl, hpoints⟩

end

/-- A parenthesis too many, behind a character of two bytes on the second line. -/
def Grammar.strayParen : Bytes :=
  "let a = 1\r\nlet s = 'é' ) // b"

theorem diagnostics_point_at_faults_strayParen :
    ∃ d offset, compile Grammar.strayParen = .error (.diagnostic d) ∧
      d.PointsAt Grammar.strayParen offset ∧ d.pos = ⟨2, 13⟩ := by
  have hreport : (match Program.parse Grammar.strayParen with
      | .error d => d.pos == ⟨2, 13⟩
      | .ok _ => false) = true := by
    decide +kernel
  cases hparse : Program.parse Grammar.strayParen with
  | ok p => simp [hparse] at hreport
  | error d =>
    have h := compile_eq_diagnostic.mpr hparse
    obtain ⟨d', offset, hd, hpoints⟩ := diagnostics_point_at_faults h
    cases hd
    rw [hparse] at hreport
    exact ⟨d, offset, h, hpoints, eq_of_beq hreport⟩

end PipeCompiler
