import PipeCompiler.Proofs.LosslessLexing
import PipeCompiler.Proofs.LoweringTotality

/-! What a compilation comes to.

A text has no tokens, or its tokens do not fit the grammar, or it has a program and code. -/
namespace PipeCompiler

theorem Tokens.parse_eq_error {ts : Tokens} {e : GrammarError} :
    ts.parse.1 = .error e ↔ ∃ ts', Parser.program ts = .error e ts' := by
  unfold parse
  cases Parser.program ts with
  | ok q ts' => simp
  | error e ts' => simp

/-- A program is not to be had if the text has no tokens or the tokens do not fit the grammar. -/
theorem Program.parse_eq_error {source : Bytes} {d : Diagnostic} :
    Program.parse source = .error d ↔
      (∃ e, tokenize source = .error e ∧ e.diagnostic source = d) ∨
        ∃ toks e, tokenize source = .ok toks ∧ (Tokens.ofList toks).parse.1 = .error e ∧
          e.diagnostic source = d := by
  unfold Program.parse
  cases tokenize source with
  | error e => simp
  | ok toks => simp [mapError_eq_error]

theorem compile_eq_diagnostic {source : Bytes} {d : Diagnostic} :
    compile source = .error (.diagnostic d) ↔ Program.parse source = .error d := by
  constructor
  · intro h
    rcases bind_eq_error.mp h with h | ⟨p, -, h⟩
    · obtain ⟨d', hparse, hd⟩ := mapError_eq_error.mp h
      cases hd
      exact hparse
    · -- What fails behind the parser is no fault of the text.
      rcases bind_eq_error.mp h with h | ⟨code, -, h⟩
      · obtain ⟨e, -, he⟩ := mapError_eq_error.mp h
        cases he
      · cases h
  · intro h
    exact bind_eq_error.mpr (.inl (mapError_eq_error.mpr ⟨d, h, rfl⟩))

section

variable {source : Bytes} {toks : List Token} {rest : Tokens}

/-- A program that is read has code, so the text compiles. -/
theorem compile_of_program {p : Program} (h : tokenize source = .ok toks)
    (hp : Parser.program (Tokens.ofList toks) = .ok p rest) :
    ∃ code, compile source = .ok ⟨p, code⟩ := by
  have hparse := Tokens.parse_eq_ok.mpr ⟨rest, hp⟩
  have hformed := Tokens.parse_formed (P := fun _ => True) hparse fun _ _ => trivial
  obtain ⟨code, hcode⟩ := Program.code_succeeds hformed
  exact ⟨code, compile_eq_ok.mpr ⟨Program.parse_eq_ok.mpr ⟨toks, h, hparse⟩, hcode⟩⟩

theorem compile_of_grammarError {e : GrammarError} (h : tokenize source = .ok toks)
    (hp : Parser.program (Tokens.ofList toks) = .error e rest) :
    compile source = .error (.diagnostic (e.diagnostic source)) := by
  have hparse := Tokens.parse_eq_error.mpr ⟨rest, hp⟩
  exact compile_eq_diagnostic.mpr (Program.parse_eq_error.mpr (.inr ⟨toks, e, h, hparse, rfl⟩))

theorem compile_of_lexicalError {e : LexicalError} (h : tokenize source = .error e) :
    compile source = .error (.diagnostic (e.diagnostic source)) :=
  compile_eq_diagnostic.mpr (Program.parse_eq_error.mpr (.inl ⟨e, h, rfl⟩))

end

/-- The tokens of a text end with the end of input, which is nowhere else. -/
theorem Cursor.tokens_end {c : Cursor} {toks : List Token} (h : c.tokens = .ok toks) :
    ∃ body stop, toks = body ++ [stop] ∧ stop.kind = .eof ∧ ∀ tok ∈ body, tok.kind ≠ .eof := by
  obtain ⟨pieces, last, stop, rfl, hstop, -, -, hall⟩ := tokens_spell h
  refine ⟨_, stop, rfl, hstop, fun tok htok => ?_⟩
  obtain ⟨piece, hpiece, rfl⟩ := List.mem_map.mp htok
  exact (hall piece hpiece).1

theorem Cursor.tokens_concat {c : Cursor} {body : List Token} {stop : Token}
    (h : c.tokens = .ok (body ++ [stop])) :
    stop.kind = .eof ∧ ∀ tok ∈ body, tok.kind ≠ .eof := by
  obtain ⟨body', stop', hends, hstop, hbody⟩ := tokens_end h
  obtain ⟨rfl, hsame⟩ := List.append_inj' hends rfl
  cases hsame
  exact ⟨hstop, hbody⟩

theorem Tokens.ofList_end {body : List Token} {stop : Token} (hstop : stop.kind = .eof)
    (hbody : ∀ tok ∈ body, tok.kind ≠ .eof) :
    ofList (body ++ [stop]) = ⟨body.filter (·.kind ≠ .newline), stop⟩ := by
  have hkept : ∀ tok ∈ body.filter (·.kind ≠ .newline), decide (tok.kind ≠ .eof) = true :=
    fun tok htok => decide_eq_true (hbody tok (List.mem_filter.mp htok).1)
  have hfilter : (body ++ [stop]).filter (·.kind ≠ .newline) =
      body.filter (·.kind ≠ .newline) ++ [stop] := by
    simp [List.filter_append, hstop]
  have hdrop : ([stop].dropWhile fun tok : Token => decide (tok.kind ≠ .eof)) = [stop] := by
    simp [hstop]
  have htake : ([stop].takeWhile fun tok : Token => decide (tok.kind ≠ .eof)) = [] := by
    simp [hstop]
  unfold ofList
  dsimp only
  rw [hfilter, List.dropWhile_append_of_pos hkept, List.takeWhile_append_of_pos hkept, hdrop, htake,
    List.append_nil]

end PipeCompiler
