import PipeCompiler.Proofs.Outcomes
import PipeCompiler.Proofs.LineBreaks
import PipeCompiler.Proofs.ParserStability

/-! More lines do not mend a definite error.

A text with more lines behind it has its old tokens, then a line break, then those of the new lines.
The grammar does not see the break, so it goes wrong on the same token. -/
namespace PipeCompiler

open Grammar

private theorem Cursor.start_followedBy (source rest : Bytes) :
    (start source).followedBy rest = start (source ++ '\n'.toUInt8 :: rest) := rfl

/-- A text whose tokens are known either cannot be read on, or has all of these tokens, less the end
of input, before those of the new lines. -/
theorem tokenize_followedBy {source : Bytes} {toks : List Token} (h : tokenize source = .ok toks)
    (rest : Bytes) :
    (∃ e, tokenize (source ++ '\n'.toUInt8 :: rest) = .error e) ∨
      ∃ toks' more, tokenize (source ++ '\n'.toUInt8 :: rest) = .ok toks' ∧
        Tokens.ofList toks' = .before (Tokens.ofList toks).ahead more := by
  obtain ⟨body, stop, rfl, hlonger⟩ := Cursor.tokens_followedBy h rest
  rw [Cursor.start_followedBy] at hlonger
  cases hmore : (Cursor.onNextLine stop.pos rest).tokens with
  | error e =>
    rw [hmore] at hlonger
    exact .inl ⟨e, hlonger⟩
  | ok more =>
    rw [hmore] at hlonger
    refine .inr ⟨_, Tokens.ofList more, hlonger, ?_⟩
    obtain ⟨hstop, hbody⟩ := Cursor.tokens_concat h
    obtain ⟨body₂, stop₂, rfl, hstop₂, hbody₂⟩ := Cursor.tokens_end hmore
    have hall : ∀ tok ∈ body ++ Cursor.lineBreak stop.pos :: body₂, tok.kind ≠ .eof := by
      intro tok htok
      rcases List.mem_append.mp htok with htok | htok
      · exact hbody tok htok
      · rcases List.mem_cons.mp htok with rfl | htok
        · simp [Cursor.lineBreak]
        · exact hbody₂ tok htok
    have hlong := Tokens.ofList_end hstop₂ hall
    rw [List.append_assoc, List.cons_append] at hlong
    rw [hlong, Tokens.ofList_end hstop hbody, Tokens.ofList_end hstop₂ hbody₂, List.filter_append]
    rfl

namespace GrammarError

/-- The report shows whether an error is definite. -/
theorem definite_of_diagnostic {e : GrammarError} {source : Bytes}
    (hi : (e.diagnostic source).incomplete = false)
    (hp : ¬Bytes.ofString "Pipe target must be " <+: (e.diagnostic source).message) :
    e.Definite := by
  refine ⟨by simpa [diagnostic] using hi, fun hfault => hp ?_⟩
  have hmessage : (e.diagnostic source).message =
      Bytes.ofString "Pipe target must be a function name or call, found " ++
        e.tok.kind.describe := by
    simp [diagnostic, message, hfault]
  rw [hmessage]
  exact List.IsPrefix.trans (by decide) (List.prefix_append _ _)

end GrammarError

/-- Adding lines to a text with a definite error leaves it with an error: the same one, unless the
new lines bring one that is found before any grammar is looked at. -/
theorem definite_errors_persist {source : Bytes} (rest : Bytes) {d : Diagnostic}
    (h : compile source = .error (.diagnostic d)) (hi : d.incomplete = false)
    (hp : ¬Bytes.ofString "Pipe target must be " <+: d.message) :
    ∃ d', compile (source ++ '\n'.toUInt8 :: rest) = .error (.diagnostic d') ∧
      ((d.kind = .lexical ∨ ∃ toks, tokenize (source ++ '\n'.toUInt8 :: rest) = .ok toks) →
        d'.kind = d.kind ∧ d'.message = d.message ∧ d'.pos = d.pos ∧
          d'.incomplete = d.incomplete) := by
  rcases Program.parse_eq_error.mp (compile_eq_diagnostic.mp h) with
    ⟨e, htoks, rfl⟩ | ⟨toks, e, htoks, hparse, rfl⟩
  · obtain ⟨fault, pos⟩ := e
    cases fault with
    | unterminated => simp [LexicalError.diagnostic] at hi
    | unexpected g =>
      have hlonger := Cursor.tokens_followedBy_unexpected htoks rest
      exact ⟨_, compile_of_lexicalError hlonger, fun _ => ⟨rfl, rfl, rfl, rfl⟩⟩
  · rcases tokenize_followedBy htoks rest with ⟨e', hlonger⟩ | ⟨toks', more, hlonger, hsame⟩
    · refine ⟨_, compile_of_lexicalError hlonger, ?_⟩
      rintro (hk | ⟨toks', htoks'⟩)
      · cases hk
      · rw [hlonger] at htoks'
        cases htoks'
    · obtain ⟨ts', hrun⟩ := Tokens.parse_eq_error.mp hparse
      have he := GrammarError.definite_of_diagnostic hi hp
      obtain ⟨last, hrun'⟩ := Parser.program_error more (Tokens.ofList_stop toks) hrun he
      rw [← hsame] at hrun'
      exact ⟨_, compile_of_grammarError hlonger hrun', fun _ => ⟨rfl, rfl, rfl, rfl⟩⟩

/-- The wrong bracket closes a list, and then the text ends within a block. -/
def Grammar.wrongBracket : Bytes :=
  "let a = f([1, 2)\nwhile a \x7b"

def Grammar.wrongBracketReport : Diagnostic :=
  ⟨.grammatical, "Expected ']' but found ')'", wrongBracket, [], ⟨1, 16⟩, false⟩

/-- The bracket that is missing comes too late. -/
theorem definite_errors_persist_wrongBracket :
    compile wrongBracket = .error (.diagnostic wrongBracketReport) ∧
    ∃ d, compile (wrongBracket ++ '\n'.toUInt8 :: Bytes.ofString "] \x7d") =
        .error (.diagnostic d) ∧
      d.message = wrongBracketReport.message ∧ d.pos = ⟨1, 16⟩ ∧ d.incomplete = false := by
  have hreport : (match Program.parse wrongBracket with
      | .error d => d == wrongBracketReport
      | .ok _ => false) = true := by
    decide +kernel
  obtain ⟨toks, htoks⟩ := eq_ok_of_isSome
    (x := tokenize (wrongBracket ++ '\n'.toUInt8 :: Bytes.ofString "] \x7d")) (by decide +kernel)
  have h : compile wrongBracket = .error (.diagnostic wrongBracketReport) := by
    rw [compile_eq_diagnostic]
    cases hparse : Program.parse wrongBracket with
    | ok p => simp [hparse] at hreport
    | error d =>
      rw [hparse] at hreport
      exact congrArg _ (eq_of_beq hreport)
  obtain ⟨d, hd, hsame⟩ :=
    definite_errors_persist (Bytes.ofString "] \x7d") h rfl (by decide +kernel)
  obtain ⟨-, hmessage, hpos, hincomplete⟩ := hsame (.inr ⟨toks, htoks⟩)
  exact ⟨h, d, hd, hmessage, hpos, hincomplete⟩

end PipeCompiler
