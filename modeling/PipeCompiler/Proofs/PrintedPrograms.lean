import Mathlib.Data.List.Basic
import PipeCompiler.Proofs.SeparatedPrograms

/-! Reading a printed program.

The text of a program that was read is read as the program again if the program is separated. -/
namespace PipeCompiler

open Grammar
open Token.Relabelling (plain)

private theorem Program.body_wellSpelled {source : Bytes} {p : Program}
    (h : Program.parse source = .ok p) : Formed Token.WellSpelled (.body p.body) := by
  obtain ⟨toks, htoks, hp⟩ := Program.parse_eq_ok.mp h
  exact Tokens.parse_formed hp (Cursor.tokens_wellSpelled htoks)

/-- The text of a separated program is this program, but for the tokens that its nodes keep: they
are those of the text. It has the same text and the same code. -/
theorem parse_print {source : Bytes} {p : Program} (h : Program.parse source = .ok p)
    (hs : p.isSeparated = true) :
    ∃ q, Program.parse p.print = .ok q ∧ q.relabel plain = p.asPrinted ∧ q.print = p.print ∧
      q.code = p.code := by
  have hformed := Program.body_wellSpelled h
  obtain ⟨q, hq, hsame⟩ := parse_of_seen (seen?_print hformed) (Program.greedy_tokens hformed hs)
  refine ⟨q, hq, hsame, ?_, ?_⟩
  · calc q.print = (q.relabel plain).print := (Program.print_retoken q).symm
      _ = p.asPrinted.print := congrArg Program.print hsame
      _ = p.print := Program.print_retoken p
  · calc q.code = (q.relabel plain).code := (Program.code_retoken (Program.parse_formed hq)).symm
      _ = p.asPrinted.code := congrArg Program.code hsame
      _ = p.code := Program.code_retoken hformed

/-- A program with statements and expressions of every form. -/
def manyForms : Bytes :=
  "let total = [1, 2] |> map(|x| x * 2) |> sum()\n" ++
  "fn f(a, b) \x7b if a > b then a else b \x7d\n" ++
  "for x in [f(1, 2)] \x7b print('x is ' + x); return \x7d\n" ++
  "var g = || null\n" ++
  "if g() \x7b total = -total \x7d else if true \x7b g \x7d\n"

theorem parse_print_manyForms :
    ∃ p q, Program.parse manyForms = .ok p ∧ Program.parse p.print = .ok q ∧
      q.relabel plain = p.asPrinted ∧ q.print = p.print ∧ q.code = p.code := by
  have hseparated : (Program.parse manyForms).toOption.map Program.isSeparated = some true := by
    decide +kernel
  obtain ⟨p, hp⟩ := eq_ok_of_isSome (x := Program.parse manyForms) (by decide +kernel)
  rw [hp] at hseparated
  obtain ⟨q, hq⟩ := parse_print hp (Option.some.inj hseparated)
  exact ⟨p, q, hp, hq⟩

/-- The program that is read from the text of this one has other code. -/
def IsMisread (source : Bytes) : Prop :=
  ∃ r r', compile source = .ok r ∧ compile r.program.print = .ok r' ∧ r'.code ≠ r.code

/-- Programs whose text is another program: a closure that is called, a choice in a choice, two
statements of which the second begins with a parenthesis, a bare return before a statement, and a
string with a control character. -/
def ambiguousTexts : List Bytes :=
  ["(|x| x)(1)", "if a then (if b then c) else d", "a; -b", "return; x", "'\x07'"]

theorem print_ambiguousTexts : ambiguousTexts.Forall IsMisread := by
  have hall : ∀ source ∈ ambiguousTexts, (compile source).toOption.any (fun r =>
      (compile r.program.print).toOption.any fun r' => r'.code ≠ r.code) = true := by
    decide +kernel
  rw [List.forall_iff_forall_mem]
  intro source hmem
  have hsource := hall source hmem
  cases hr : compile source with
  | error e => simp [hr, Except.toOption] at hsource
  | ok r =>
    cases hr' : compile r.program.print with
    | error e => simp [hr, hr', Except.toOption] at hsource
    | ok r' => exact ⟨r, r', hr, hr', by simpa [hr, hr', Except.toOption] using hsource⟩

end PipeCompiler
