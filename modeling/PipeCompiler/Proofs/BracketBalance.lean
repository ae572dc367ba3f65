import PipeCompiler.Proofs.CodeForms
import PipeCompiler.Proofs.StatementSequences
import PipeCompiler.Proofs.StringValues
import PipeCompiler.Proofs.TextCuts

/-! The brackets of generated code.

Generated code is scanned from left to right, with a stack of the brackets that are open and without
a look at what stands in string literals. Brackets that one piece of text opens are closed by
another, so what is followed through the printer is the stack; over a whole expression or statement
it comes back to what it was. -/
namespace PipeCompiler

inductive Bracket
  | round
  | square
  | curly
deriving DecidableEq, Repr

/-- The bracket that a byte opens. -/
def Bracket.opened? (b : UInt8) : Option Bracket :=
  if b = '(' then some round
  else if b = '[' then some square
  else if b = '\x7b' then some curly
  else none

/-- The bracket that a byte closes. -/
def Bracket.closed? (b : UInt8) : Option Bracket :=
  if b = ')' then some round
  else if b = ']' then some square
  else if b = '\x7d' then some curly
  else none

namespace Scan

/-- What the next byte of a text belongs to. -/
inductive Mode
  | code
  | string (quote : UInt8)
  /-- A backslash stands before the byte. -/
  | escape (quote : UInt8)
deriving DecidableEq, Repr

end Scan

/-- How far the scan of a text has come. -/
structure Scan where
  mode : Scan.Mode
  /-- The brackets that are open, the last one first. -/
  pending : List Bracket
deriving DecidableEq, Repr

namespace Scan

/-- Scans a byte. A bracket can only be closed if it is the last that was opened. -/
def step (s : Scan) (b : UInt8) : Option Scan :=
  match s.mode with
  | .escape quote => some { s with mode := .string quote }
  | .string quote =>
    if b = quote then some { s with mode := .code }
    else if b = '\\' then some { s with mode := .escape quote }
    else some s
  | .code =>
    if b = '"' ∨ b = '\'' then some { s with mode := .string b }
    else
      match Bracket.opened? b, Bracket.closed? b with
      | some bracket, _ => some { s with pending := bracket :: s.pending }
      | none, some bracket =>
        if s.pending.head? = some bracket then some { s with pending := s.pending.tail } else none
      | none, none => some s

def run (s : Scan) (text : Bytes) : Option Scan :=
  text.foldlM step s

end Scan

/-- Every string literal in the text is closed, and outside of them the brackets match. -/
def Bytes.Balanced (text : Bytes) : Prop :=
  Scan.run ⟨.code, []⟩ text = some ⟨.code, []⟩

instance (text : Bytes) : Decidable (Bytes.Balanced text) :=
  inferInstanceAs (Decidable (_ = _))

example : Bytes.Balanced "f([')', \"\\\"]\"])" ∧ ¬Bytes.Balanced "([)]" ∧
    ¬Bytes.Balanced "('\\')" := by decide

namespace Scan

theorem run_append (s : Scan) (x y : Bytes) : s.run (x ++ y) = (s.run x).bind (·.run y) :=
  List.foldlM_append

theorem run_cons (s : Scan) (b : UInt8) (x : Bytes) : s.run (b :: x) = (s.step b).bind (·.run x) :=
  List.foldlM_cons

/-- Scanned as code, the text closes the brackets `before` and opens the brackets `after`. -/
def Turns (before : List Bracket) (text : Bytes) (after : List Bracket) : Prop :=
  ∀ below, run ⟨.code, before ++ below⟩ text = some ⟨.code, after ++ below⟩

/-- Scanned as code, the text closes what it opens. -/
def Nests (text : Bytes) : Prop :=
  ∀ pending, run ⟨.code, pending⟩ text = some ⟨.code, pending⟩

section

variable {before middle after : List Bracket} {s t : Bytes}

namespace Turns

theorem append (hs : Turns before s middle) (ht : Turns middle t after) :
    Turns before (s ++ t) after := by
  intro below
  rw [run_append, hs below]
  exact ht below

/-- A text may begin with a fixed one, of which the scan is computed. -/
theorem start (s : String) (after : List Bracket)
    (h : ∀ below, run ⟨.code, below⟩ s = some ⟨.code, after ++ below⟩ := by intro _; rfl) :
    Turns [] s after :=
  h

/-- A fixed text may follow. -/
theorem fixed (hs : Turns before s middle) (t : String) (after : List Bracket)
    (ht : ∀ below, run ⟨.code, middle ++ below⟩ t = some ⟨.code, after ++ below⟩ := by
      intro _; rfl) :
    Turns before (s ++ Bytes.ofString t) after :=
  hs.append ht

/-- A text that closes what it opens may follow. -/
theorem nested (hs : Turns before s middle) (ht : Nests t) : Turns before (s ++ t) middle :=
  hs.append fun below => ht (middle ++ below)

end Turns

namespace Nests

theorem turns (h : Nests s) : Turns [] s [] := h

theorem nil : Nests [] := fun _ => rfl

theorem append (hs : Nests s) (ht : Nests t) : Nests (s ++ t) :=
  hs.turns.nested ht

end Nests
end

/-- The bytes that a scan of code stops at. -/
def marks : Bytes := ['(', ')', '[', ']', '\x7b', '\x7d', '"', '\'']

theorem step_of_notMem {b : UInt8} (h : b ∉ marks) (pending : List Bracket) :
    step ⟨.code, pending⟩ b = some ⟨.code, pending⟩ := by
  simp only [marks, List.mem_cons, List.not_mem_nil, or_false, not_or] at h
  simp [step, Bracket.opened?, Bracket.closed?, h]

theorem Nests.plain {s : Bytes} (h : ∀ b ∈ marks, b ∉ s) : Nests s := by
  intro pending
  induction s with
  | nil => rfl
  | cons b s ih =>
    simp only [List.mem_cons, not_or] at h
    rw [run_cons, step_of_notMem fun hb => (h b hb).1 rfl]
    exact ih fun c hc => (h c hc).2

/-- In a string, a text without a bare quote leaves the scan where it was. -/
theorem run_sealed {s : Bytes} (h : Json.Sealed s) (t : Bytes) (pending : List Bracket) :
    run ⟨.string '"', pending⟩ (s ++ t) = run ⟨.string '"', pending⟩ t := by
  induction h with
  | nil => rfl
  | plain hq hb h ih =>
    rw [List.cons_append, run_cons]
    simpa [step, hq, hb] using ih
  | escaped h ih =>
    rw [List.cons_append, List.cons_append]
    exact ih

theorem nests_stringLiteral (s : Bytes) : Nests (Target.stringLiteral s) := by
  obtain ⟨ds, body, hds, hliteral, -⟩ := Target.exists_writes_stringLiteral s
  have hsealed : Json.Sealed body := List.append_nil body ▸ hds.isSealed [] .nil
  intro pending
  rw [hliteral]
  exact run_sealed hsealed ['"'.toUInt8] pending

set_option maxRecDepth 2000 in
theorem nests_numberLiteral (x : Double) : Nests (Target.numberLiteral x) := by
  have hmarks : ∀ b ∈ marks, Lexeme.isNamePart b = false ∧ b ≠ '-' ∧ b ≠ '.' := by decide
  apply Nests.plain
  intro b hb
  obtain ⟨hname, hsign, hpoint⟩ := hmarks b hb
  exact Target.notMem_numberLiteral hname hsign hpoint x

set_option maxRecDepth 2000 in
theorem notMem_name {b : UInt8} {name : Bytes} (h : Lexeme.IsName name) (hb : b ∈ marks) :
    b ∉ name := by
  have hmarks : ∀ b ∈ marks, Lexeme.isNamePart b = false := by decide
  exact h.notMem (hmarks b hb)

theorem nests_name {name : Bytes} (h : Lexeme.IsName name) : Nests name :=
  .plain fun _ hb => notMem_name h hb

set_option maxRecDepth 2000 in
theorem nests_params {params : List Bytes} (h : ∀ p ∈ params, Lexeme.IsName p) :
    Nests (Target.commaList params) := by
  have hcomma : ∀ b ∈ marks, b ∉ Bytes.ofString ", " := by decide
  apply Nests.plain
  intro b hb
  exact Bytes.notMem_intercalate (hcomma b hb) fun p hp => notMem_name (h p hp) hb

set_option maxRecDepth 2000 in
theorem nests_library {name : Bytes} (h : Library.isName name = true) : Nests name := by
  have hall : ∀ name ∈ Library.names, ∀ b ∈ marks, b ∉ name := by decide
  exact .plain (hall name (by simpa [Library.isName] using h))

set_option maxRecDepth 2000 in
theorem nests_operator {op : String} (h : op ∈ Target.binaryOperators ++ Target.unaryOperators) :
    Nests op := by
  have hall : ∀ op ∈ Target.binaryOperators ++ Target.unaryOperators, ∀ b ∈ marks,
      b ∉ Bytes.ofString op := by decide
  exact .plain (hall op h)

theorem nests_indent (depth : Nat) : Nests (Target.indent depth) := by
  apply Nests.plain
  intro b hb hmem
  rw [List.eq_of_mem_replicate hmem] at hb
  exact absurd hb (by decide)

end Scan

namespace Target

open Scan (Turns Nests)

/-- Each part of well-spelled code closes the brackets that it opens. -/
theorem Part.WellSpelled.nests {part : Part} (h : part.WellSpelled) (depth : Nat) :
    Nests (part.print depth) := by
  induction h generalizing depth with
  | name h => exact Scan.nests_name h
  | library h => exact Turns.start "runtime." [] |>.nested (Scan.nests_library h)
  | number value => exact Scan.nests_numberLiteral value
  | string value => exact Scan.nests_stringLiteral value
  | bool value => cases value <;> exact Turns.start _ []
  | null => exact Turns.start "null" []
  | undefined => exact Turns.start "undefined" []
  | array h ih => exact Turns.start "[" [.square] |>.nested (ih depth) |>.fixed "]" []
  | binary hl hop hr ihl ihr =>
    have hop := Scan.nests_operator (List.mem_append_left _ hop)
    exact Turns.start "(" [.round] |>.nested (ihl depth) |>.fixed " " [.round] |>.nested hop
      |>.fixed " " [.round] |>.nested (ihr depth) |>.fixed ")" []
  | unary hop h ih =>
    have hop := Scan.nests_operator (List.mem_append_right _ hop)
    exact Turns.start "(" [.round] |>.nested hop |>.nested (ih depth) |>.fixed ")" []
  | call hc ha ihc iha =>
    exact (ihc depth).turns |>.fixed "(" [.round] |>.nested (iha depth) |>.fixed ")" []
  | arrow hps h ih =>
    exact Turns.start "((" [.round, .round] |>.nested (Scan.nests_params hps)
      |>.fixed ") => " [.round] |>.nested (ih depth) |>.fixed ")" []
  | closure hps h ih =>
    exact Turns.start "((" [.round, .round] |>.nested (Scan.nests_params hps)
      |>.fixed ") => \x7b\n" [.curly, .round] |>.nested (ih (depth + 1))
      |>.nested (Scan.nests_indent depth) |>.fixed "\x7d)" []
  | choose ht hy hn iht ihy ihn =>
    exact Turns.start "(" [.round] |>.nested (iht depth) |>.fixed " ? " [.round]
      |>.nested (ihy depth) |>.fixed " : " [.round] |>.nested (ihn depth) |>.fixed ")" []
  | noExprs => exact .nil
  | @moreExprs e es he hes ihe ihes =>
    cases es with
    | nil => simpa only [print, Expr.prints, commaList, List.intercalate_singleton] using ihe depth
    | cons x es =>
      simp only [print, Expr.prints, commaList, List.intercalate_cons_cons]
      exact (ihe depth).turns |>.fixed ", " [] |>.nested (ihes depth)
  | @declare constant name value hn hv ih =>
    have hword : Nests (Bytes.ofString (if constant then "const " else "let ")) := by
      cases constant <;> exact Turns.start _ []
    exact (Scan.nests_indent depth).turns |>.nested hword |>.nested (Scan.nests_name hn)
      |>.fixed " = " [] |>.nested (ih depth) |>.fixed ";\n" []
  | function hn hps hb ih =>
    exact (Scan.nests_indent depth).turns |>.fixed "function " [] |>.nested (Scan.nests_name hn)
      |>.fixed "(" [.round] |>.nested (Scan.nests_params hps) |>.fixed ") \x7b\n" [.curly]
      |>.nested (ih (depth + 1)) |>.nested (Scan.nests_indent depth) |>.fixed "\x7d\n" []
  | assign hn hv ih =>
    exact (Scan.nests_indent depth).turns |>.nested (Scan.nests_name hn) |>.fixed " = " []
      |>.nested (ih depth) |>.fixed ";\n" []
  | ret hv ih =>
    exact (Scan.nests_indent depth).turns |>.fixed "return " [] |>.nested (ih depth)
      |>.fixed ";\n" []
  | leave => exact (Scan.nests_indent depth).turns |>.fixed "return;\n" []
  | whileLoop ht hb iht ihb =>
    exact (Scan.nests_indent depth).turns |>.fixed "while (" [.round] |>.nested (iht depth)
      |>.fixed ") \x7b\n" [.curly] |>.nested (ihb (depth + 1))
      |>.nested (Scan.nests_indent depth) |>.fixed "\x7d\n" []
  | forLoop hn hx hb ihx ihb =>
    exact (Scan.nests_indent depth).turns |>.fixed "for (const " [.round]
      |>.nested (Scan.nests_name hn) |>.fixed " of " [.round] |>.nested (ihx depth)
      |>.fixed ") \x7b\n" [.curly] |>.nested (ihb (depth + 1))
      |>.nested (Scan.nests_indent depth) |>.fixed "\x7d\n" []
  | exprStatement hv ih =>
    exact (Scan.nests_indent depth).turns |>.nested (ih depth) |>.fixed ";\n" []
  | block hb ih =>
    exact (Scan.nests_indent depth).turns |>.fixed "\x7b\n" [.curly] |>.nested (ih (depth + 1))
      |>.nested (Scan.nests_indent depth) |>.fixed "\x7d\n" []
  | branch ht hy hn iht ihy ihn =>
    exact (Scan.nests_indent depth).turns |>.fixed "if (" [.round] |>.nested (iht depth)
      |>.fixed ") \x7b\n" [.curly] |>.nested (ihy (depth + 1))
      |>.nested (Scan.nests_indent depth) |>.fixed "\x7d" [] |>.nested (ihn depth)
  | noStatements => exact .nil
  | moreStatements hs hb ihs ihb => exact (ihs depth).append (ihb depth)
  | noElse => exact Turns.start "\n" []
  | elseBody hb ih =>
    exact Turns.start " else \x7b\n" [.curly] |>.nested (ih (depth + 1))
      |>.nested (Scan.nests_indent depth) |>.fixed "\x7d\n" []
  | elseIf ht hy hn iht ihy ihn =>
    exact Turns.start " else if (" [.round] |>.nested (iht depth)
      |>.fixed ") \x7b\n" [.curly] |>.nested (ihy (depth + 1))
      |>.nested (Scan.nests_indent depth) |>.fixed "\x7d" [] |>.nested (ihn depth)

/-- The module that the library is imported from is a string. -/
theorem nests_preamble : Nests preamble := fun _ => rfl

end Target

/-- Whatever strings a source text has in it, all string literals of its code are closed and all
brackets outside of them match. -/
theorem compiled_code_balanced {source : Bytes} {r : Compiled} (h : compile source = .ok r) :
    r.code.Balanced := by
  obtain ⟨hparse, hcode⟩ := compile_eq_ok.mp h
  obtain ⟨toks, htoks, hp⟩ := Program.parse_eq_ok.mp hparse
  obtain ⟨body, hbody, hcode⟩ := Program.code_eq_ok.mp hcode
  have hformed := Tokens.parse_formed hp (Cursor.tokens_wellSpelled htoks)
  have hnests := (hformed.becomes hbody).wellSpelled.nests 0
  rw [hcode]
  exact Target.nests_preamble.append hnests []

/-- Strings that end with a bracket, a quote or a backslash, in functions, choices and lists. -/
def Grammar.bracketedStrings : Bytes :=
  "fn f(x) \x7b if x then '(\\'[' else [\x7b \")\\\"\" \x7d]\n g(|y| \x7b '\\\\' \x7d)(x) \x7d"

theorem compiled_code_balanced_bracketedStrings :
    ∃ r, compile Grammar.bracketedStrings = .ok r ∧ r.code.Balanced := by
  obtain ⟨r, h⟩ := eq_ok_of_isSome (x := compile Grammar.bracketedStrings) (by decide +kernel)
  exact ⟨r, h, compiled_code_balanced h⟩

end PipeCompiler
