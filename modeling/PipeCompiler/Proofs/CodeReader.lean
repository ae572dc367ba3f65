import Mathlib.Data.List.Forall2
import PipeCompiler.Proofs.NumberLiterals
import PipeCompiler.Proofs.PrintedExpressions
import PipeCompiler.Proofs.StringLiterals

/-! A reader of generated expressions.

`readCode?` reads the text of a generated expression back, as an expression of the language without
its tokens. The first byte tells which form the text has; after an opening parenthesis it is the
sign of a unary operation, the parameters of a function, or else the operator behind the first
operand. -/
namespace PipeCompiler

open Lexeme (isDigit isNamePart)

/-- A reader takes a value off the front of a text, if it finds one there. -/
abbrev CodeReader := StateT Bytes Option

namespace CodeReader

variable {α : Type}

/-- Takes a word off the text, which has to begin with it. -/
def exactly (word : Bytes) : CodeReader Unit := fun s =>
  (Bytes.after? word s).map fun rest => ((), rest)

/-- Takes a word off the text if it begins with it. -/
def accept (word : Bytes) : CodeReader Bool := fun s =>
  match Bytes.after? word s with
  | some rest => some (true, rest)
  | none => some (false, s)

/-- Takes the bytes off the text up to one for which the test fails. -/
def span (test : UInt8 → Bool) : CodeReader Bytes := fun s =>
  some (s.takeWhile test, s.dropWhile test)

/-- The items of a list up to its closing bracket, at most as many as the bound. -/
def items (item : CodeReader α) (closing : Bytes) : Nat → CodeReader (List α)
  | 0 => failure
  | bound + 1 => do
    if ← accept closing then return []
    else
      let x ← item
      if ← accept ", " then return x :: (← items item closing bound)
      else
        exactly closing
        return [x]

/-- The items of a list whose opening bracket has been read. -/
def list (item : CodeReader α) (closing : Bytes) : CodeReader (List α) := do
  items item closing ((← get).length + 1)

/-- What a word in the place of an expression means. -/
def wordMeaning (word : Bytes) : Expr :=
  if word = "true" then .bool (.bare []) true
  else if word = "false" then .bool (.bare []) false
  else if word = "null" then .null (.bare [])
  else if word = "Infinity" then .number (.bare []) (.ofOrdinal false Double.infinity)
  else .name (.mk (.bare []) word)

/-- A word, or the name of a library function behind that of the library. -/
def word : CodeReader Expr := do
  let first ← span isNamePart
  if ← accept "." then return .name (.mk (.bare []) (← span isNamePart))
  else return wordMeaning first

def number : CodeReader Expr := do
  let text ← modifyGet Lexeme.number
  return .number (.bare []) (← (Double.read? text : Option Double))

/-- The text goes on with the parameters of a function and its arrow. -/
def opensFunction (s : Bytes) : Bool :=
  match Bytes.after? "(" s with
  | some rest =>
    (Bytes.ofString ") => ").isPrefixOf
      (rest.dropWhile fun b => isNamePart b || b == ',' || b == ' ')
  | none => false

/-- The operator that is written like this in generated code. -/
def sourceOperator (op : Bytes) : Bytes :=
  if op = "===" then "==" else if op = "!==" then "!=" else op

/-- The rest of a unary operation, behind its sign. -/
def unary (inner : CodeReader Expr) (op : Bytes) : CodeReader Expr := do
  let operand ← inner
  exactly ")"
  return .unary (.bare []) op operand

/-- The rest of a function, behind the parenthesis around it. -/
def function (inner : CodeReader Expr) : CodeReader Expr := do
  exactly "("
  let params ← list (span isNamePart) ")"
  exactly " => "
  let body ← inner
  exactly ")"
  return .lambda (.bare []) (params.map fun text => .mk (.bare []) text) body

/-- The rest of a binary operation or a choice, behind its operator. -/
def operands (inner : CodeReader Expr) (left : Expr) (op : Bytes) : CodeReader Expr := do
  let right ← inner
  if op = "?" then
    exactly " : "
    let no ← inner
    exactly ")"
    return .cond (.bare []) left right no
  else
    exactly ")"
    return .binary (.bare []) left (sourceOperator op) right

/-- The rest of a binary operation or a choice, behind its parenthesis. -/
def operation (inner : CodeReader Expr) : CodeReader Expr := do
  let left ← inner
  exactly " "
  let op ← span (· != ' '.toUInt8)
  exactly " "
  operands inner left op

/-- The rest of an expression in parentheses. -/
def group (inner : CodeReader Expr) : CodeReader Expr := do
  if ← accept "-" then unary inner "-"
  else if ← accept "!" then unary inner "!"
  else if opensFunction (← get) then function inner
  else operation inner

/-- An expression that is no call. -/
def operand (inner : CodeReader Expr) : CodeReader Expr := do
  if ← accept "[" then return .array (.bare []) (← list inner "]")
  else if ← accept "\"" then return .string (.bare []) (← (Target.unquote? : CodeReader Bytes))
  else if ← accept "(" then group inner
  else if (← get).head?.any isDigit then number
  else word

/-- The calls of a function that has been read, at most as many as the bound. -/
def calls (inner : CodeReader Expr) : Nat → Expr → CodeReader Expr
  | 0, callee => return callee
  | bound + 1, callee => do
    if ← accept "(" then calls inner bound (.call (.bare []) callee (← list inner ")"))
    else return callee

/-- An expression that is nested less deeply than the bound. -/
def expr : Nat → CodeReader Expr
  | 0 => failure
  | bound + 1 => do
    let callee ← operand (expr bound)
    calls (expr bound) (← get).length callee

section Running

variable {β : Type} {s t : Bytes}

theorem bind_of {p : CodeReader α} {f : α → CodeReader β} {a : α} (h : p s = some (a, t)) :
    (p >>= f) s = f a t := by
  simp [bind, StateT.bind, h]

theorem after?_append (word rest : Bytes) : Bytes.after? word (word ++ rest) = some rest := by
  simp [Bytes.after?]

theorem exactly_append (word rest : Bytes) : exactly word (word ++ rest) = some ((), rest) := by
  simp [exactly, after?_append]

theorem accept_append (word rest : Bytes) : accept word (word ++ rest) = some (true, rest) := by
  simp [accept, after?_append]

theorem accept_of_head {word : Bytes} (hword : word ≠ []) (h : s.head? ≠ word.head?) :
    accept word s = some (false, s) := by
  have hno : word.isPrefixOf s = false := by
    rw [Bool.eq_false_iff]
    intro hprefix
    obtain ⟨rest, rfl⟩ := List.isPrefixOf_iff_prefix.mp hprefix
    obtain ⟨b, word, rfl⟩ := List.exists_cons_of_ne_nil hword
    exact h rfl
  simp [accept, Bytes.after?, hno]

theorem span_append {test : UInt8 → Bool} {text rest : Bytes} (htext : ∀ b ∈ text, test b = true)
    (hrest : ∀ b ∈ rest.head?, test b = false) : span test (text ++ rest) = some (text, rest) := by
  obtain ⟨htake, hdrop⟩ := takeWhile_append_of_head htext hrest
  rw [span, htake, hdrop]

end Running

/-- The text begins with a word, unless it begins with an opening bracket or a quote; only these or
a point stand behind the word. -/
structure Opens (text : Bytes) : Prop where
  ne_nil : text ≠ []
  split : ∃ word rest, text = word ++ rest ∧ (∀ b ∈ word, isNamePart b = true) ∧
    ∀ b ∈ rest.head?, b ∈ (['.', '(', '[', '"'] : Bytes)

/-- The operator of generated code, or the question mark of a choice: it neither begins with a part
of a parameter list nor contains a blank. -/
def IsSign (op : Bytes) : Prop :=
  (∃ b ∈ op.head?, isNamePart b = false ∧ b ∉ ([',', ' ', ')'] : Bytes)) ∧ ∀ b ∈ op, b ≠ ' '

instance (op : Bytes) : Decidable (IsSign op) :=
  inferInstanceAs (Decidable (_ ∧ _))

namespace Opens

variable {text : Bytes}

theorem of_word (hne : text ≠ []) (h : ∀ b ∈ text, isNamePart b = true) : Opens text :=
  ⟨hne, text, [], by simp, h, by simp⟩

theorem of_bracket {b : UInt8} (h : b ∈ (['.', '(', '[', '"'] : Bytes)) : Opens (b :: text) := by
  refine ⟨by simp, [], b :: text, rfl, by simp, ?_⟩
  intro c hc
  cases hc
  exact h

theorem append {b : UInt8} {s : Bytes} (h : Opens text)
    (hb : b ∈ (['.', '(', '[', '"'] : Bytes)) : Opens (text ++ b :: s) := by
  obtain ⟨hne, word, rest, rfl, hword, hrest⟩ := h
  refine ⟨by simp, word, rest ++ b :: s, by simp, hword, ?_⟩
  cases rest with
  | nil =>
    intro c hc
    cases hc
    exact hb
  | cons c rest => exact hrest

set_option maxRecDepth 2000 in
/-- Nothing begins with an operator or a closing bracket. -/
theorem accept_eq {c : UInt8} (h : Opens text) (hc : c ∈ (['-', '!', ')', ']'] : Bytes))
    (s : Bytes) : accept [c] (text ++ s) = some (false, text ++ s) := by
  have hother : ∀ c ∈ (['-', '!', ')', ']'] : Bytes),
      isNamePart c = false ∧ c ∉ (['.', '(', '[', '"'] : Bytes) := by decide
  obtain ⟨hname, hbracket⟩ := hother c hc
  obtain ⟨hne, word, rest, rfl, hword, hrest⟩ := h
  apply accept_of_head (by simp)
  cases word with
  | nil =>
    obtain ⟨b, rest, rfl⟩ := List.exists_cons_of_ne_nil hne
    rintro ⟨⟩
    exact hbracket (hrest c rfl)
  | cons b word =>
    rintro ⟨⟩
    exact absurd (hword c List.mem_cons_self) (by simp [hname])

set_option maxRecDepth 2000 in
/-- In parentheses and before an operator, an operand is no parameter list. -/
theorem opensFunction_eq {op : Bytes} (h : Opens text) (hop : IsSign op) (s : Bytes) :
    opensFunction ("(" ++ (text ++ (" " ++ (op ++ s)))) = false := by
  -- The parameters would end where the word does, or else at the operator.
  have hstop : ∀ b ∈ (['.', '(', '[', '"'] : Bytes),
      isNamePart b = false ∧ b ∉ ([',', ' ', ')'] : Bytes) := by decide
  have hend : ∀ {b : UInt8} {t : Bytes}, isNamePart b = false ∧ b ∉ ([',', ' ', ')'] : Bytes) →
      (Bytes.ofString ") => ").isPrefixOf
        ((b :: t).dropWhile fun b => isNamePart b || b == ',' || b == ' ') = false := by
    intro b t ⟨hname, hb⟩
    simp only [List.mem_cons, List.not_mem_nil, or_false, not_or] at hb
    rw [List.dropWhile_cons_of_neg (by simp [hname, hb])]
    rw [Bool.eq_false_iff]
    intro hprefix
    exact hb.2.2 (List.cons_prefix_cons.mp (List.isPrefixOf_iff_prefix.mp hprefix)).1.symm
  obtain ⟨-, word, rest, rfl, hword, hrest⟩ := h
  rw [opensFunction, after?_append, List.append_assoc]
  show List.isPrefixOf _ (List.dropWhile _ _) = _
  rw [List.dropWhile_append_of_pos fun b hb => by simp [hword b hb]]
  cases rest with
  | nil =>
    obtain ⟨⟨b, hb, hop⟩, -⟩ := hop
    cases op with
    | nil => cases hb
    | cons c op =>
      cases hb
      show List.isPrefixOf _ (List.dropWhile _ (' '.toUInt8 :: _)) = _
      rw [List.dropWhile_cons_of_pos (by decide)]
      exact hend hop
  | cons b rest => exact hend (hstop b (hrest b rfl))

end Opens

/-- Such a text may follow an expression: it goes on with what is around it. -/
def Closes (rest : Bytes) : Prop :=
  ∀ b ∈ rest.head?, b ∈ ([' ', ',', ')', ']'] : Bytes)

/-- The reader takes the text for a value. -/
def Reads (p : CodeReader α) (text : Bytes) (a : α) : Prop :=
  ∀ rest, Closes rest → p (text ++ rest) = some (a, rest)

theorem closes_cons {b : UInt8} {s : Bytes} (h : b ∈ ([' ', ',', ')', ']'] : Bytes)) :
    Closes (b :: s) := by
  intro c hc
  cases hc
  exact h

set_option maxRecDepth 2000 in
theorem Closes.name {rest : Bytes} (h : Closes rest) : ∀ b ∈ rest.head?, isNamePart b = false := by
  have hno : ∀ b ∈ ([' ', ',', ')', ']'] : Bytes), isNamePart b = false := by decide
  exact fun b hb => hno b (h b hb)

private theorem items_append {item : CodeReader α} {c : UInt8} (hc : c ∈ ([')', ']'] : Bytes))
    {texts : List Bytes} {as : List α}
    (h : List.Forall₂ (fun text a => Opens text ∧ Reads item text a) texts as) (rest : Bytes)
    {bound : Nat} (hbound : (Target.commaList texts ++ c :: rest).length < bound) :
    items item [c] bound (Target.commaList texts ++ c :: rest) = some (as, rest) := by
  have hcloses : Closes (c :: rest) := closes_cons (by grind)
  have hskip : ∀ {text : Bytes} (s : Bytes), Opens text →
      accept [c] (text ++ s) = some (false, text ++ s) := by
    intro text s hopens
    exact hopens.accept_eq (by grind) s
  induction h generalizing bound with
  | nil =>
    obtain ⟨bound, rfl⟩ := Nat.exists_eq_succ_of_ne_zero (Nat.ne_zero_of_lt hbound)
    rw [items]
    exact bind_of (accept_append [c] rest)
  | @cons text a texts as ha hrest ih =>
    obtain ⟨bound, rfl⟩ := Nat.exists_eq_succ_of_ne_zero (Nat.ne_zero_of_lt hbound)
    rw [items]
    cases hrest with
    | nil =>
      have hcomma : accept ", " (c :: rest) = some (false, c :: rest) := by
        apply accept_of_head (by decide)
        rintro ⟨⟩
        revert hc
        decide
      rw [Target.commaList, List.intercalate_singleton, bind_of (hskip _ ha.1)]
      show (item >>= _) _ = _
      rw [bind_of (ha.2 _ hcloses), bind_of hcomma]
      exact bind_of (exactly_append [c] rest)
    | @cons next b texts as hb hrest =>
      have hsplit : Target.commaList (text :: next :: texts) ++ c :: rest =
          text ++ (", " ++ (Target.commaList (next :: texts) ++ c :: rest)) := by
        simp [Target.commaList]
      have hspace : Closes (", " ++ (Target.commaList (next :: texts) ++ c :: rest)) :=
        closes_cons (b := ',') (by decide)
      rw [hsplit] at hbound ⊢
      have hlength : (Target.commaList (next :: texts) ++ c :: rest).length < bound := by
        have htext := List.length_pos_iff.mpr ha.1.ne_nil
        simp only [List.length_append] at hbound ⊢
        omega
      rw [bind_of (hskip _ ha.1)]
      show (item >>= _) _ = _
      rw [bind_of (ha.2 _ hspace), bind_of (accept_append _ _)]
      exact bind_of (ih hlength)

theorem list_append {item : CodeReader α} {c : UInt8} (hc : c ∈ ([')', ']'] : Bytes))
    {texts : List Bytes} {as : List α}
    (h : List.Forall₂ (fun text a => Opens text ∧ Reads item text a) texts as) (rest : Bytes) :
    list item [c] (Target.commaList texts ++ c :: rest) = some (as, rest) :=
  items_append hc h rest (Nat.lt_succ_self _)

/-- The text is read as the expression, wherever it may stand: alone, as the function of a call, or
as an operand, where it is not taken for the parameters of a function. -/
structure IsReadAs (text : Bytes) (e : Expr) : Prop where
  opens : Opens text
  operand : ∀ rest, opensFunction (text ++ rest) = false
  reads : ∀ bound rest, text.length ≤ bound → Bytes.Delimits rest →
    ∃ more, rest.length ≤ more ∧ expr (bound + 1) (text ++ rest) = calls (expr bound) more e rest

namespace IsReadAs

variable {text : Bytes} {texts : List Bytes} {e : Expr} {es : List Expr}

theorem of_operand (hopens : Opens text) (hfun : ∀ rest, opensFunction (text ++ rest) = false)
    (h : ∀ bound rest, text.length ≤ bound → Bytes.Delimits rest →
      CodeReader.operand (CodeReader.expr bound) (text ++ rest) = some (e, rest)) :
    IsReadAs text e := by
  refine ⟨hopens, hfun, fun bound rest hbound hrest => ⟨rest.length, Nat.le_refl _, ?_⟩⟩
  rw [CodeReader.expr, bind_of (h bound rest hbound hrest)]
  rfl

theorem reads_of_lt (h : IsReadAs text e) {bound : Nat} (hbound : text.length < bound) :
    Reads (expr bound) text e := by
  intro rest hrest
  obtain ⟨bound, rfl⟩ := Nat.exists_eq_succ_of_ne_zero (Nat.ne_zero_of_lt hbound)
  have hdelim : Bytes.Delimits rest := by
    intro b hb
    have := hrest b hb
    grind
  obtain ⟨more, -, hcalls⟩ := h.reads bound rest (by omega) hdelim
  rw [hcalls]
  cases more with
  | zero => rfl
  | succ more =>
    have hparen : accept "(" rest = some (false, rest) := by
      apply accept_of_head (by decide)
      intro hhead
      have hno := hrest '('.toUInt8 hhead
      revert hno
      decide
    rw [calls, bind_of hparen]
    rfl

theorem operand_bracket (inner : CodeReader Expr) (s : Bytes) :
    CodeReader.operand inner ("[" ++ s) =
      (do return .array (.bare []) (← list inner "]") : CodeReader Expr) s := rfl

theorem operand_quote (inner : CodeReader Expr) (s : Bytes) :
    CodeReader.operand inner ("\"" ++ s) =
      (do return .string (.bare []) (← (Target.unquote? : CodeReader Bytes)) : CodeReader Expr) s :=
  rfl

theorem opensFunction_of_head {s : Bytes} (h : s.head? ≠ some '('.toUInt8) :
    opensFunction s = false := by
  have hno : Bytes.after? "(" s = none := by
    rw [Bytes.after?, if_neg]
    intro hprefix
    obtain ⟨rest, rfl⟩ := List.isPrefixOf_iff_prefix.mp hprefix
    exact h rfl
  rw [opensFunction, hno]

set_option maxRecDepth 2000 in
theorem operand_word {b : UInt8} (h : isNamePart b = true) (inner : CodeReader Expr) (s : Bytes) :
    CodeReader.operand inner (b :: s) = (if isDigit b then number else word) (b :: s) := by
  have hother : ∀ c ∈ (['[', '"', '('] : Bytes), isNamePart c = false := by decide
  have hb : ∀ c ∈ (['[', '"', '('] : Bytes), accept [c] (b :: s) = some (false, b :: s) := by
    intro c hc
    apply accept_of_head (by simp)
    rintro ⟨⟩
    simp [hother b hc] at h
  refine (bind_of (hb '[' (by decide))).trans ?_
  refine (bind_of (hb '"' (by decide))).trans ?_
  refine (bind_of (hb '(' (by decide))).trans ?_
  rfl

/-- Words and numbers begin with a part of a name. -/
theorem of_word {b : UInt8} {w : Bytes} (hb : isNamePart b = true) (hopens : Opens (b :: w))
    (h : ∀ rest, Bytes.Delimits rest →
      (if isDigit b then CodeReader.number else CodeReader.word) (b :: w ++ rest) =
        some (e, rest)) : IsReadAs (b :: w) e := by
  apply of_operand hopens
  · intro rest
    apply opensFunction_of_head
    rintro ⟨⟩
    revert hb
    decide
  · intro bound rest _ hrest
    rw [List.cons_append, operand_word hb]
    exact h rest hrest

/-- Names begin with a letter. -/
theorem of_name {w s : Bytes} (hw : Lexeme.IsName w) (hopens : Opens (w ++ s))
    (h : ∀ rest, Bytes.Delimits rest → CodeReader.word (w ++ (s ++ rest)) = some (e, rest)) :
    IsReadAs (w ++ s) e := by
  obtain ⟨b, t, rfl, hb⟩ := hw.eq_cons
  have hdigit : isDigit b = false := by
    rw [Bool.eq_false_iff]
    intro hdigit
    simp [Lexeme.isLetter_of_isDigit hdigit] at hb
  apply of_word (hw.isNamePart b List.mem_cons_self) hopens
  intro rest hrest
  have hread := h rest hrest
  rw [← List.append_assoc] at hread
  rwa [if_neg (by simp [hdigit])]

theorem word {w : Bytes} (h : Lexeme.IsName w) : IsReadAs w (wordMeaning w) := by
  have hopens : Opens w := .of_word h.ne_nil h.isNamePart
  rw [← List.append_nil w] at hopens
  have hread := of_name h (e := wordMeaning w) hopens fun rest hrest => by
    have hpoint : accept "." rest = some (false, rest) := by
      apply accept_of_head (by decide)
      intro hhead
      exact absurd (hrest '.'.toUInt8 hhead) (by decide)
    rw [List.nil_append, CodeReader.word, bind_of (span_append h.isNamePart hrest.name),
      bind_of hpoint]
    rfl
  rwa [List.append_nil] at hread

/-- A name behind another one and a point. -/
theorem qualified {w name : Bytes} (hw : Lexeme.IsName w) (h : Lexeme.IsName name) :
    IsReadAs (w ++ "." ++ name) (.name (.mk (.bare []) name)) := by
  have hopens : Opens (w ++ ("." ++ name)) :=
    (Opens.of_word hw.ne_nil hw.isNamePart).append (b := '.') (by decide)
  rw [List.append_assoc]
  apply of_name hw hopens
  intro rest hrest
  have hpoint : ∀ b ∈ (Bytes.ofString "." ++ (name ++ rest)).head?, isNamePart b = false := by
    rintro b ⟨⟩
    decide
  rw [List.append_assoc, CodeReader.word, bind_of (span_append hw.isNamePart hpoint),
    bind_of (accept_append _ _)]
  exact bind_of (span_append h.isNamePart hrest.name)

theorem opens_number {w : Bytes} (h : Lexeme.IsNumber w) : Opens w := by
  have hdigits : ∀ {ds : Bytes}, ds ≠ [] → (∀ b ∈ ds, isDigit b = true) → Opens ds := by
    intro ds hne hds
    exact .of_word hne fun b hb => by simp [isNamePart, hds b hb]
  cases h with
  | whole hne hds => exact hdigits hne hds
  | fraction hne hds hfne hfs => exact (hdigits hne hds).append (by decide)

set_option maxRecDepth 2000 in
theorem number {k : Nat} (hk : k < Double.infinity) :
    IsReadAs (Target.numberLiteral (.ofOrdinal false k))
      (.number (.bare []) (.ofOrdinal false k)) := by
  obtain ⟨hnumber, hread⟩ := Double.read?_numberLiteral hk
  generalize Target.numberLiteral (.ofOrdinal false k) = text at hnumber hread
  obtain ⟨b, w, rfl, hb⟩ := hnumber.eq_cons
  apply of_word (by simp [isNamePart, hb]) (opens_number hnumber)
  intro rest hrest
  have hend : ∀ b ∈ rest.head?, isDigit b = false ∧ b ≠ '.' := hrest.head (by decide)
  have hcut := Lexeme.number_of_isNumber hnumber hend
  have hlift : (liftM (Double.read? (b :: w)) : CodeReader Double) rest =
      some (.ofOrdinal false k, rest) := by
    rw [hread]
    rfl
  rw [if_pos hb]
  refine (bind_of (congrArg some hcut)).trans ?_
  exact bind_of hlift

theorem string (s : Bytes) :
    IsReadAs (Target.stringLiteral s) (.string (.bare []) s.mended) := by
  have hopens : Opens (Target.stringLiteral s) := .of_bracket (b := '"') (by decide)
  apply of_operand hopens
  · intro rest
    rfl
  · intro bound rest _ _
    rw [Target.stringLiteral, List.append_assoc, List.append_assoc, operand_quote]
    exact bind_of (Target.unquote?_stringLiteral s rest)

theorem length_commaList (text : Bytes) (texts : List Bytes) :
    text.length + (Target.commaList texts).length ≤ (Target.commaList (text :: texts)).length := by
  cases texts with
  | nil => simp [Target.commaList]
  | cons next texts =>
    simp only [Target.commaList, List.intercalate_cons_cons, List.length_append]
    omega

theorem reads_all (h : List.Forall₂ IsReadAs texts es) {bound : Nat}
    (hbound : (Target.commaList texts).length < bound) :
    List.Forall₂ (fun text e => Opens text ∧ Reads (expr bound) text e) texts es := by
  induction h with
  | nil => exact .nil
  | @cons text e texts es he hes ih =>
    have hlength := length_commaList text texts
    exact .cons ⟨he.opens, he.reads_of_lt (by omega)⟩ (ih (by omega))

theorem array (h : List.Forall₂ IsReadAs texts es) :
    IsReadAs ("[" ++ Target.commaList texts ++ "]") (.array (.bare []) es) := by
  have hopens : Opens ("[" ++ Target.commaList texts ++ "]") := .of_bracket (b := '[') (by decide)
  apply of_operand hopens
  · intro rest
    rfl
  · intro bound rest hbound _
    have hone : (Bytes.ofString "[").length = 1 := rfl
    simp only [List.length_append] at hbound
    have hitems : List.Forall₂ _ texts es := reads_all h (show _ < bound by omega)
    rw [List.append_assoc, List.append_assoc, operand_bracket]
    exact bind_of (list_append (c := ']') (by decide) hitems rest)

theorem call (h : IsReadAs text e) (hs : List.Forall₂ IsReadAs texts es) :
    IsReadAs (text ++ "(" ++ Target.commaList texts ++ ")") (.call (.bare []) e es) := by
  have hsplit : ∀ rest, text ++ "(" ++ Target.commaList texts ++ ")" ++ rest =
      text ++ ("(" ++ (Target.commaList texts ++ (")" ++ rest))) := by
    intro rest
    simp only [List.append_assoc]
  refine ⟨?_, ?_, ?_⟩
  · rw [List.append_assoc, List.append_assoc]
    exact h.opens.append (b := '(') (by decide)
  · intro rest
    rw [hsplit]
    exact h.operand _
  · intro bound rest hbound hrest
    rw [hsplit]
    have hone : (Bytes.ofString "(").length = 1 := rfl
    simp only [List.length_append] at hbound
    have hargs : List.Forall₂ _ texts es := reads_all hs (show _ < bound by omega)
    obtain ⟨more, hmore, hcalls⟩ := h.reads bound
      ("(" ++ (Target.commaList texts ++ (")" ++ rest))) (by omega)
      (Bytes.delimits_cons (b := '(') (by decide))
    simp only [List.length_append] at hmore
    obtain ⟨more, rfl⟩ := Nat.exists_eq_succ_of_ne_zero (show more ≠ 0 by omega)
    refine ⟨more, by omega, ?_⟩
    rw [hcalls, calls, bind_of (accept_append _ _)]
    exact bind_of (list_append (c := ')') (by decide) hargs rest)

theorem of_group {s : Bytes} (hfun : ∀ rest, opensFunction ("(" ++ (s ++ rest)) = false)
    (h : ∀ bound rest, s.length < bound → group (expr bound) (s ++ rest) = some (e, rest)) :
    IsReadAs ("(" ++ s) e := by
  have hopens : Opens ("(" ++ s) := .of_bracket (b := '(') (by decide)
  apply of_operand hopens
  · intro rest
    rw [List.append_assoc]
    exact hfun rest
  · intro bound rest hbound _
    rw [List.append_assoc]
    exact h bound rest hbound

theorem unary {op : Bytes} (hop : op = "-" ∨ op = "!") (h : IsReadAs text e) :
    IsReadAs ("(" ++ op ++ text ++ ")") (.unary (.bare []) op e) := by
  have hread : ∀ bound rest, text.length < bound →
      CodeReader.unary (expr bound) op (text ++ (")" ++ rest)) =
        some (.unary (.bare []) op e, rest) := by
    intro bound rest hbound
    have hclose : Closes (")" ++ rest) := closes_cons (b := ')') (by decide)
    rw [CodeReader.unary, bind_of (h.reads_of_lt hbound _ hclose)]
    exact bind_of (exactly_append _ _)
  rw [List.append_assoc, List.append_assoc]
  apply of_group
  · intro rest
    rcases hop with rfl | rfl <;> rfl
  · intro bound rest hbound
    simp only [List.length_append] at hbound
    rw [List.append_assoc, List.append_assoc]
    rcases hop with rfl | rfl <;> exact hread bound rest (by omega)

theorem mem_commaList {p : UInt8 → Prop} (hcomma : p ',') (hblank : p ' ')
    (h : ∀ text ∈ texts, ∀ b ∈ text, p b) : ∀ b ∈ Target.commaList texts, p b := by
  induction texts with
  | nil => simp [Target.commaList]
  | cons text texts ih =>
    rw [List.forall_mem_cons] at h
    cases texts with
    | nil => simpa [Target.commaList] using h.1
    | cons next texts =>
      have hsplit : Target.commaList (text :: next :: texts) =
          text ++ (','.toUInt8 :: ' '.toUInt8 :: Target.commaList (next :: texts)) := by
        rw [Target.commaList, List.intercalate_cons_cons, List.append_assoc]
        rfl
      rw [hsplit, List.forall_mem_append, List.forall_mem_cons, List.forall_mem_cons]
      exact ⟨h.1, hcomma, hblank, ih h.2⟩

theorem opensFunction_params {params : List Bytes} (hps : ∀ w ∈ params, Lexeme.IsName w)
    (s : Bytes) :
    opensFunction ("(" ++ (Target.commaList params ++ (") => " ++ s))) = true := by
  have hparts : ∀ b ∈ Target.commaList params,
      (isNamePart b || b == ','.toUInt8 || b == ' '.toUInt8) = true := by
    refine mem_commaList (by decide) (by decide) fun w hw b hb => ?_
    simp [(hps w hw).isNamePart b hb]
  rw [opensFunction, after?_append]
  show List.isPrefixOf _ (List.dropWhile _ _) = _
  rw [List.dropWhile_append_of_pos hparts]
  show List.isPrefixOf _ (List.dropWhile _ (')'.toUInt8 :: (" => " ++ s))) = _
  rw [List.dropWhile_cons_of_neg (by decide)]
  exact List.isPrefixOf_iff_prefix.mpr (List.prefix_append _ s)

theorem arrow {params : List Bytes} (hps : ∀ w ∈ params, Lexeme.IsName w) (h : IsReadAs text e) :
    IsReadAs ("((" ++ Target.commaList params ++ ") => " ++ text ++ ")")
      (.lambda (.bare []) (params.map fun w => .mk (.bare []) w) e) := by
  have hnames : List.Forall₂ (fun w a => Opens w ∧ Reads (span isNamePart) w a) params params := by
    rw [List.forall₂_same]
    intro w hw
    refine ⟨.of_word (hps w hw).ne_nil (hps w hw).isNamePart, fun rest hrest => ?_⟩
    exact span_append (hps w hw).isNamePart hrest.name
  have hsplit : Bytes.ofString "((" = Bytes.ofString "(" ++ Bytes.ofString "(" := rfl
  simp only [hsplit, List.append_assoc]
  apply of_group
  · intro rest
    rfl
  · intro bound rest hbound
    simp only [List.length_append] at hbound
    have hclose : Closes (")" ++ rest) := closes_cons (b := ')') (by decide)
    simp only [List.append_assoc]
    show (if opensFunction _ = true then CodeReader.function (expr bound)
      else operation (expr bound)) _ = _
    rw [if_pos (opensFunction_params hps _), CodeReader.function, bind_of (exactly_append _ _)]
    have hparams := list_append (c := ')') (by decide) hnames (" => " ++ (text ++ (")" ++ rest)))
    refine (bind_of hparams).trans ?_
    rw [bind_of (exactly_append _ _), bind_of (h.reads_of_lt (by omega) _ hclose)]
    exact bind_of (exactly_append _ _)

theorem of_operation {op s : Bytes} {left : Expr} (hleft : IsReadAs text left) (hop : IsSign op)
    (h : ∀ bound rest, s.length < bound →
      operands (expr bound) left op (s ++ rest) = some (e, rest)) :
    IsReadAs ("(" ++ (text ++ (" " ++ (op ++ (" " ++ s))))) e := by
  have hspan : ∀ rest, span (· != ' '.toUInt8) (op ++ (" " ++ rest)) = some (op, " " ++ rest) := by
    intro rest
    apply span_append
    · intro b hb
      simpa using hop.2 b hb
    · rintro b ⟨⟩
      rfl
  apply of_group
  · intro rest
    simp only [List.append_assoc]
    exact hleft.opens.opensFunction_eq hop _
  · intro bound rest hbound
    simp only [List.length_append] at hbound
    simp only [List.append_assoc]
    have hclose : Closes (" " ++ (op ++ (" " ++ (s ++ rest)))) :=
      closes_cons (b := ' ') (by decide)
    refine (bind_of (hleft.opens.accept_eq (c := '-') (by decide) _)).trans ?_
    refine (bind_of (hleft.opens.accept_eq (c := '!') (by decide) _)).trans ?_
    show (if opensFunction _ = true then CodeReader.function (expr bound)
      else operation (expr bound)) _ = _
    rw [if_neg (by simp [hleft.operand]), operation,
      bind_of (hleft.reads_of_lt (by omega) _ hclose), bind_of (exactly_append _ _),
      bind_of (hspan _), bind_of (exactly_append _ _)]
    exact h bound rest (by omega)

theorem binary {op textRight : Bytes} {right : Expr} (hop : IsSign op) (hne : op ≠ "?")
    (hl : IsReadAs text e) (hr : IsReadAs textRight right) :
    IsReadAs ("(" ++ text ++ " " ++ op ++ " " ++ textRight ++ ")")
      (.binary (.bare []) e (sourceOperator op) right) := by
  simp only [List.append_assoc]
  apply of_operation hl hop
  intro bound rest hbound
  simp only [List.length_append] at hbound
  have hclose : Closes (")" ++ rest) := closes_cons (b := ')') (by decide)
  rw [List.append_assoc, operands, bind_of (hr.reads_of_lt (by omega) _ hclose), if_neg hne]
  exact bind_of (exactly_append _ _)

set_option maxRecDepth 2000 in
theorem choose {textYes textNo : Bytes} {yes no : Expr} (ht : IsReadAs text e)
    (hy : IsReadAs textYes yes) (hn : IsReadAs textNo no) :
    IsReadAs ("(" ++ text ++ " ? " ++ textYes ++ " : " ++ textNo ++ ")")
      (.cond (.bare []) e yes no) := by
  have hsplit : Bytes.ofString " ? " = " " ++ (Bytes.ofString "?" ++ " ") := rfl
  simp only [hsplit, List.append_assoc]
  apply of_operation ht (by decide)
  intro bound rest hbound
  simp only [List.length_append] at hbound
  have hcolon : Closes (" : " ++ (textNo ++ (")" ++ rest))) := closes_cons (b := ' ') (by decide)
  have hclose : Closes (")" ++ rest) := closes_cons (b := ')') (by decide)
  simp only [List.append_assoc]
  rw [operands, bind_of (hy.reads_of_lt (by omega) _ hcolon), if_pos rfl,
    bind_of (exactly_append _ _), bind_of (hn.reads_of_lt (by omega) _ hclose)]
  exact bind_of (exactly_append _ _)

end IsReadAs

end CodeReader

/-- The expression that a text is the code of. -/
def readCode? (s : Bytes) : Option Expr :=
  match CodeReader.expr (s.length + 1) s with
  | some (e, []) => some e
  | _ => none

theorem CodeReader.IsReadAs.readCode? {text : Bytes} {e : Expr} (h : IsReadAs text e) :
    readCode? text = some e := by
  have hread := h.reads_of_lt (Nat.lt_succ_self _) [] (by simp [Closes])
  rw [List.append_nil] at hread
  rw [PipeCompiler.readCode?, hread]

end PipeCompiler
