import PipeCompiler.Proofs.CodeReader
import PipeCompiler.Proofs.TokenForms

/-! Generated expressions have one reading.

The code of an expression without blocks is read back as its normal form, in which nothing is left
of the expression but what its code means. So two expressions of source texts have the same code
only if they have the same normal form: parentheses, commas and quotes fix the grouping of every
operator, call, function and choice. -/
namespace PipeCompiler

open Grammar
open Target (bindingName binaryOperator)
open CodeReader (IsReadAs IsSign sourceOperator wordMeaning)

/-- A name as the generated code has it. -/
def Name.emitted (n : Name) : Name :=
  .mk (.bare []) (bindingName n.text)

mutual

/-- An expression without its tokens, with names as the generated code has them, `undefined` for the
alternative that is missing, and replacement characters for stray bytes in strings. -/
def Expr.plain : Expr → Expr
  | .missing => .name (.mk (.bare []) "undefined")
  | .cond _ test yes no => .cond (.bare []) test.plain yes.plain no.plain
  | .block brace body => .block brace body
  | .binary _ left op right => .binary (.bare []) left.plain op right.plain
  | .unary _ op operand => .unary (.bare []) op operand.plain
  | .pipe _ left target => .pipe (.bare []) left.plain target.plain
  | .call _ callee args => .call (.bare []) callee.plain (Expr.plains args)
  | .lambda _ params body => .lambda (.bare []) (params.map Name.emitted) body.plain
  | .name n => .name n.emitted
  | .number _ value => .number (.bare []) value
  | .string _ value => .string (.bare []) value.mended
  | .bool _ value => .bool (.bare []) value
  | .null _ => .null (.bare [])
  | .array _ items => .array (.bare []) (Expr.plains items)

def Expr.plains : List Expr → List Expr
  | [] => []
  | e :: es => e.plain :: Expr.plains es

end

/-- What the code of an expression tells of it: pipes are calls, and the rest is `plain`. -/
def Expr.normal (e : Expr) : Expr :=
  e.writeOut.plain

private theorem Expr.plains_writeOutAll (es : List Expr) :
    Expr.plains (Expr.writeOutAll es) = es.map Expr.normal := by
  induction es with
  | nil => rfl
  | cons e es ih =>
    rw [writeOutAll, plains, List.map_cons, ih]
    rfl

/-- The code of an expression whose line is indented to `depth`. -/
def Expr.code (depth : Nat) (e : Expr) : Except LoweringError Bytes :=
  return (← e.lower .value).print depth

/-- The expression stands in the program of a source text. -/
def Expr.OccursIn (source : Bytes) (e : Expr) : Prop :=
  ∃ p, Program.parse source = .ok p ∧ Node.expr e ∈ p.outline.labels

/-- No block stands in the expression. -/
def Expr.BlockFree (e : Expr) : Prop :=
  ∀ brace body, Node.expr (.block brace body) ∉ Outline.labelsAll e.outline

/-- The name does not stand in the expression. -/
def Expr.Avoids (name : Bytes) (e : Expr) : Prop :=
  ∀ n, Node.expr (.name n) ∈ Outline.labelsAll e.outline → n.text ≠ name

private theorem wordMeaning_eq {w : Bytes}
    (h : w ∉ (["true", "false", "null", "Infinity"].map Bytes.ofString)) :
    wordMeaning w = .name (.mk (.bare []) w) := by
  simp only [List.map_cons, List.map_nil, List.mem_cons, List.not_mem_nil, or_false, not_or] at h
  simp [wordMeaning, h]

namespace Target

/-- The names that get an underscore. -/
def setApart : List Bytes :=
  Library.namespaceName :: reservedNames.map Bytes.ofString

theorem mem_setApart {name : Bytes} (h : isReserved name = true) : name ∈ setApart := by
  simpa [isReserved, setApart, or_comm] using h

private theorem isName_underscored {name : Bytes} (h : Lexeme.IsName name) :
    Lexeme.IsName (name ++ "_") := by
  obtain ⟨⟨b, hb, hletter⟩, hparts⟩ := h
  obtain ⟨s, rfl⟩ := List.head?_eq_some_iff.mp hb
  refine ⟨⟨b, rfl, hletter⟩, ?_⟩
  intro c hc
  rcases List.mem_append.mp hc with hc | hc
  · exact hparts c hc
  · cases List.mem_singleton.mp hc
    decide

theorem isName_bindingName {name : Bytes} (h : Lexeme.IsName name) :
    Lexeme.IsName (bindingName name) := by
  unfold bindingName
  split
  · exact isName_underscored h
  · exact h

theorem underscored_notMem {names : List Bytes}
    (h : ∀ w ∈ names, w.getLast? ≠ some '_'.toUInt8) (name : Bytes) : name ++ "_" ∉ names := by
  intro hmem
  have hlast : (name ++ Bytes.ofString "_").getLast? = some '_'.toUInt8 :=
    List.getLast?_concat
  exact h _ hmem hlast

theorem bindingName_library {name : Bytes} (h : Library.isName name = true) :
    bindingName name = name := by
  have hall : ∀ w ∈ Library.names, isReserved w = false := by decide
  rw [bindingName, hall name (by simpa [Library.isName] using h)]
  rfl

/-- The name of a binding is no literal. -/
theorem wordMeaning_bindingName {name : Bytes} (h : Token.Kind.ofName name = .ident)
    (hinf : name ≠ "Infinity") :
    wordMeaning (bindingName name) = .name (.mk (.bare []) (bindingName name)) := by
  have hwords : ∀ w ∈ (["true", "false", "null"].map Bytes.ofString),
      Token.Kind.ofName w ≠ .ident := by decide
  apply wordMeaning_eq
  unfold bindingName
  split
  · exact underscored_notMem (by decide) name
  · intro hmem
    have hcases : name ∈ (["true", "false", "null"].map Bytes.ofString) ∨ name = "Infinity" := by
      simpa [or_assoc] using hmem
    rcases hcases with hword | hword
    · exact hwords name hword h
    · exact hinf hword

end Target

set_option maxRecDepth 2000 in
/-- Operators keep apart in the generated code. -/
theorem sign_of_mem_operators {level : Level} {op : Token} (h : op.WellSpelled)
    (hk : op.kind ∈ level.operators) :
    IsSign (binaryOperator op.literal) ∧ binaryOperator op.literal ≠ "?" ∧
      sourceOperator (binaryOperator op.literal) = op.literal := by
  have hall : ∀ level : Level, ∀ kind ∈ level.operators, ∃ x ∈ Token.Kind.operators, x.2 = kind ∧
      IsSign (binaryOperator x.1) ∧ binaryOperator x.1 ≠ "?" ∧
        sourceOperator (binaryOperator x.1) = Bytes.ofString x.1 := by
    intro level
    cases level <;> decide
  obtain ⟨⟨text, kind⟩, hx, rfl, hsign⟩ := hall level _ hk
  rw [h.operator text hx]
  exact hsign

/-- A node that the reader knows: it is no block, and no name that reads as a number. -/
def Node.isPlain : Node → Bool
  | .expr (.block _ _) => false
  | .expr (.name n) => n.text != "Infinity"
  | _ => true

/-- The reader knows all nodes of some trees. -/
def PlainNodes (ts : List (Outline Node)) : Prop :=
  ∀ node ∈ Outline.labelsAll ts, node.isPlain = true

instance (ts : List (Outline Node)) : Decidable (PlainNodes ts) :=
  inferInstanceAs (Decidable (∀ node ∈ Outline.labelsAll ts, node.isPlain = true))

@[simp] theorem plainNodes_nil : PlainNodes [] := by
  simp [PlainNodes]

@[simp] theorem plainNodes_cons (label : Node) (children ts : List (Outline Node)) :
    PlainNodes (.node label children :: ts) ↔
      label.isPlain = true ∧ PlainNodes children ∧ PlainNodes ts := by
  simp only [PlainNodes, Outline.labelsAll_cons, List.forall_mem_cons, List.forall_mem_append]

@[simp] theorem plainNodes_append (ts us : List (Outline Node)) :
    PlainNodes (ts ++ us) ↔ PlainNodes ts ∧ PlainNodes us := by
  simp only [PlainNodes, Outline.labelsAll_append, List.forall_mem_append]

section

variable {n : Name} {tok op : Token} {depth : Nat}

set_option maxRecDepth 2000 in
/-- The words that generated code has for values, and the name of the library in it, are names. -/
private theorem isName_of_codeWord : ∀ w ∈ ([Library.namespaceName, "null", "undefined", "true",
    "false", "Infinity"] : List Bytes), Lexeme.IsName w := by
  decide

theorem isName_binding (h : FormedName Token.WellSpelled n) :
    Lexeme.IsName (bindingName n.text) := by
  rw [h.text]
  exact Target.isName_bindingName (h.tok.name h.kind).1

theorem isName_params {params : List Name} (h : ∀ n ∈ params, FormedName Token.WellSpelled n) :
    ∀ p ∈ Name.params params, Lexeme.IsName p :=
  List.forall_mem_map.mpr fun n hn => isName_binding (h n hn)

theorem isReadAs_name (hn : FormedName Token.WellSpelled n) (hinf : n.text ≠ "Infinity") :
    IsReadAs (Target.Expr.print depth (.name (bindingName n.text))) (Expr.name n).normal := by
  have hident := (hn.tok.name hn.kind).2
  rw [← hn.text] at hident
  have hread := IsReadAs.word (isName_binding hn)
  rwa [Target.wordMeaning_bindingName hident hinf] at hread

/-- A name that is called may be one of the library. -/
theorem isReadAs_callee (hn : FormedName Token.WellSpelled n) (hinf : n.text ≠ "Infinity") :
    IsReadAs (n.callee.print depth) (Expr.name n).normal := by
  unfold Name.callee
  split
  · rename_i hlibrary
    have hname := (hn.tok.name hn.kind).1
    rw [← hn.text] at hname
    have hread := IsReadAs.qualified (isName_of_codeWord Library.namespaceName (by simp)) hname
    show IsReadAs _ (.name (.mk (.bare []) (bindingName n.text)))
    rwa [Target.bindingName_library hlibrary]
  · exact isReadAs_name hn hinf

private theorem isReadAs_number {value : Double} (h : Lexeme.IsNumber tok.literal)
    (hv : Double.read? tok.literal = some value) :
    IsReadAs (Target.Expr.print depth (.number value)) (Expr.number tok value).normal := by
  obtain ⟨k, hk, hread⟩ := Double.read?_isNumber h
  rw [hread] at hv
  cases hv
  show IsReadAs (Target.numberLiteral (.ofOrdinal false k)) _
  rcases Nat.lt_or_eq_of_le hk with hk | rfl
  · exact IsReadAs.number hk
  · rw [Double.numberLiteral_infinity]
    exact IsReadAs.word (isName_of_codeWord "Infinity" (by simp))

private theorem isReadAs_bool (value : Bool) :
    IsReadAs (Target.Expr.print depth (.bool value)) (Expr.bool tok value).normal := by
  cases value
  · exact IsReadAs.word (isName_of_codeWord "false" (by simp))
  · exact IsReadAs.word (isName_of_codeWord "true" (by simp))

theorem sign_of_unary (h : op.WellSpelled) (hk : op.kind = .bang ∨ op.kind = .minus) :
    op.literal = "-" ∨ op.literal = "!" := by
  rcases hk with hk | hk
  · exact .inr (h.operator "!" (by rw [hk]; decide))
  · exact .inl (h.operator "-" (by rw [hk]; decide))

end

/-- The code of an expression is read as its normal form, and that of a list item by item. -/
def Placed.IsReadBack : Placed → Target.Part → Prop
  | .expr .value e, .expr code | .callee e, .expr code =>
      PlainNodes e.outline → ∀ depth, IsReadAs (code.print depth) e.normal
  | .exprs es, .exprs codes => PlainNodes (Expr.outlines es) →
      ∀ depth, List.Forall₂ IsReadAs (Target.Expr.prints depth codes) (es.map Expr.normal)
  | _, _ => True

theorem Placed.isReadBack_give {place : Place} {e : Expr} {code : Target.Expr}
    (h : PlainNodes e.outline → ∀ depth, IsReadAs (code.print depth) e.normal) :
    (Placed.expr place e).IsReadBack (place.part (place.give code)) := by
  cases place with
  | value => exact h
  | _ => trivial

theorem Becomes.isReadBack {placed : Placed} {part : Target.Part}
    (h : Becomes Token.WellSpelled placed part) : placed.IsReadBack part := by
  induction h with
  | declare | conciseFunction | blockFunction | assign | leave | ret | whileLoop | forLoop
  | exprStatement | noStatements | lastStatement | moreStatements => trivial
  | @ifThen place tok test yes t y ht hy iht ihy =>
    cases place with
    | value =>
      intro hplain depth
      simp only [Expr.outline, plainNodes_cons, plainNodes_append, plainNodes_nil,
        and_true] at hplain
      obtain ⟨-, htest, hyes⟩ := hplain
      exact (iht htest depth).choose (ihy hyes depth)
        (IsReadAs.word (isName_of_codeWord "undefined" (by simp)))
    | _ => trivial
  | @ifThenElse place tok test yes no t y n ht hy hn iht ihy ihn =>
    cases place with
    | value =>
      intro hplain depth
      simp only [Expr.outline, plainNodes_cons, plainNodes_append, plainNodes_nil,
        and_true] at hplain
      obtain ⟨-, ⟨htest, hyes⟩, hno⟩ := hplain
      exact (iht htest depth).choose (ihy hyes depth) (ihn hno depth)
    | _ => trivial
  | @block place brace body b hb ih =>
    cases place with
    | value =>
      intro hplain
      simp [Expr.outline, Node.isPlain] at hplain
    | _ => trivial
  | binary level ht hk hl hr ihl ihr =>
    refine Placed.isReadBack_give fun hplain depth => ?_
    simp only [Expr.outline, plainNodes_cons, plainNodes_append, plainNodes_nil, and_true] at hplain
    obtain ⟨-, hleft, hright⟩ := hplain
    obtain ⟨hsign, hne, hop⟩ := sign_of_mem_operators ht hk
    have hread := IsReadAs.binary hsign hne (ihl hleft depth) (ihr hright depth)
    rwa [hop] at hread
  | unary ht hk hx ih =>
    refine Placed.isReadBack_give fun hplain depth => ?_
    simp only [Expr.outline, plainNodes_cons, plainNodes_nil, and_true] at hplain
    exact (ih hplain.2 depth).unary (sign_of_unary ht hk)
  | pipeName hl hn ihl =>
    refine Placed.isReadBack_give fun hplain depth => ?_
    simp only [Expr.outline, plainNodes_cons, plainNodes_append, plainNodes_nil, and_true] at hplain
    obtain ⟨-, hleft, hname⟩ := hplain
    exact (isReadAs_callee hn (bne_iff_ne.mp hname)).call (.cons (ihl hleft depth) .nil)
  | pipeCall hl hc ha ihl ihc iha =>
    refine Placed.isReadBack_give fun hplain depth => ?_
    simp only [Expr.outline, plainNodes_cons, plainNodes_append, plainNodes_nil, and_true] at hplain
    obtain ⟨-, hleft, -, hcallee, hargs⟩ := hplain
    have hcall := (ihc hcallee depth).call (.cons (ihl hleft depth) (iha hargs depth))
    rw [← Expr.plains_writeOutAll] at hcall
    rwa [ha.pipedArgs_eq fun _ h => h.named]
  | call hc ha ihc iha =>
    refine Placed.isReadBack_give fun hplain depth => ?_
    simp only [Expr.outline, plainNodes_cons, plainNodes_append, plainNodes_nil, and_true] at hplain
    obtain ⟨-, hcallee, hargs⟩ := hplain
    have hcall := (ihc hcallee depth).call (iha hargs depth)
    rwa [← Expr.plains_writeOutAll] at hcall
  | closure hps hb ih =>
    refine Placed.isReadBack_give fun hplain => ?_
    simp [Expr.outline, Node.isPlain] at hplain
  | arrow hps hb ih =>
    refine Placed.isReadBack_give fun hplain depth => ?_
    simp only [Expr.outline, plainNodes_cons, plainNodes_append, plainNodes_nil, and_true] at hplain
    obtain ⟨-, -, hbody⟩ := hplain
    have harrow := IsReadAs.arrow (isName_params hps) (ih hbody depth)
    rwa [Name.params, List.map_map] at harrow
  | name hn =>
    refine Placed.isReadBack_give fun hplain depth => ?_
    simp only [Expr.outline, plainNodes_cons] at hplain
    exact isReadAs_name hn (bne_iff_ne.mp hplain.1)
  | number ht hk hv => exact Placed.isReadBack_give fun _ _ => isReadAs_number (ht.number hk) hv
  | string => exact Placed.isReadBack_give fun _ _ => IsReadAs.string _
  | bool => exact Placed.isReadBack_give fun _ _ => isReadAs_bool _
  | null =>
    exact Placed.isReadBack_give fun _ _ => IsReadAs.word (isName_of_codeWord "null" (by simp))
  | array hx ih =>
    refine Placed.isReadBack_give fun hplain depth => ?_
    simp only [Expr.outline, plainNodes_cons, plainNodes_nil, and_true] at hplain
    have harray := IsReadAs.array (ih hplain.2 depth)
    rwa [← Expr.plains_writeOutAll] at harray
  | calleeName hn =>
    intro hplain depth
    simp only [Expr.outline, plainNodes_cons] at hplain
    exact isReadAs_callee hn (bne_iff_ne.mp hplain.1)
  | callee hne he ih => exact ih
  | noExprs => exact fun _ _ => .nil
  | moreExprs he hes ihe ihes =>
    intro hplain depth
    rw [Expr.outlines, plainNodes_append] at hplain
    exact .cons (ihe hplain.1 depth) (ihes hplain.2 depth)

theorem Expr.plainNodes_iff {e : Expr} :
    PlainNodes e.outline ↔ e.BlockFree ∧ e.Avoids "Infinity" := by
  constructor
  · intro h
    constructor
    · intro brace body hmem
      cases h _ hmem
    · intro n hmem
      exact bne_iff_ne.mp (h _ hmem)
  · rintro ⟨hb, hi⟩ node hnode
    unfold Node.isPlain
    split
    · exact absurd hnode (hb _ _)
    · exact bne_iff_ne.mpr (hi _ hnode)
    · rfl

/-- An expression of a source text has code at every depth, which is read as its normal form. -/
theorem Expr.OccursIn.code_read {source : Bytes} {e : Expr} (h : e.OccursIn source)
    (hb : e.BlockFree) (hi : e.Avoids "Infinity") (depth : Nat) :
    ∃ text, e.code depth = .ok text ∧ readCode? text = some e.normal := by
  obtain ⟨p, hp, he⟩ := h
  obtain ⟨code, hcode, hbecomes⟩ := (Program.parse_wellSpelled hp he).lowers .value
  have hread := hbecomes.isReadBack (Expr.plainNodes_iff.mpr ⟨hb, hi⟩) depth
  refine ⟨Target.Expr.print depth code, ?_, hread.readCode?⟩
  rw [Expr.code, hcode]
  rfl

/-- Two expressions of source texts, without blocks and without the name `Infinity`, have the same
code only if they have the same normal form. -/
theorem code_determines_expression {source₁ source₂ : Bytes} {e₁ e₂ : Expr}
    (ho₁ : e₁.OccursIn source₁) (ho₂ : e₂.OccursIn source₂) (hb₁ : e₁.BlockFree)
    (hb₂ : e₂.BlockFree) (hi₁ : e₁.Avoids "Infinity") (hi₂ : e₂.Avoids "Infinity") (depth : Nat)
    (h : e₁.code depth = e₂.code depth) : e₁.normal = e₂.normal := by
  obtain ⟨text₁, hcode₁, hread₁⟩ := ho₁.code_read hb₁ hi₁ depth
  obtain ⟨text₂, hcode₂, hread₂⟩ := ho₂.code_read hb₂ hi₂ depth
  have htext : text₁ = text₂ := Except.ok.inj (hcode₁.symm.trans (h.trans hcode₂))
  rw [htext, hread₂] at hread₁
  exact (Option.some.inj hread₁).symm

namespace Expr

def ofNode? : Node → Option Expr
  | .expr e => some e
  | _ => none

/-- The first expression of a source text. -/
def first? (source : Bytes) : Option Expr := do
  (← (Program.parse source).toOption).outline.labels.findSome? ofNode?

private theorem occursIn_of_first? {source : Bytes} {e : Expr} (h : first? source = some e) :
    e.OccursIn source := by
  obtain ⟨p, hp, hfirst⟩ := Option.bind_eq_some_iff.mp h
  obtain ⟨node, hmem, hnode⟩ := List.exists_of_findSome?_eq_some hfirst
  cases node with
  | expr e =>
    cases hnode
    cases hparse : Program.parse source with
    | error error =>
      rw [hparse] at hp
      cases hp
    | ok q =>
      rw [hparse] at hp
      cases hp
      exact ⟨p, hparse, hmem⟩
  | _ => cases hnode

/-- A choice of two operations in a function that is piped, and a string with brackets in it. -/
def pipedChoice : Bytes :=
  "xs |> map(|x| if x == 1.50 then -x) |> f(\"a, (b\")"

/-- The same, written as calls. -/
def calledChoice : Bytes :=
  "f(map(xs, |x| if (x == 1.5) then (-x)), 'a, (b')"

end Expr

theorem code_determines_expression_pipedChoice :
    ∃ e₁ e₂ : Expr, e₁.OccursIn Expr.pipedChoice ∧ e₂.OccursIn Expr.calledChoice ∧
      e₁.code 0 = e₂.code 0 ∧ e₁.normal = e₂.normal := by
  have hcheck : ((Expr.first? Expr.pipedChoice).any fun e₁ =>
      (Expr.first? Expr.calledChoice).any fun e₂ => PlainNodes e₁.outline ∧ PlainNodes e₂.outline ∧
        (e₁.code 0).toOption = (e₂.code 0).toOption) = true := by
    decide +kernel
  cases hfirst₁ : Expr.first? Expr.pipedChoice with
  | none => simp [hfirst₁] at hcheck
  | some e₁ =>
    cases hfirst₂ : Expr.first? Expr.calledChoice with
    | none => simp [hfirst₁, hfirst₂] at hcheck
    | some e₂ =>
      simp only [hfirst₁, hfirst₂, Option.any_some, decide_eq_true_eq] at hcheck
      obtain ⟨hplain₁, hplain₂, htext⟩ := hcheck
      have ho₁ := Expr.occursIn_of_first? hfirst₁
      have ho₂ := Expr.occursIn_of_first? hfirst₂
      obtain ⟨hb₁, hi₁⟩ := Expr.plainNodes_iff.mp hplain₁
      obtain ⟨hb₂, hi₂⟩ := Expr.plainNodes_iff.mp hplain₂
      obtain ⟨text₁, hcode₁, -⟩ := ho₁.code_read hb₁ hi₁ 0
      obtain ⟨text₂, hcode₂, -⟩ := ho₂.code_read hb₂ hi₂ 0
      have hcode : e₁.code 0 = e₂.code 0 := by
        rw [hcode₁, hcode₂] at htext ⊢
        exact congrArg Except.ok (Option.some.inj htext)
      have hnormal := code_determines_expression ho₁ ho₂ hb₁ hb₂ hi₁ hi₂ 0 hcode
      exact ⟨e₁, e₂, ho₁, ho₂, hcode, hnormal⟩

end PipeCompiler
