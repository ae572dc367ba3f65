import PipeCompiler.Proofs.UniqueReadability

/-! What becomes of identifiers.

The identifiers of a program and the names in its code correspond one to one: each is renamed by
`bindingName`, or it means a library function where it is called. Renaming only adds an underscore
to some names, so it can go wrong in two ways: on a name that a program already has, and on a name
that is not set apart although the code relies on it. -/
namespace PipeCompiler

open Grammar
open Target (bindingName isReserved)

namespace Target

/-- A name in generated code that stands for an identifier. -/
inductive Reference
  /-- A binding of the module. -/
  | binding (text : Bytes)
  /-- A function of the library. -/
  | library (text : Bytes)
deriving DecidableEq, Repr

mutual

/-- The names in an expression, in the order of their text. -/
@[simp] def Expr.references : Expr → List Reference
  | .name text => [.binding text]
  | .library text => [.library text]
  | .number _ | .string _ | .bool _ | .null | .undefined => []
  | .array items => Expr.referencesAll items
  | .binary left _ right => left.references ++ right.references
  | .unary _ operand => operand.references
  | .call callee args => callee.references ++ Expr.referencesAll args
  | .arrow params body => params.map .binding ++ body.references
  | .closure params body => params.map .binding ++ Stmt.referencesAll body
  | .choose test yes no => test.references ++ yes.references ++ no.references

/-- The names in a statement, in the order of their text. -/
@[simp] def Stmt.references : Stmt → List Reference
  | .declare _ name value | .assign name value => .binding name :: value.references
  | .function name params body => .binding name :: params.map .binding ++ Stmt.referencesAll body
  | .ret value | .expr value => value.references
  | .leave => []
  | .whileLoop test body => test.references ++ Stmt.referencesAll body
  | .forLoop item items body => .binding item :: items.references ++ Stmt.referencesAll body
  | .block body => Stmt.referencesAll body
  | .branch test yes no => test.references ++ Stmt.referencesAll yes ++ no.references

/-- The names in what follows a branch. -/
@[simp] def Else.references : Else → List Reference
  | .none => []
  | .body body => Stmt.referencesAll body
  | .elseIf test yes no => test.references ++ Stmt.referencesAll yes ++ no.references

@[simp] def Expr.referencesAll : List Expr → List Reference
  | [] => []
  | e :: es => e.references ++ Expr.referencesAll es

@[simp] def Stmt.referencesAll : List Stmt → List Reference
  | [] => []
  | s :: body => s.references ++ Stmt.referencesAll body

end

/-- The name stands for this identifier. -/
def Reference.IsOf (identifier : Bytes) : Reference → Prop
  | binding text => text = bindingName identifier
  | library text => text = identifier ∧ Library.isName identifier = true

instance (identifier : Bytes) (r : Reference) : Decidable (r.IsOf identifier) :=
  match r with
  | .binding text => inferInstanceAs (Decidable (text = bindingName identifier))
  | .library text =>
    inferInstanceAs (Decidable (text = identifier ∧ Library.isName identifier = true))

/-- A name as it is printed. -/
def Reference.text : Reference → Bytes
  | binding text => text
  | library text => Library.namespaceName ++ "." ++ text

/-- The words that strict code reserves, with the two names that it must not bind. -/
def strictWords : List String :=
  ["await", "break", "case", "catch", "class", "const", "continue", "debugger", "default", "delete",
    "do", "else", "enum", "export", "extends", "false", "finally", "for", "function", "if",
    "implements", "import", "in", "instanceof", "interface", "let", "new", "null", "package",
    "private", "protected", "public", "return", "static", "super", "switch", "this", "throw",
    "true", "try", "typeof", "var", "void", "while", "with", "yield", "arguments", "eval"]

/-- The names that no identifier may have in generated code: the reserved words, and what the code
itself refers to. -/
def takenNames : List Bytes :=
  Library.namespaceName :: (strictWords ++ ["undefined", "Infinity"]).map Bytes.ofString

end Target

open Target (Reference takenNames)

/-- The names in a part of a module. -/
def Target.Part.references : Target.Part → List Reference
  | .expr e => e.references
  | .exprs es => Target.Expr.referencesAll es
  | .stmt s => s.references
  | .body stmts => Target.Stmt.referencesAll stmts
  | .otherwise no => no.references

namespace Target.Part

@[simp] theorem references_expr (e : Expr) : (expr e).references = e.references := rfl

@[simp] theorem references_exprs (es : List Expr) :
    (exprs es).references = Expr.referencesAll es := rfl

@[simp] theorem references_stmt (s : Stmt) : (stmt s).references = s.references := rfl

@[simp] theorem references_body (stmts : List Stmt) :
    (body stmts).references = Stmt.referencesAll stmts := rfl

@[simp] theorem references_otherwise (no : Else) : (otherwise no).references = no.references := rfl

end Target.Part

namespace Place

variable (place : Place)

@[simp] theorem references_give (e : Target.Expr) :
    (place.part (place.give e)).references = e.references := by
  have hgiving (returns : Bool) : (Target.Stmt.giving returns e).references = e.references := by
    cases returns <;> rfl
  cases place with
  | value => rfl
  | statement returns => exact hgiving returns
  | branch returns => simp [give, part, hgiving]
  | otherwise returns => simp [give, part, hgiving]

@[simp] theorem references_ofBody (body : List Target.Stmt) :
    (place.part (place.ofBody body)).references = Target.Stmt.referencesAll body := by
  cases place <;> simp [ofBody, part]

@[simp] theorem references_choose (t : Target.Expr) (y : place.consequence.Form)
    (n : place.alternative.Form) :
    (place.part (place.choose t y n)).references =
      t.references ++ (place.consequence.part y).references ++
        (place.alternative.part n).references := by
  cases place with
  | branch returns => exact List.append_nil _
  | _ => rfl

@[simp] theorem references_nothing : (place.alternative.part place.nothing).references = [] := by
  cases place <;> rfl

end Place

/-- The identifier that a node is. -/
def Node.identifier? : Node → Option Bytes
  | .expr (.name n) => some n.text
  | _ => none

/-- The identifiers in some trees, in source order. -/
def identifiersIn (ts : List (Outline Node)) : List Bytes :=
  (Outline.labelsAll ts).filterMap Node.identifier?

@[simp] theorem identifiersIn_nil : identifiersIn [] = [] := rfl

@[simp] theorem identifiersIn_cons (label : Node) (children ts : List (Outline Node)) :
    identifiersIn (.node label children :: ts) =
      label.identifier?.toList ++ (identifiersIn children ++ identifiersIn ts) := by
  cases h : label.identifier? <;> simp [identifiersIn, h]

@[simp] theorem identifiersIn_append (ts us : List (Outline Node)) :
    identifiersIn (ts ++ us) = identifiersIn ts ++ identifiersIn us := by
  simp [identifiersIn]

@[simp] theorem identifiersIn_names (ns : List Name) :
    identifiersIn (ns.map Name.outline) = ns.map Name.text := by
  rw [identifiersIn, labelsAll_names, List.filterMap_map]
  exact congrFun (List.filterMap_eq_map (f := Name.text)) ns

/-- The identifiers of a program, in source order. -/
def Program.identifiers (p : Program) : List Bytes :=
  p.outline.labels.filterMap Node.identifier?

private theorem Program.identifiers_eq (p : Program) :
    p.identifiers = identifiersIn (Stmt.outlines p.body) := by
  rw [identifiers, labels_outline]
  rfl

/-- Names paired with the identifiers that they stand for: the names are all of `refs` in their
order, and the identifiers all of `identifiers` in any order. -/
structure IsEmission (emitted : List (Reference × Bytes)) (refs : List Reference)
    (identifiers : List Bytes) : Prop where
  references : emitted.map Prod.fst = refs
  identifiers : (emitted.map Prod.snd).Perm identifiers
  isOf : ∀ x ∈ emitted, x.1.IsOf x.2

/-- The names stand for the identifiers, one for each. -/
def Emits (refs : List Reference) (identifiers : List Bytes) : Prop :=
  ∃ emitted, IsEmission emitted refs identifiers

namespace Emits

variable {refs refs' : List Reference} {names names' : List Bytes}

theorem nil : Emits [] [] := ⟨[], rfl, .nil, by simp⟩

theorem append (h : Emits refs names) (h' : Emits refs' names') :
    Emits (refs ++ refs') (names ++ names') := by
  obtain ⟨emitted, hrefs, hnames, hof⟩ := h
  obtain ⟨emitted', hrefs', hnames', hof'⟩ := h'
  refine ⟨emitted ++ emitted', ?_, ?_, List.forall_mem_append.mpr ⟨hof, hof'⟩⟩
  · rw [List.map_append, hrefs, hrefs']
  · rw [List.map_append]
    exact hnames.append hnames'

theorem perm (h : Emits refs names) (hp : names.Perm names') : Emits refs names' := by
  obtain ⟨emitted, hrefs, hnames, hof⟩ := h
  exact ⟨emitted, hrefs, hnames.trans hp, hof⟩

theorem single {r : Reference} {name : Bytes} (h : r.IsOf name) : Emits [r] [name] :=
  ⟨[(r, name)], rfl, .refl _, by simpa using h⟩

theorem binding (name : Bytes) : Emits [.binding (bindingName name)] [name] :=
  single rfl

theorem cons (name : Bytes) (h : Emits refs names) :
    Emits (.binding (bindingName name) :: refs) (name :: names) :=
  (binding name).append h

theorem params (ns : List Name) :
    Emits ((Name.params ns).map .binding) (ns.map Name.text) := by
  induction ns with
  | nil => exact nil
  | cons n ns ih => exact ih.cons n.text

/-- A name that is called means a function of the library, if there is one. -/
theorem callee (n : Name) : Emits n.callee.references [n.text] := by
  unfold Name.callee
  split
  · rename_i hlibrary
    exact single ⟨rfl, hlibrary⟩
  · exact binding n.text

end Emits

/-- The names in the code of a tree stand for its identifiers. -/
theorem Becomes.emits {placed : Placed} {part : Target.Part} (h : Becomes Token.Named placed part) :
    Emits part.references (identifiersIn placed.outline) := by
  induction h with
  | declare hn hv ih | assign hn hv ih =>
    simpa [Placed.outline, Stmt.outline, Name.outline, Node.identifier?] using ih.cons _
  | conciseFunction hn hps hb ih =>
    simpa [Placed.outline, Stmt.outline, Name.outline, Node.identifier?] using
      ((Emits.params _).append ih).cons _
  | blockFunction hn hps hb ih =>
    simpa [Placed.outline, Stmt.outline, Expr.outline, Name.outline, Node.identifier?] using
      ((Emits.params _).append ih).cons _
  | leave => exact .nil
  | ret hv ih | exprStatement hv ih =>
    simpa [Placed.outline, Stmt.outline, Node.identifier?] using ih
  | whileLoop ht hb iht ihb =>
    simpa [Placed.outline, Stmt.outline, Body.outline, Expr.outline, Node.identifier?] using
      iht.append ihb
  | forLoop hn hx hb ihx ihb =>
    simpa [Placed.outline, Stmt.outline, Body.outline, Expr.outline, Name.outline,
      Node.identifier?] using (ihx.append ihb).cons _
  | @noStatements returns => cases returns <;> exact .nil
  | lastStatement hs ih => simpa [Placed.outline, Stmt.outlines] using ih
  | moreStatements hs hb ihs ihb => simpa [Placed.outline, Stmt.outlines] using ihs.append ihb
  | ifThen ht hy iht ihy =>
    simpa [Placed.outline, Expr.outline, Node.identifier?] using iht.append ihy
  | ifThenElse ht hy hn iht ihy ihn =>
    simpa [Placed.outline, Expr.outline, Node.identifier?] using (iht.append ihy).append ihn
  | block hb ih => simpa [Placed.outline, Expr.outline, Node.identifier?] using ih
  | binary level ht hk hl hr ihl ihr =>
    simpa [Placed.outline, Expr.outline, Node.identifier?] using ihl.append ihr
  | unary ht hk hx ih => simpa [Placed.outline, Expr.outline, Node.identifier?] using ih
  | @pipeName place tok left n l hl hn ih =>
    -- The name that is piped into comes first in the code.
    have hcall := ((Emits.callee n).append ih).perm List.perm_append_comm
    simpa [Placed.outline, Expr.outline, Node.identifier?] using hcall
  | @pipeCall place tok paren left callee args l f xs hl hc ha ihl ihc iha =>
    have hcall := ((ihc.append ihl).perm List.perm_append_comm).append iha
    simpa [ha.pipedArgs_eq fun _ h => h, Placed.outline, Expr.outline, Node.identifier?] using hcall
  | call hc ha ihc iha =>
    simpa [Placed.outline, Expr.outline, Node.identifier?] using ihc.append iha
  | closure hps hb ih | arrow hps hb ih =>
    simpa [Placed.outline, Expr.outline, Node.identifier?] using (Emits.params _).append ih
  | name => simpa [Placed.outline, Expr.outline, Node.identifier?] using Emits.binding _
  | number | string | bool | null =>
    simpa [Placed.outline, Expr.outline, Node.identifier?] using Emits.nil
  | array hx ih => simpa [Placed.outline, Expr.outline, Node.identifier?] using ih
  | @calleeName n hn => simpa [Placed.outline, Expr.outline, Node.identifier?] using Emits.callee n
  | callee hne he ih => exact ih
  | noExprs => exact .nil
  | moreExprs he hes ihe ihes => simpa [Placed.outline, Expr.outlines] using ihe.append ihes

/-- Identifiers that differ keep apart, and none gets a name that is taken. -/
structure CaptureFree (emitted : List (Reference × Bytes)) : Prop where
  apart : ∀ x ∈ emitted, ∀ y ∈ emitted, x.2 ≠ y.2 → x.1.text ≠ y.1.text
  free : ∀ x ∈ emitted, x.1.text ∉ takenNames

/-- What the lexer guarantees of an identifier. -/
def IsIdentifier (name : Bytes) : Prop :=
  Lexeme.IsName name ∧ Token.Kind.ofName name = .ident

private theorem Program.isIdentifier_of_parse {source : Bytes} {p : Program}
    (h : Program.parse source = .ok p) : ∀ name ∈ p.identifiers, IsIdentifier name := by
  intro name hmem
  obtain ⟨node, hnode, hname⟩ := List.mem_filterMap.mp hmem
  unfold Node.identifier? at hname
  split at hname
  · cases hname
    cases Program.parse_wellSpelled h hnode with
    | name hn =>
      rw [IsIdentifier, hn.text]
      exact hn.tok.name hn.kind
  · cases hname

namespace Target

/-- The second name is the first one with the underscore that sets it apart. -/
def Collides (a b : Bytes) : Prop :=
  isReserved a = true ∧ b = a ++ "_"

variable {a b name : Bytes} {r r' : Reference}

theorem bindingName_of_reserved (h : isReserved name = true) : bindingName name = name ++ "_" := by
  simp [bindingName, h]

theorem bindingName_of_free (h : isReserved name = false) : bindingName name = name := by
  simp [bindingName, h]

/-- The underscore leads out of the reserved names. -/
theorem isReserved_underscored (name : Bytes) : isReserved (name ++ "_") = false := by
  rw [Bool.eq_false_iff]
  intro h
  exact underscored_notMem (by decide) name (mem_setApart h)

/-- Renaming joins two names only where they collide. -/
theorem bindingName_eq_iff (hne : a ≠ b) :
    bindingName a = bindingName b ↔ Collides a b ∨ Collides b a := by
  constructor
  · intro h
    cases ha : isReserved a <;> cases hb : isReserved b
    · rw [bindingName_of_free ha, bindingName_of_free hb] at h
      exact absurd h hne
    · rw [bindingName_of_free ha, bindingName_of_reserved hb] at h
      exact .inr ⟨hb, h⟩
    · rw [bindingName_of_reserved ha, bindingName_of_free hb] at h
      exact .inl ⟨ha, h.symm⟩
    · rw [bindingName_of_reserved ha, bindingName_of_reserved hb] at h
      exact absurd (List.append_cancel_right h) hne
  · rintro (⟨ha, rfl⟩ | ⟨hb, rfl⟩)
    · rw [bindingName_of_reserved ha, bindingName_of_free (isReserved_underscored a)]
    · rw [bindingName_of_reserved hb, bindingName_of_free (isReserved_underscored b)]

/-- Of the names that are taken, only one is not set apart from identifiers. -/
theorem bindingName_mem_takenNames (h : IsIdentifier name) :
    bindingName name ∈ takenNames ↔ name = "Infinity" := by
  have htaken : ∀ w ∈ takenNames,
      isReserved w = true ∨ Token.Kind.ofName w ≠ .ident ∨ w = "Infinity" := by decide
  constructor
  · intro hmem
    cases hreserved : isReserved name with
    | true =>
      rw [bindingName_of_reserved hreserved] at hmem
      exact absurd hmem (underscored_notMem (by decide) name)
    | false =>
      rw [bindingName_of_free hreserved] at hmem
      rcases htaken name hmem with hw | hw | hw
      · simp [hreserved] at hw
      · exact absurd h.2 hw
      · exact hw
  · rintro rfl
    decide

/-- The name of a library function collides with no other. -/
theorem not_collides_library (h : Library.isName a = true) : ¬(Collides a b ∨ Collides b a) := by
  have hlibrary : ∀ w ∈ Library.names, isReserved w = false := by decide
  have hmem : a ∈ Library.names := by simpa [Library.isName] using h
  rintro (⟨ha, -⟩ | ⟨hb, rfl⟩)
  · rw [hlibrary a hmem] at ha
    cases ha
  · exact underscored_notMem (by decide) b hmem

/-- Printed names of library functions have a dot in them, unlike those of bindings. -/
theorem text_library_ne (other : Bytes) (h : IsIdentifier name) :
    (Reference.library other).text ≠ bindingName name := by
  intro htext
  have hdot : (46 : UInt8) ∈ bindingName name := by
    rw [← htext, Reference.text]
    exact List.mem_append_left _ (by decide)
  have hpart := (isName_bindingName h.1).isNamePart _ hdot
  exact absurd hpart (by decide)

private theorem text_mem_takenNames (hr : r.IsOf name) (h : IsIdentifier name) :
    r.text ∈ takenNames ↔ name = "Infinity" := by
  cases r with
  | binding text =>
    cases hr
    exact bindingName_mem_takenNames h
  | library text =>
    obtain ⟨rfl, hlibrary⟩ := hr
    have hall : ∀ w ∈ Library.names,
        (Reference.library w).text ∉ takenNames ∧ w ≠ "Infinity" := by decide
    obtain ⟨hfree, hne⟩ := hall _ (by simpa [Library.isName] using hlibrary)
    exact iff_of_false hfree hne

private theorem text_eq_iff (hr : r.IsOf a) (hr' : r'.IsOf b) (ha : IsIdentifier a)
    (hb : IsIdentifier b) (hne : a ≠ b) : r.text = r'.text ↔ Collides a b ∨ Collides b a := by
  cases r with
  | binding text =>
    cases hr
    cases r' with
    | binding text' =>
      cases hr'
      exact bindingName_eq_iff hne
    | library text' =>
      have hnot := not_collides_library (b := a) hr'.2
      exact iff_of_false (text_library_ne text' ha).symm (fun h => hnot h.symm)
  | library text =>
    have hnot := not_collides_library (b := b) hr.2
    cases r' with
    | binding text' =>
      cases hr'
      exact iff_of_false (text_library_ne text hb) hnot
    | library text' =>
      refine iff_of_false (fun htext => hne ?_) hnot
      rw [← hr.1, ← hr'.1]
      exact List.append_cancel_left htext

end Target

/-- Names are captured in just two ways: an identifier collides with another one, or it is the
one taken name that is not set apart. -/
theorem IsEmission.captureFree_iff {emitted : List (Reference × Bytes)} {refs : List Reference}
    {identifiers : List Bytes} (h : IsEmission emitted refs identifiers)
    (hid : ∀ name ∈ identifiers, IsIdentifier name) :
    CaptureFree emitted ↔ Bytes.ofString "Infinity" ∉ identifiers ∧
      ∀ a ∈ identifiers, ∀ b ∈ identifiers, ¬Target.Collides a b := by
  have hmem (name : Bytes) : name ∈ identifiers ↔ ∃ r, (r, name) ∈ emitted := by
    rw [← h.identifiers.mem_iff]
    simp
  have hpair : ∀ x ∈ emitted, IsIdentifier x.2 := fun x hx => hid x.2 ((hmem x.2).mpr ⟨x.1, hx⟩)
  constructor
  · intro hfree
    constructor
    · intro hinf
      obtain ⟨r, hr⟩ := (hmem _).mp hinf
      exact hfree.free _ hr ((Target.text_mem_takenNames (h.isOf _ hr) (hpair _ hr)).mpr rfl)
    · intro a ha b hb hcollide
      obtain ⟨r, hr⟩ := (hmem a).mp ha
      obtain ⟨r', hr'⟩ := (hmem b).mp hb
      have hne : a ≠ b := by
        rw [hcollide.2]
        exact fun heq => absurd (List.append_right_eq_self.mp heq.symm) (by decide)
      have htext := Target.text_eq_iff (h.isOf _ hr) (h.isOf _ hr') (hpair _ hr) (hpair _ hr') hne
      exact hfree.apart _ hr _ hr' hne (htext.mpr (.inl hcollide))
  · rintro ⟨hinf, hcollide⟩
    constructor
    · intro x hx y hy hne htext
      have hx' := (hmem x.2).mpr ⟨x.1, hx⟩
      have hy' := (hmem y.2).mpr ⟨y.1, hy⟩
      rcases (Target.text_eq_iff (h.isOf x hx) (h.isOf y hy) (hpair x hx) (hpair y hy) hne).mp htext
        with hc | hc
      · exact hcollide _ hx' _ hy' hc
      · exact hcollide _ hy' _ hx' hc
    · intro x hx htaken
      have hname := (Target.text_mem_takenNames (h.isOf x hx) (hpair x hx)).mp htaken
      exact hinf (hname ▸ (hmem x.2).mpr ⟨x.1, hx⟩)

/-- The names in a module, in the order of their text. -/
def Target.Module.references (m : Target.Module) : List Reference :=
  Target.Stmt.referencesAll m.body

private theorem Program.emits_references {p : Program} {m : Target.Module}
    (h : Formed Token.Named (.body p.body)) (hm : p.lower = .ok m) :
    Emits m.references p.identifiers := by
  obtain ⟨body, hbody, hm⟩ := bind_eq_ok.mp hm
  cases hm
  rw [Program.identifiers_eq]
  exact (h.becomes hbody).emits

/-- The module of a source text that compiles has a name for each identifier. Renaming is free of
capture unless the text has the identifier `Infinity`, or a reserved name together with the same
name with an underscore. -/
theorem compiled_names_captureFree {source : Bytes} {r : Compiled} (h : compile source = .ok r) :
    ∃ m emitted, r.program.lower = .ok m ∧ r.code = m.print ∧
      IsEmission emitted m.references r.program.identifiers ∧
      (CaptureFree emitted ↔ Bytes.ofString "Infinity" ∉ r.program.identifiers ∧
        ∀ a ∈ r.program.identifiers, ∀ b ∈ r.program.identifiers, ¬Target.Collides a b) := by
  obtain ⟨hparse, hcode⟩ := compile_eq_ok.mp h
  cases hm : r.program.lower with
  | error e => simp [Program.code, hm, Except.map] at hcode
  | ok m =>
    obtain ⟨emitted, hemitted⟩ := Program.emits_references (Program.parse_formed hparse) hm
    refine ⟨m, emitted, rfl, ?_, hemitted, ?_⟩
    · simp only [Program.code, hm, Except.map, Except.ok.injEq] at hcode
      exact hcode.symm
    · exact hemitted.captureFree_iff (Program.isIdentifier_of_parse hparse)

/-- Reserved names of every kind, one of them piped into a function of the library. -/
def Grammar.reservedBindings : Bytes :=
  "let class = |new| new\nlet runtime = class(undefined)\nruntime |> print(eval)"

theorem compiled_names_captureFree_reservedBindings :
    ∃ r, ∃ m : Target.Module, ∃ emitted, compile reservedBindings = .ok r ∧ r.code = m.print ∧
      IsEmission emitted m.references r.program.identifiers ∧ CaptureFree emitted ∧
      Bytes.ofString "class" ∈ r.program.identifiers := by
  have hok : ((compile reservedBindings).toOption.map (·.program.identifiers)) =
      some (["class", "new", "new", "runtime", "class", "undefined", "runtime", "print",
        "eval"].map Bytes.ofString) := by
    decide +kernel
  cases h : compile reservedBindings with
  | error e => simp [h, Except.toOption] at hok
  | ok r =>
    obtain ⟨m, emitted, -, hcode, hemitted, hfree⟩ := compiled_names_captureFree h
    simp only [h, Except.toOption, Option.map_some, Option.some.injEq] at hok
    have hids : Bytes.ofString "Infinity" ∉ r.program.identifiers ∧
        ∀ a ∈ r.program.identifiers, ∀ b ∈ r.program.identifiers, ¬Target.Collides a b := by
      rw [hok]
      unfold Target.Collides
      decide +kernel
    refine ⟨r, m, emitted, rfl, hcode, hemitted, hfree.mpr hids, ?_⟩
    rw [hok]
    decide

/-- The source text compiles, and its code has names that capture each other or a taken one. -/
def Captures (source : Bytes) : Prop :=
  ∃ r m emitted, compile source = .ok r ∧ r.program.lower = .ok m ∧
    IsEmission emitted m.references r.program.identifiers ∧ ¬CaptureFree emitted

/-- The names in the code of a source text, and its identifiers. -/
def namesIn (source : Bytes) : Option (List Reference × List Bytes) := do
  let r ← (compile source).toOption
  let m ← r.program.lower.toOption
  return (m.references, r.program.identifiers)

private theorem captures_of_namesIn {source : Bytes} (emitted : List (Reference × Bytes))
    (h : namesIn source = some (emitted.map Prod.fst, emitted.map Prod.snd))
    (hof : ∀ x ∈ emitted, x.1.IsOf x.2) (hcapture : ¬CaptureFree emitted) : Captures source := by
  cases hr : compile source with
  | error e => simp [namesIn, hr, Except.toOption] at h
  | ok r =>
    cases hm : r.program.lower with
    | error e => simp [namesIn, hr, hm, Except.toOption] at h
    | ok m =>
      simp only [namesIn, hr, hm, Except.toOption, Option.bind_eq_bind, Option.bind_some,
        Option.pure_def, Option.some.injEq, Prod.mk.injEq] at h
      exact ⟨r, m, emitted, hr, hm, ⟨h.1.symm, h.2 ▸ .refl _, hof⟩, hcapture⟩

/-- Two different identifiers get one name, and an identifier gets the name of a number. -/
theorem renaming_captures :
    Captures "let class = 1\nlet class_ = 2" ∧ Captures "let Infinity = 1" := by
  constructor
  · apply captures_of_namesIn [(.binding "class_", "class"), (.binding "class_", "class_")]
    · decide +kernel
    · decide
    · intro h
      have hsecond := List.mem_cons_of_mem (Reference.binding "class_", Bytes.ofString "class")
        (List.mem_singleton_self (Reference.binding "class_", Bytes.ofString "class_"))
      exact h.apart _ List.mem_cons_self _ hsecond (by decide) rfl
  · apply captures_of_namesIn [(.binding "Infinity", "Infinity")]
    · decide +kernel
    · decide
    · intro h
      exact h.free _ List.mem_cons_self (by decide)

end PipeCompiler
