import PipeCompiler.Proofs.Formation
import PipeCompiler.Proofs.ParserSoundness

/-! Every parsed program has code.

Lowering fails only on trees that have a hole, pipe into something that is no function, or give a
function a body that is no block. The grammar makes no such tree, so compilation can only fail with
a fault in the source text. `Becomes P` relates the trees of the grammar at their places to the code
that is made of them, with one rule for each kind of tree: what holds of all generated code follows
by induction on it. -/
namespace PipeCompiler

open Grammar
open Target (bindingName binaryOperator)

namespace Place

/-- Whether a block at the place returns the value of its last statement. -/
def returns : Place → Bool
  | .value => true
  | .statement returns | .branch returns | .otherwise returns => returns

/-- A block at a place. -/
def ofBody : (place : Place) → List Target.Stmt → place.Form
  | .value, body => .call (.closure [] body) []
  | .statement _, body => .block body
  | .branch _, body => body
  | .otherwise _, body => .body body

/-- The place of the consequence of a choice. -/
def consequence : Place → Place
  | .value => .value
  | .statement returns | .branch returns | .otherwise returns => .branch returns

/-- The place of the alternative of a choice. -/
def alternative : Place → Place
  | .value => .value
  | .statement returns | .branch returns | .otherwise returns => .otherwise returns

/-- An alternative that is missing. -/
def nothing : (place : Place) → place.alternative.Form
  | .value => Target.Expr.undefined
  | .statement _ | .branch _ | .otherwise _ => Target.Else.none

/-- A choice at a place. -/
def choose : (place : Place) → Target.Expr → place.consequence.Form → place.alternative.Form →
    place.Form
  | .value, test, yes, no => .choose test yes no
  | .statement _, test, yes, no => .branch test yes no
  | .branch _, test, yes, no => [.branch test yes no]
  | .otherwise _, test, yes, no => .elseIf test yes no

end Place

/-- The code of a name that is there, in the place of a callee. -/
def Name.callee (n : Name) : Target.Expr :=
  if Library.isName n.text then .library n.text else .name (bindingName n.text)

/-- The names of parameters that are all there. -/
def Name.params (ns : List Name) : List Bytes :=
  ns.map fun n => bindingName n.text

namespace Grammar.FormedName

variable {P : Token → Prop} {n : Name} {ns : List Name}

theorem lower_eq (h : FormedName P n) : n.lower = .ok (bindingName n.text) := by
  rw [h.eq_mk]
  rfl

theorem lowerCallee_eq (h : FormedName P n) : n.lowerCallee = .ok n.callee := by
  rw [h.eq_mk]
  rfl

theorem lowerAll_eq (h : ∀ n ∈ ns, FormedName P n) :
    Name.lowerAll ns = .ok (Name.params ns) := by
  induction ns with
  | nil => rfl
  | cons n ns ih =>
    rw [List.forall_mem_cons] at h
    have hrest : ns.mapM Name.lower = _ := ih h.2
    rw [Name.lowerAll, List.mapM_cons, h.1.lower_eq, hrest]
    rfl

end Grammar.FormedName

namespace Expr

/-- The code of an expression in the place of a callee: a name may mean a library function there. -/
def lowerCallee : Expr → Except LoweringError Target.Expr
  | .name n => n.lowerCallee
  | e => e.lower .value

/-- The code of an anonymous function. -/
def lowerFunction (params : List Name) : Expr → Except LoweringError Target.Expr
  | .block _ body => do
    let params ← Name.lowerAll params
    return .closure params (← Stmt.lowerBody true body)
  | body => do
    let params ← Name.lowerAll params
    return .arrow params (← body.lower .value)

/-- The code of the alternative of a choice at a place. -/
def lowerAlternative (place : Place) : Expr → Except LoweringError place.alternative.Form
  | .missing => return place.nothing
  | e => e.lower place.alternative

private theorem lowerCallee_eq {e : Expr} (h : ∀ n, e ≠ .name n) :
    e.lowerCallee = e.lower .value := by
  unfold lowerCallee
  split
  · exact absurd rfl (h _)
  · rfl

private theorem lowerFunction_eq {params : List Name} {e : Expr}
    (h : ∀ brace stmts, e ≠ .block brace stmts) :
    e.lowerFunction params = (do
      let params ← Name.lowerAll params
      return .arrow params (← e.lower .value)) := by
  unfold lowerFunction
  split
  · exact absurd rfl (h _ _)
  · rfl

theorem lower_call (place : Place) (tok : Token) (callee : Expr) (args : List Expr) :
    (Expr.call tok callee args).lower place = (do
      let f ← callee.lowerCallee
      return place.give (.call f (← lowerAll args))) := by
  cases callee <;> simp only [lower, lowerCallee]

theorem lower_pipe_call (place : Place) (tok paren : Token) (left callee : Expr)
    (args : List Expr) :
    (Expr.pipe tok left (.call paren callee args)).lower place = (do
      let first ← left.lower .value
      let f ← callee.lowerCallee
      return place.give (.call f (pipedArgs first (← lowerAll args)))) := by
  cases callee <;> simp only [lower, lowerCallee]

theorem lower_lambda (place : Place) (tok : Token) (params : List Name) (body : Expr) :
    (Expr.lambda tok params body).lower place = (do
      return place.give (← body.lowerFunction params)) := by
  cases body <;> simp only [lower, lowerFunction, bind_assoc, pure_bind]

theorem lower_block (place : Place) (brace : Token) (body : List Stmt) :
    (Expr.block brace body).lower place = (do
      return place.ofBody (← Stmt.lowerBody place.returns body)) := by
  cases place with
  | branch returns =>
    simp only [lower]
    exact (bind_pure (Stmt.lowerBody returns body)).symm
  | _ => simp only [lower, Place.ofBody, Place.returns]

theorem lower_cond (place : Place) (tok : Token) (test yes no : Expr) :
    (Expr.cond tok test yes no).lower place = (do
      let test ← test.lower .value
      let yes ← yes.lower place.consequence
      return place.choose test yes (← no.lowerAlternative place)) := by
  cases place with
  | value =>
    rw [lower]
    cases no <;> rfl
  | statement returns =>
    rw [lower]
    cases no <;> rfl
  | branch returns =>
    rw [lower]
    cases no <;> rfl
  | otherwise returns =>
    rw [lower]
    cases no <;> rfl

theorem lowerAlternative_eq {e : Expr} (h : e ≠ .missing) (place : Place) :
    e.lowerAlternative place = e.lower place.alternative := by
  unfold lowerAlternative
  split
  · exact absurd rfl h
  · rfl

end Expr

theorem Stmt.lower_ret (returns : Bool) (tok : Token) {value : Expr} (h : value ≠ .missing) :
    (Stmt.ret tok value).lower returns = (do return .ret (← value.lower .value)) := by
  cases value with
  | missing => exact absurd rfl h
  | _ => simp only [lower]

/-- Only the last statement of a body may be asked for its value. -/
theorem Stmt.lowerBody_cons {returns : Bool} (s : Stmt) {body : List Stmt}
    (h : body ≠ [] ∨ returns = false) :
    Stmt.lowerBody returns (s :: body) = (do
      let first ← s.lower false
      return first :: (← Stmt.lowerBody returns body)) := by
  cases body with
  | nil =>
    cases h.resolve_left (absurd rfl)
    simp [Stmt.lowerBody]
  | cons t body => rw [Stmt.lowerBody]

/-- A part of a module. -/
inductive Target.Part
  | expr (e : Expr)
  | exprs (es : List Expr)
  | stmt (s : Stmt)
  | body (stmts : List Stmt)
  | otherwise (no : Else)

/-- The text of a part of a module. -/
def Target.Part.print (depth : Nat) : Part → Bytes
  | .expr e => e.print depth
  | .exprs es => commaList (Expr.prints depth es)
  | .stmt s => s.print depth
  | .body stmts => Stmt.prints depth stmts
  | .otherwise no => no.print depth

/-- What an expression becomes at a place, as a part of a module. -/
def Place.part : (place : Place) → place.Form → Target.Part
  | .value, e => .expr e
  | .statement _, s => .stmt s
  | .branch _, stmts => .body stmts
  | .otherwise _, no => .otherwise no

/-- A part of a program at its place. -/
inductive Placed
  | expr (place : Place) (e : Expr)
  | callee (e : Expr)
  | exprs (es : List Expr)
  | stmt (returns : Bool) (s : Stmt)
  | body (returns : Bool) (stmts : List Stmt)

/-- The trees of a part of a program. -/
def Placed.outline : Placed → List (Outline Node)
  | .expr _ e | .callee e => e.outline
  | .exprs es => Expr.outlines es
  | .stmt _ s => s.outline
  | .body _ stmts => Stmt.outlines stmts

inductive Becomes (P : Token → Prop) : Placed → Target.Part → Prop
  -- Statements.
  | declare {returns constant : Bool} {tok : Token} {name : Name} {value : Expr} {v : Target.Expr}
      (hn : FormedName P name) (hv : Becomes P (.expr .value value) (.expr v)) :
      Becomes P (.stmt returns (.declare tok constant name value))
        (.stmt (.declare constant (bindingName name.text) v))
  | conciseFunction {returns : Bool} {tok : Token} {name : Name} {params : List Name} {body : Expr}
      {b : Target.Expr} (hn : FormedName P name) (hps : ∀ n ∈ params, FormedName P n)
      (hb : Becomes P (.expr .value body) (.expr b)) :
      Becomes P (.stmt returns (.function tok name params body true))
        (.stmt (.function (bindingName name.text) (Name.params params) [.ret b]))
  | blockFunction {returns : Bool} {tok brace : Token} {name : Name} {params : List Name}
      {body : List Stmt} {b : List Target.Stmt} (hn : FormedName P name)
      (hps : ∀ n ∈ params, FormedName P n)
      (hb : Becomes P (.expr (.branch true) (.block brace body)) (.body b)) :
      Becomes P (.stmt returns (.function tok name params (.block brace body) false))
        (.stmt (.function (bindingName name.text) (Name.params params) b))
  | assign {returns : Bool} {tok : Token} {name : Name} {value : Expr} {v : Target.Expr}
      (hn : FormedName P name) (hv : Becomes P (.expr .value value) (.expr v)) :
      Becomes P (.stmt returns (.assign tok name value)) (.stmt (.assign (bindingName name.text) v))
  | leave {returns : Bool} {tok : Token} :
      Becomes P (.stmt returns (.ret tok .missing)) (.stmt .leave)
  | ret {returns : Bool} {tok : Token} {value : Expr} {v : Target.Expr}
      (hv : Becomes P (.expr .value value) (.expr v)) :
      Becomes P (.stmt returns (.ret tok value)) (.stmt (.ret v))
  | whileLoop {returns : Bool} {tok brace : Token} {test : Expr} {body : List Stmt}
      {t : Target.Expr} {b : List Target.Stmt} (ht : Becomes P (.expr .value test) (.expr t))
      (hb : Becomes P (.expr (.branch false) (.block brace body)) (.body b)) :
      Becomes P (.stmt returns (.whileLoop tok test (.block brace body))) (.stmt (.whileLoop t b))
  | forLoop {returns : Bool} {tok brace : Token} {item : Name} {items : Expr} {body : List Stmt}
      {x : Target.Expr} {b : List Target.Stmt} (hn : FormedName P item)
      (hx : Becomes P (.expr .value items) (.expr x))
      (hb : Becomes P (.expr (.branch false) (.block brace body)) (.body b)) :
      Becomes P (.stmt returns (.forLoop tok item items (.block brace body)))
        (.stmt (.forLoop (bindingName item.text) x b))
  | exprStatement {returns : Bool} {tok : Token} {value : Expr} {s : Target.Stmt}
      (hv : Becomes P (.expr (.statement returns) value) (.stmt s)) :
      Becomes P (.stmt returns (.expr tok value)) (.stmt s)
  | noStatements {returns : Bool} :
      Becomes P (.body returns []) (.body (if returns then [.ret .undefined] else []))
  | lastStatement {returns : Bool} {last : Stmt} {s : Target.Stmt}
      (hs : Becomes P (.stmt returns last) (.stmt s)) :
      Becomes P (.body returns [last]) (.body [s])
  | moreStatements {returns : Bool} {first second : Stmt} {body : List Stmt} {s : Target.Stmt}
      {b : List Target.Stmt} (hs : Becomes P (.stmt false first) (.stmt s))
      (hb : Becomes P (.body returns (second :: body)) (.body b)) :
      Becomes P (.body returns (first :: second :: body)) (.body (s :: b))
  -- Expressions that depend on their place.
  | ifThen {place : Place} {tok : Token} {test yes : Expr} {t : Target.Expr}
      {y : place.consequence.Form} (ht : Becomes P (.expr .value test) (.expr t))
      (hy : Becomes P (.expr place.consequence yes) (place.consequence.part y)) :
      Becomes P (.expr place (.cond tok test yes .missing))
        (place.part (place.choose t y place.nothing))
  | ifThenElse {place : Place} {tok : Token} {test yes no : Expr} {t : Target.Expr}
      {y : place.consequence.Form} {n : place.alternative.Form}
      (ht : Becomes P (.expr .value test) (.expr t))
      (hy : Becomes P (.expr place.consequence yes) (place.consequence.part y))
      (hn : Becomes P (.expr place.alternative no) (place.alternative.part n)) :
      Becomes P (.expr place (.cond tok test yes no)) (place.part (place.choose t y n))
  | block {place : Place} {brace : Token} {body : List Stmt} {b : List Target.Stmt}
      (hb : Becomes P (.body place.returns body) (.body b)) :
      Becomes P (.expr place (.block brace body)) (place.part (place.ofBody b))
  -- Expressions that are values everywhere.
  | binary {place : Place} {op : Token} {left right : Expr} {l r : Target.Expr} (level : Level)
      (ht : P op) (hk : op.kind ∈ level.operators) (hl : Becomes P (.expr .value left) (.expr l))
      (hr : Becomes P (.expr .value right) (.expr r)) :
      Becomes P (.expr place (.binary op left op.literal right))
        (place.part (place.give (.binary l (binaryOperator op.literal) r)))
  | unary {place : Place} {op : Token} {operand : Expr} {x : Target.Expr} (ht : P op)
      (hk : op.kind = .bang ∨ op.kind = .minus)
      (hx : Becomes P (.expr .value operand) (.expr x)) :
      Becomes P (.expr place (.unary op op.literal operand))
        (place.part (place.give (.unary op.literal x)))
  | pipeName {place : Place} {tok : Token} {left : Expr} {n : Name} {l : Target.Expr}
      (hl : Becomes P (.expr .value left) (.expr l)) (hn : FormedName P n) :
      Becomes P (.expr place (.pipe tok left (.name n)))
        (place.part (place.give (.call n.callee [l])))
  | pipeCall {place : Place} {tok paren : Token} {left callee : Expr} {args : List Expr}
      {l f : Target.Expr} {xs : List Target.Expr} (hl : Becomes P (.expr .value left) (.expr l))
      (hc : Becomes P (.callee callee) (.expr f)) (ha : Becomes P (.exprs args) (.exprs xs)) :
      Becomes P (.expr place (.pipe tok left (.call paren callee args)))
        (place.part (place.give (.call f (pipedArgs l xs))))
  | call {place : Place} {tok : Token} {callee : Expr} {args : List Expr} {f : Target.Expr}
      {xs : List Target.Expr} (hc : Becomes P (.callee callee) (.expr f))
      (ha : Becomes P (.exprs args) (.exprs xs)) :
      Becomes P (.expr place (.call tok callee args)) (place.part (place.give (.call f xs)))
  | closure {place : Place} {tok brace : Token} {params : List Name} {body : List Stmt}
      {b : List Target.Stmt} (hps : ∀ n ∈ params, FormedName P n)
      (hb : Becomes P (.expr (.branch true) (.block brace body)) (.body b)) :
      Becomes P (.expr place (.lambda tok params (.block brace body)))
        (place.part (place.give (.closure (Name.params params) b)))
  | arrow {place : Place} {tok : Token} {params : List Name} {body : Expr} {b : Target.Expr}
      (hps : ∀ n ∈ params, FormedName P n) (hb : Becomes P (.expr .value body) (.expr b)) :
      Becomes P (.expr place (.lambda tok params body))
        (place.part (place.give (.arrow (Name.params params) b)))
  | name {place : Place} {n : Name} (hn : FormedName P n) :
      Becomes P (.expr place (.name n)) (place.part (place.give (.name (bindingName n.text))))
  | number {place : Place} {tok : Token} {value : Double} (ht : P tok) (hk : tok.kind = .number)
      (hv : Double.read? tok.literal = some value) :
      Becomes P (.expr place (.number tok value)) (place.part (place.give (.number value)))
  | string {place : Place} {tok : Token} (ht : P tok) (hk : tok.kind = .string) :
      Becomes P (.expr place (.string tok tok.literal))
        (place.part (place.give (.string tok.literal)))
  | bool {place : Place} {tok : Token} {value : Bool} :
      Becomes P (.expr place (.bool tok value)) (place.part (place.give (.bool value)))
  | null {place : Place} {tok : Token} :
      Becomes P (.expr place (.null tok)) (place.part (place.give .null))
  | array {place : Place} {tok : Token} {items : List Expr} {xs : List Target.Expr}
      (hx : Becomes P (.exprs items) (.exprs xs)) :
      Becomes P (.expr place (.array tok items)) (place.part (place.give (.array xs)))
  -- Callees and lists.
  | calleeName {n : Name} (hn : FormedName P n) : Becomes P (.callee (.name n)) (.expr n.callee)
  | callee {e : Expr} {f : Target.Expr} (hne : ∀ n, e ≠ .name n)
      (he : Becomes P (.expr .value e) (.expr f)) : Becomes P (.callee e) (.expr f)
  | noExprs : Becomes P (.exprs []) (.exprs [])
  | moreExprs {e : Expr} {es : List Expr} {x : Target.Expr} {xs : List Target.Expr}
      (he : Becomes P (.expr .value e) (.expr x)) (hes : Becomes P (.exprs es) (.exprs xs)) :
      Becomes P (.exprs (e :: es)) (.exprs (x :: xs))

/-- A tree has code wherever it stands. -/
def Grammar.Tree.Lowers (P : Token → Prop) : Tree → Prop
  | .stmt s => ∀ returns, ∃ code, s.lower returns = .ok code ∧
      Becomes P (.stmt returns s) (.stmt code)
  | .body stmts => ∀ returns, ∃ code, Stmt.lowerBody returns stmts = .ok code ∧
      Becomes P (.body returns stmts) (.body code)
  | .expr e => ∀ place, ∃ code,
      e.lower place = .ok code ∧ Becomes P (.expr place e) (place.part code)
  | .exprs es => ∃ code, Expr.lowerAll es = .ok code ∧ Becomes P (.exprs es) (.exprs code)

variable {P : Token → Prop}

theorem Grammar.Formed.lowersCallee {e : Expr} (h : Formed P (.expr e))
    (he : (Tree.expr e).Lowers P) :
    ∃ code, e.lowerCallee = .ok code ∧ Becomes P (.callee e) (.expr code) := by
  by_cases hname : ∃ n, e = .name n
  · obtain ⟨n, rfl⟩ := hname
    cases h with
    | name hn => exact ⟨n.callee, hn.lowerCallee_eq, .calleeName hn⟩
  · have hne := not_exists.mp hname
    obtain ⟨code, hcode, hbecomes⟩ := he .value
    exact ⟨code, (Expr.lowerCallee_eq hne).trans hcode, .callee hne hbecomes⟩

private theorem lowers_lambda {tok : Token} {params : List Name} {body : Expr}
    (hps : ∀ n ∈ params, FormedName P n) (hb : (Tree.expr body).Lowers P) :
    (Tree.expr (.lambda tok params body)).Lowers P := by
  intro place
  rw [Expr.lower_lambda]
  by_cases hblock : ∃ brace stmts, body = .block brace stmts
  · obtain ⟨brace, stmts, rfl⟩ := hblock
    obtain ⟨b, hbody, hbecomes⟩ := hb (.branch true)
    simp only [Expr.lower] at hbody
    refine ⟨_, ?_, .closure hps hbecomes⟩
    rw [Expr.lowerFunction, FormedName.lowerAll_eq hps, hbody]
    rfl
  · obtain ⟨b, hbody, hbecomes⟩ := hb .value
    refine ⟨_, ?_, .arrow hps hbecomes⟩
    rw [Expr.lowerFunction_eq fun brace stmts h => hblock ⟨brace, stmts, h⟩,
      FormedName.lowerAll_eq hps, hbody]
    rfl

theorem Grammar.Formed.lowers {t : Tree} (h : Formed P t) : t.Lowers P := by
  induction h with
  | declare ht hk hn hv ih =>
    intro returns
    obtain ⟨v, hvalue, hv⟩ := ih .value
    refine ⟨_, ?_, .declare hn hv⟩
    rw [Stmt.lower, hvalue, hn.lower_eq]
    rfl
  | conciseFunction ht hk hn hps hb ih =>
    intro returns
    obtain ⟨b, hbody, hb⟩ := ih .value
    refine ⟨_, ?_, .conciseFunction hn hps hb⟩
    simp only [Stmt.lower, hn.lower_eq, FormedName.lowerAll_eq hps, hbody]
    rfl
  | blockFunction ht hk hn hps hb ih =>
    intro returns
    obtain ⟨b, hbody, hb⟩ := ih (.branch true)
    simp only [Expr.lower] at hbody
    refine ⟨_, ?_, .blockFunction hn hps hb⟩
    simp only [Stmt.lower, hn.lower_eq, FormedName.lowerAll_eq hps, hbody]
    rfl
  | assign ht hk hn hv ih =>
    intro returns
    obtain ⟨v, hvalue, hv⟩ := ih .value
    refine ⟨_, ?_, .assign hn hv⟩
    rw [Stmt.lower, hvalue, hn.lower_eq]
    rfl
  | leave ht hk =>
    intro returns
    exact ⟨_, by rw [Stmt.lower]; rfl, .leave⟩
  | ret ht hk hv ih =>
    intro returns
    obtain ⟨v, hvalue, hbecomes⟩ := ih .value
    refine ⟨_, ?_, .ret hbecomes⟩
    rw [Stmt.lower_ret returns _ hv.ne_missing, hvalue]
    rfl
  | whileLoop ht hk hc hb ihc ihb =>
    intro returns
    obtain ⟨t, htest, ht⟩ := ihc .value
    obtain ⟨b, hbody, hb⟩ := ihb (.branch false)
    simp only [Expr.lower] at hbody
    refine ⟨_, ?_, .whileLoop ht hb⟩
    simp only [Stmt.lower, Body.lower, htest, hbody]
    rfl
  | forLoop ht hk hn hx hb ihx ihb =>
    intro returns
    obtain ⟨x, hitems, hx⟩ := ihx .value
    obtain ⟨b, hbody, hb⟩ := ihb (.branch false)
    simp only [Expr.lower] at hbody
    refine ⟨_, ?_, .forLoop hn hx hb⟩
    simp only [Stmt.lower, Body.lower, hitems, hbody, hn.lower_eq]
    rfl
  | exprStatement ht hv ih =>
    intro returns
    obtain ⟨s, hvalue, hs⟩ := ih (.statement returns)
    exact ⟨s, by rw [Stmt.lower, hvalue], .exprStatement hs⟩
  | noStatements =>
    intro returns
    exact ⟨_, by rw [Stmt.lowerBody]; rfl, .noStatements⟩
  | @moreStatements s body hs hb ihs ihb =>
    intro returns
    cases body with
    | nil =>
      obtain ⟨s, hlast, hs⟩ := ihs returns
      refine ⟨_, ?_, .lastStatement hs⟩
      rw [Stmt.lowerBody, hlast]
      rfl
    | cons t body =>
      obtain ⟨s, hfirst, hs⟩ := ihs false
      obtain ⟨b, hrest, hb⟩ := ihb returns
      refine ⟨_, ?_, .moreStatements hs hb⟩
      rw [Stmt.lowerBody, hfirst, hrest]
      rfl
  | ifThen ht hk hc hy ihc ihy =>
    intro place
    obtain ⟨t, htest, ht⟩ := ihc .value
    obtain ⟨y, hyes, hy⟩ := ihy place.consequence
    refine ⟨_, ?_, .ifThen ht hy⟩
    rw [Expr.lower_cond, htest, hyes]
    rfl
  | ifThenElse ht hk hc hy hn ihc ihy ihn =>
    intro place
    obtain ⟨t, htest, ht⟩ := ihc .value
    obtain ⟨y, hyes, hy⟩ := ihy place.consequence
    obtain ⟨n, hno, hbecomes⟩ := ihn place.alternative
    refine ⟨_, ?_, .ifThenElse ht hy hbecomes⟩
    rw [Expr.lower_cond, htest, hyes, Expr.lowerAlternative_eq hn.ne_missing, hno]
    rfl
  | block ht hk hb ih =>
    intro place
    obtain ⟨b, hbody, hb⟩ := ih place.returns
    refine ⟨_, ?_, .block hb⟩
    rw [Expr.lower_block, hbody]
    rfl
  | binary level ht hk hl hr ihl ihr =>
    intro place
    obtain ⟨l, hleft, hl⟩ := ihl .value
    obtain ⟨r, hright, hr⟩ := ihr .value
    refine ⟨_, ?_, .binary level ht hk hl hr⟩
    rw [Expr.lower, hleft, hright]
    rfl
  | unary ht hk he ih =>
    intro place
    obtain ⟨x, hoperand, hx⟩ := ih .value
    refine ⟨_, ?_, .unary ht hk hx⟩
    rw [Expr.lower, hoperand]
    rfl
  | pipeName ht hk hl hn ihl =>
    intro place
    obtain ⟨l, hleft, hl⟩ := ihl .value
    refine ⟨_, ?_, .pipeName hl hn⟩
    simp only [Expr.lower, hleft, hn.lowerCallee_eq]
    rfl
  | pipeCall ht hk hl hp hpk hc ha ihl ihc iha =>
    intro place
    obtain ⟨l, hleft, hl⟩ := ihl .value
    obtain ⟨f, hcallee, hbecomes⟩ := hc.lowersCallee ihc
    obtain ⟨xs, hargs, ha⟩ := iha
    refine ⟨_, ?_, .pipeCall hl hbecomes ha⟩
    rw [Expr.lower_pipe_call, hleft, hcallee, hargs]
    rfl
  | call ht hk hc ha ihc iha =>
    intro place
    obtain ⟨f, hcallee, hbecomes⟩ := hc.lowersCallee ihc
    obtain ⟨xs, hargs, ha⟩ := iha
    refine ⟨_, ?_, .call hbecomes ha⟩
    rw [Expr.lower_call, hcallee, hargs]
    rfl
  | lambda ht hk hps hb ih => exact lowers_lambda hps ih
  | name hn =>
    intro place
    refine ⟨_, ?_, .name hn⟩
    rw [Expr.lower_name, hn.lower_eq]
    rfl
  | number ht hk hv =>
    intro place
    exact ⟨_, by rw [Expr.lower]; rfl, .number ht hk hv⟩
  | string ht hk =>
    intro place
    exact ⟨_, by rw [Expr.lower]; rfl, .string ht hk⟩
  | bool ht hk =>
    intro place
    exact ⟨_, by rw [Expr.lower]; rfl, .bool⟩
  | null ht hk =>
    intro place
    exact ⟨_, by rw [Expr.lower]; rfl, .null⟩
  | array ht hk hx ih =>
    intro place
    obtain ⟨xs, hitems, hx⟩ := ih
    refine ⟨_, ?_, .array hx⟩
    rw [Expr.lower, hitems]
    rfl
  | noExprs => exact ⟨[], by rw [Expr.lowerAll]; rfl, .noExprs⟩
  | moreExprs he hes ihe ihes =>
    obtain ⟨x, hfirst, he⟩ := ihe .value
    obtain ⟨xs, hrest, hes⟩ := ihes
    refine ⟨_, ?_, .moreExprs he hes⟩
    rw [Expr.lowerAll, hfirst, hrest]
    rfl

/-- The code of a program is made of its trees. -/
theorem Grammar.Formed.becomes {stmts : List Stmt} (h : Formed P (.body stmts)) {returns : Bool}
    {code : List Target.Stmt} (hcode : Stmt.lowerBody returns stmts = .ok code) :
    Becomes P (.body returns stmts) (.body code) := by
  obtain ⟨_, hlower, hbecomes⟩ := h.lowers returns
  cases hlower.symm.trans hcode
  exact hbecomes

theorem Tokens.parse_formed {toks : List Token} {p : Program}
    (h : (Tokens.ofList toks).parse.1 = .ok p) (hP : ∀ tok ∈ toks, P tok) :
    Formed P (.body p.body) := by
  refine (Tokens.parse_derives h).formed fun tok htok => hP tok ?_
  rw [Tokens.ofList_ahead] at htok
  exact (List.takeWhile_sublist _).mem (List.mem_filter.mp htok).1

theorem Program.code_succeeds {p : Program} (h : Formed P (.body p.body)) :
    ∃ code, p.code = .ok code := by
  obtain ⟨body, hbody, -⟩ := h.lowers false
  refine ⟨Target.Module.print ⟨body⟩, ?_⟩
  rw [Program.code, Program.lower, hbody]
  rfl

theorem Program.parse_eq_ok {source : Bytes} {p : Program} :
    Program.parse source = .ok p ↔
      ∃ toks, tokenize source = .ok toks ∧ (Tokens.ofList toks).parse.1 = .ok p := by
  unfold Program.parse
  cases tokenize source with
  | error e => simp
  | ok toks => simp [mapError_eq_ok]

theorem compile_eq_ok {source : Bytes} {r : Compiled} :
    compile source = .ok r ↔
      Program.parse source = .ok r.program ∧ r.program.code = .ok r.code := by
  simp only [compile, bind_eq_ok, mapError_eq_ok]
  constructor
  · rintro ⟨p, hparse, code, hcode, hr⟩
    cases hr
    exact ⟨hparse, hcode⟩
  · rintro ⟨hparse, hcode⟩
    exact ⟨r.program, hparse, r.code, hcode, rfl⟩

/-- Whatever a list of tokens is parsed to has code. So a source text has code too, or else a fault
that a diagnostic reports. -/
theorem parsed_programs_have_code :
    (∀ (toks : List Token) (p : Program), (Tokens.ofList toks).parse.1 = .ok p →
      ∃ code, p.code = .ok code) ∧
    ∀ source : Bytes, (∃ r, compile source = .ok r) ∨
      ∃ d, compile source = .error (.diagnostic d) := by
  have hcode : ∀ (toks : List Token) (p : Program), (Tokens.ofList toks).parse.1 = .ok p →
      ∃ code, p.code = .ok code := fun toks p h =>
    Program.code_succeeds (Tokens.parse_formed h fun tok htok => htok)
  refine ⟨hcode, fun source => ?_⟩
  cases hparse : Program.parse source with
  | error d => exact .inr ⟨d, by rw [compile, hparse]; rfl⟩
  | ok p =>
    obtain ⟨toks, -, htoks⟩ := Program.parse_eq_ok.mp hparse
    obtain ⟨code, hcode⟩ := hcode toks p htoks
    exact .inl ⟨⟨p, code⟩, compile_eq_ok.mpr ⟨hparse, hcode⟩⟩

/-- `fn f(a) { if a { return } a |> g(a) }`, without an end of input. -/
def Grammar.guardedFunction : List Token :=
  [.handmade .fnWord "fn", .handmade .ident "f", .handmade .lparen "(", .handmade .ident "a",
    .handmade .rparen ")", .handmade .lbrace "\x7b", .handmade .ifWord "if", .handmade .ident "a",
    .handmade .lbrace "\x7b", .handmade .returnWord "return", .handmade .rbrace "\x7d",
    .handmade .ident "a", .handmade .pipe "|>", .handmade .ident "g", .handmade .lparen "(",
    .handmade .ident "a", .handmade .rparen ")", .handmade .rbrace "\x7d"]

theorem parsed_programs_have_code_guardedFunction :
    ∃ p code, (Tokens.ofList guardedFunction).parse.1 = .ok p ∧ p.code = .ok code := by
  obtain ⟨code, hcode⟩ := parsed_programs_have_code.1 guardedFunction _ rfl
  exact ⟨_, code, rfl, hcode⟩

end PipeCompiler
