import PipeCompiler.Program.Basic
import PipeCompiler.Proofs.Outcomes
import PipeCompiler.Proofs.PipeDesugaring

/-! Implicit returns are explicit ones.

A body that gives a value returns that of its last statement. Written out, the last statement of
such a body is a `return`, or a block or a choice that is written out in turn. A program and the one
with all its returns written out have the same code. -/
namespace PipeCompiler

open Grammar

/-- Neither a block nor a choice, whose parts are statements of their own. -/
def Expr.isPlain : Expr → Bool
  | .missing | .cond .. | .block .. => false
  | _ => true

/-- A statement that gives the value of an expression, if it is to be returned. -/
def Expr.asStatement (returns : Bool) (tok : Token) (e : Expr) : Stmt :=
  if returns && e.isPlain then .ret tok e else .expr tok e

/-- A branch that returns its value is a block. -/
def Expr.asBranch (returns : Bool) (tok : Token) (e : Expr) : Expr :=
  if returns && !e.isBlock then .block tok [e.asStatement returns tok] else e

/-- An alternative may also be missing, or be another choice. -/
def Expr.asAlternative (returns : Bool) (tok : Token) : Expr → Expr
  | .missing => .missing
  | .cond tok test yes no => .cond tok test yes no
  | e => e.asBranch returns tok

mutual

/-- An expression with the returns in it written out. Where it stands as a statement, `returns?`
says whether its value is returned; otherwise its value is used. -/
def Expr.explicit : (returns? : Option Bool) → Expr → Expr
  | _, .missing => .missing
  | none, .cond tok test yes no =>
    .cond tok (test.explicit none) (yes.explicit none) (no.explicit none)
  | some returns, .cond tok test yes no =>
    .cond tok (test.explicit none) ((yes.explicit (some returns)).asBranch returns tok)
      ((no.explicit (some returns)).asAlternative returns tok)
  | returns?, .block brace body => .block brace (Stmt.explicitBody (returns?.getD true) body)
  | _, .binary tok left op right => .binary tok (left.explicit none) op (right.explicit none)
  | _, .unary tok op operand => .unary tok op (operand.explicit none)
  | _, .pipe tok left target => .pipe tok (left.explicit none) (target.explicit none)
  | _, .call tok callee args => .call tok (callee.explicit none) (Expr.explicitAll args)
  | _, .lambda tok params body => .lambda tok params (body.explicit none)
  | _, .name n => .name n
  | _, .number tok value => .number tok value
  | _, .string tok value => .string tok value
  | _, .bool tok value => .bool tok value
  | _, .null tok => .null tok
  | _, .array tok items => .array tok (Expr.explicitAll items)

/-- A statement with the returns in it written out, and its own if it `returns` its value. -/
def Stmt.explicit (returns : Bool) : Stmt → Stmt
  | .missing => .missing
  | .declare tok constant name value => .declare tok constant name (value.explicit none)
  | .function tok name params body concise => .function tok name params (body.explicit none) concise
  | .assign tok name value => .assign tok name (value.explicit none)
  | .ret tok value => .ret tok (value.explicit none)
  | .whileLoop tok test body => .whileLoop tok (test.explicit none) body.explicit
  | .forLoop tok item items body => .forLoop tok item (items.explicit none) body.explicit
  | .expr tok value => (value.explicit (some returns)).asStatement returns tok

/-- The body of a loop returns nothing of its own. -/
def Body.explicit : Body → Body
  | .missing => .missing
  | .block brace stmts => .block brace (Stmt.explicitBody false stmts)

/-- Only the last statement of a body returns its value. -/
def Stmt.explicitBody (returns : Bool) : List Stmt → List Stmt
  | [] => []
  | [last] => [last.explicit returns]
  | s :: t :: body => s.explicit false :: Stmt.explicitBody returns (t :: body)

def Expr.explicitAll : List Expr → List Expr
  | [] => []
  | e :: es => e.explicit none :: Expr.explicitAll es

end

/-- A program with its returns written out. -/
def Program.explicit (p : Program) : Program :=
  ⟨Stmt.explicitBody false p.body⟩

namespace Expr

variable {e : Expr}

private theorem isPlain_explicit (returns? : Option Bool) :
    (e.explicit returns?).isPlain = e.isPlain := by
  cases e <;> cases returns? <;> rfl

/-- Where a plain expression stands makes no difference to what is written out in it. -/
theorem explicit_of_isPlain (h : e.isPlain = true) (returns? : Option Bool) :
    e.explicit returns? = e.explicit none := by
  cases e <;> first | rfl | cases h

theorem explicit_ne_missing (h : e ≠ .missing) (returns? : Option Bool) :
    e.explicit returns? ≠ .missing := by
  cases e with
  | missing => exact absurd rfl h
  | _ => cases returns? <;> nofun

private theorem asAlternative_of_isPlain (h : e.isPlain = true) (returns : Bool) (tok : Token) :
    e.asAlternative returns tok = e.asBranch returns tok := by
  cases e <;> first | rfl | cases h

private theorem ne_missing_of_isPlain (h : e.isPlain = true) : e ≠ .missing := by
  rintro rfl
  cases h

/-- A plain expression is evaluated, and its value is given to its place. -/
theorem lower_of_isPlain (h : e.isPlain = true) (place : Place) :
    e.lower place = (do return place.give (← e.lower .value)) := by
  cases e with
  | missing | cond | block => cases h
  | pipe tok left target =>
    cases target with
    | call paren callee args => simp only [lower_pipe_call, bind_assoc, pure_bind, Place.give]
    | name n => simp only [lower, bind_assoc, pure_bind, Place.give]
    | _ =>
      simp only [lower, bind_assoc]
      rfl
  | call tok callee args => simp only [lower_call, bind_assoc, pure_bind, Place.give]
  | lambda tok params body => simp only [lower_lambda, bind_assoc, pure_bind, Place.give]
  | _ => simp only [lower, bind_assoc, pure_bind, Place.give]

end Expr

namespace Expr

variable {e : Expr} {returns : Bool} (tok : Token)

theorem lower_asStatement (h : e ≠ .missing) :
    (e.asStatement returns tok).lower returns = e.lower (.statement returns) := by
  unfold asStatement
  split
  · rename_i hplain
    obtain ⟨rfl, hplain⟩ := Bool.and_eq_true_iff.mp hplain
    rw [Stmt.lower_ret true tok h, lower_of_isPlain hplain (.statement true)]
    rfl
  · simp only [Stmt.lower]

/-- A branch that is no block is the only statement of its body. -/
theorem lower_branch (h : e ≠ .missing) (hblock : e.isBlock = false) :
    e.lower (.branch returns) = (do return [← e.lower (.statement returns)]) := by
  by_cases hplain : e.isPlain = true
  · rw [lower_of_isPlain hplain (.branch returns), lower_of_isPlain hplain (.statement returns)]
    simp only [bind_assoc, pure_bind, Place.give]
  · cases e with
    | missing => exact absurd rfl h
    | block => cases hblock
    | cond tok test yes no => simp only [lower, bind_assoc, pure_bind]
    | _ => exact absurd rfl hplain

private theorem lower_asBranch (h : e ≠ .missing) :
    (e.asBranch returns tok).lower (.branch returns) = e.lower (.branch returns) := by
  unfold asBranch
  split
  · rename_i hwrap
    have hblock : e.isBlock = false := by simpa using (Bool.and_eq_true_iff.mp hwrap).2
    simp only [lower, Stmt.lowerBody, lower_asStatement tok h, lower_branch h hblock]
  · rfl

private theorem lower_asAlternative (e : Expr) :
    (e.asAlternative returns tok).lower (.otherwise returns) = e.lower (.otherwise returns) := by
  by_cases hplain : e.isPlain = true
  · rw [asAlternative_of_isPlain hplain]
    unfold asBranch
    split
    · simp only [lower, Stmt.lowerBody, lower_asStatement tok (ne_missing_of_isPlain hplain),
        lower_of_isPlain hplain (.statement returns), lower_of_isPlain hplain (.otherwise returns),
        bind_assoc, pure_bind, Place.give]
    · rfl
  · cases e with
    | missing | cond => rfl
    | block brace body => cases returns <;> rfl
    | _ => exact absurd rfl hplain

end Expr

/-- Whether the value at a place is returned, if the place does not use it. -/
def Place.returns? : Place → Option Bool
  | .value => none
  | .statement returns | .branch returns | .otherwise returns => some returns

/-- Writing out the returns of a tree does not change its code. -/
def Grammar.Tree.KeepsReturns : Tree → Prop
  | .stmt s => ∀ returns, (s.explicit returns).lower returns = s.lower returns
  | .body stmts => ∀ returns, Stmt.lowerBody returns (Stmt.explicitBody returns stmts) =
      Stmt.lowerBody returns stmts
  | .expr e => ∀ place, (e.explicit place.returns?).lower place = e.lower place
  | .exprs es => Expr.lowerAll (Expr.explicitAll es) = Expr.lowerAll es

theorem Grammar.Tree.KeepsReturns.value {e : Expr} (h : (Tree.expr e).KeepsReturns) :
    (e.explicit none).lower .value = e.lower .value :=
  h .value

/-- What is written out of a plain expression is plain, so only its value counts. -/
theorem keepsReturns_of_isPlain {e : Expr} (h : e.isPlain = true)
    (hvalue : (e.explicit none).lower .value = e.lower .value) : (Tree.expr e).KeepsReturns := by
  intro place
  have hplain : (e.explicit none).isPlain = true := by rw [Expr.isPlain_explicit, h]
  rw [Expr.explicit_of_isPlain h, Expr.lower_of_isPlain hplain, Expr.lower_of_isPlain h, hvalue]

theorem keepsReturns_block {brace : Token} {body : List Stmt} :
    (Tree.expr (.block brace body)).KeepsReturns ↔ (Tree.body body).KeepsReturns := by
  constructor
  · intro h returns
    simpa only [Place.returns?, Expr.explicit, Option.getD, Expr.lower] using h (.branch returns)
  · intro h place
    have hreturns : place.returns?.getD true = place.returns := by cases place <;> rfl
    rw [Expr.explicit, Expr.lower_block, Expr.lower_block, hreturns, h]

private theorem keepsReturns_cond {tok : Token} {test yes no : Expr}
    (ht : (Tree.expr test).KeepsReturns) (hy : (Tree.expr yes).KeepsReturns) (hne : yes ≠ .missing)
    (hvalue : (no.explicit none).lowerAlternative .value = no.lowerAlternative .value)
    (hotherwise : ∀ returns,
      (no.explicit (some returns)).lower (.otherwise returns) = no.lower (.otherwise returns)) :
    (Tree.expr (.cond tok test yes no)).KeepsReturns := by
  intro place
  have hyes (returns : Bool) :
      (yes.explicit (some returns)).lower (.branch returns) = yes.lower (.branch returns) :=
    hy (.branch returns)
  have hne' (returns : Bool) := Expr.explicit_ne_missing hne (some returns)
  cases place with
  | value =>
    have hyes' : (yes.explicit none).lower Place.value.consequence =
        yes.lower Place.value.consequence := hy .value
    rw [Place.returns?, Expr.explicit, Expr.lower_cond, Expr.lower_cond, ht.value, hyes', hvalue]
  | _ =>
    simp only [Place.returns?, Expr.explicit, Expr.lower, Expr.lower_asBranch _ (hne' _),
      Expr.lower_asAlternative, ht.value, hyes, hotherwise]

private theorem lowerCallee_explicit {e : Expr}
    (h : (e.explicit none).lower .value = e.lower .value) :
    (e.explicit none).lowerCallee = e.lowerCallee := by
  cases e with
  | name n => rfl
  | _ => exact h

private theorem lowerFunction_explicit {e : Expr} (h : (Tree.expr e).KeepsReturns)
    (params : List Name) :
    (e.explicit none).lowerFunction params = e.lowerFunction params := by
  have harrow := congrArg (fun code => do
    let params ← Name.lowerAll params
    return Target.Expr.arrow params (← code)) (h .value)
  cases e with
  | block brace body =>
    have hbody := keepsReturns_block.mp h true
    simp only [Expr.explicit, Option.getD, Expr.lowerFunction, hbody]
  | _ => exact harrow

private theorem Stmt.explicitBody_ne_nil (returns : Bool) (s : Stmt) (body : List Stmt) :
    Stmt.explicitBody returns (s :: body) ≠ [] := by
  cases body <;> nofun

theorem Grammar.Formed.keepsReturns {P : Token → Prop} {t : Tree} (h : Formed P t) :
    t.KeepsReturns := by
  induction h with
  | declare ht hk hn hv ih =>
    intro returns
    simp only [Stmt.explicit, Stmt.lower, ih.value]
  | conciseFunction ht hk hn hps hb ih =>
    intro returns
    simp only [Stmt.explicit, Stmt.lower, ih.value]
  | blockFunction ht hk hn hps hb ih =>
    intro returns
    have hbody := keepsReturns_block.mp ih true
    simp only [Stmt.explicit, Expr.explicit, Option.getD, Stmt.lower, hbody]
  | assign ht hk hn hv ih =>
    intro returns
    simp only [Stmt.explicit, Stmt.lower, ih.value]
  | leave ht hk =>
    intro returns
    rfl
  | ret ht hk hv ih =>
    intro returns
    have hne := Expr.explicit_ne_missing hv.ne_missing none
    rw [Stmt.explicit, Stmt.lower_ret returns _ hne, Stmt.lower_ret returns _ hv.ne_missing,
      ih.value]
  | whileLoop ht hk hc hb ihc ihb =>
    intro returns
    have hbody := keepsReturns_block.mp ihb false
    simp only [Stmt.explicit, Body.explicit, Stmt.lower, Body.lower, ihc.value, hbody]
  | forLoop ht hk hn hx hb ihx ihb =>
    intro returns
    have hbody := keepsReturns_block.mp ihb false
    simp only [Stmt.explicit, Body.explicit, Stmt.lower, Body.lower, ihx.value, hbody]
  | @exprStatement tok value ht hv ih =>
    intro returns
    have hne := Expr.explicit_ne_missing hv.ne_missing (some returns)
    have hvalue : (value.explicit (some returns)).lower (.statement returns) = _ :=
      ih (.statement returns)
    rw [Stmt.explicit, Expr.lower_asStatement tok hne, hvalue, Stmt.lower]
  | noStatements =>
    intro returns
    rfl
  | @moreStatements s body hs hb ihs ihb =>
    intro returns
    cases body with
    | nil => simp only [Stmt.explicitBody, Stmt.lowerBody, ihs returns]
    | cons t body =>
      have hne := Stmt.explicitBody_ne_nil returns t body
      rw [Stmt.explicitBody, Stmt.lowerBody_cons _ (.inl hne), ihs false, ihb returns,
        Stmt.lowerBody_cons _ (.inl (List.cons_ne_nil t body))]
  | ifThen ht hk hc hy ihc ihy =>
    exact keepsReturns_cond ihc ihy hy.ne_missing rfl fun _ => rfl
  | ifThenElse ht hk hc hy hn ihc ihy ihn =>
    refine keepsReturns_cond ihc ihy hy.ne_missing ?_ fun returns => ihn (.otherwise returns)
    have hne := Expr.explicit_ne_missing hn.ne_missing none
    rw [Expr.lowerAlternative_eq hne, Expr.lowerAlternative_eq hn.ne_missing]
    exact ihn .value
  | block ht hk hb ih => exact keepsReturns_block.mpr ih
  | binary level ht hk hl hr ihl ihr =>
    refine keepsReturns_of_isPlain rfl ?_
    simp only [Expr.explicit, Expr.lower, ihl.value, ihr.value]
  | unary ht hk he ih =>
    refine keepsReturns_of_isPlain rfl ?_
    simp only [Expr.explicit, Expr.lower, ih.value]
  | pipeName ht hk hl hn ihl =>
    refine keepsReturns_of_isPlain rfl ?_
    simp only [Expr.explicit, Expr.lower, ihl.value]
  | pipeCall ht hk hl hp hpk hc ha ihl ihc iha =>
    refine keepsReturns_of_isPlain rfl ?_
    have hargs : _ = Expr.lowerAll _ := iha
    simp only [Expr.explicit, Expr.lower_pipe_call, lowerCallee_explicit ihc.value, ihl.value,
      hargs]
  | call ht hk hc ha ihc iha =>
    refine keepsReturns_of_isPlain rfl ?_
    have hargs : _ = Expr.lowerAll _ := iha
    simp only [Expr.explicit, Expr.lower_call, lowerCallee_explicit ihc.value, hargs]
  | lambda ht hk hps hb ih =>
    refine keepsReturns_of_isPlain rfl ?_
    simp only [Expr.explicit, Expr.lower_lambda, lowerFunction_explicit ih]
  | array ht hk hx ih =>
    refine keepsReturns_of_isPlain rfl ?_
    have hitems : _ = Expr.lowerAll _ := ih
    simp only [Expr.explicit, Expr.lower, hitems]
  | noExprs => rfl
  | moreExprs he hes ihe ihes =>
    have hrest : _ = Expr.lowerAll _ := ihes
    simp only [Tree.KeepsReturns, Expr.explicitAll, Expr.lowerAll, ihe.value, hrest]
  | name | number | string | bool | null => exact keepsReturns_of_isPlain rfl rfl

/-- Returns can be written out in a source text that compiles without changing its code. -/
theorem implicit_returns_are_explicit {source : Bytes} {r : Compiled}
    (h : compile source = .ok r) : r.program.explicit.code = .ok r.code := by
  obtain ⟨hparse, hcode⟩ := compile_eq_ok.mp h
  have hbody : Stmt.lowerBody false r.program.explicit.body = _ :=
    (Program.parse_formed hparse).keepsReturns false
  rw [← hcode]
  simp only [Program.code, Program.lower, hbody]

/-- Choices within a choice, a branch that is no block, an empty one, and a loop that gives no
value. -/
def Grammar.nestedChoices : Bytes :=
  "fn f(x) \x7b while x \x7b x \x7d " ++
    "if x \x7b if g(x) then 1 \x7d else if |y| \x7b y \x7d then 2 else \x7b\x7d \x7d"

def Grammar.nestedChoicesExplicit : Bytes :=
  "fn f(x) \x7b while x \x7b x \x7d; if x \x7b if g(x) \x7b return 1 \x7d \x7d " ++
    "else if |y| \x7b return y \x7d \x7b return 2 \x7d else \x7b\x7d \x7d\n"

theorem implicit_returns_are_explicit_nestedChoices :
    ∃ r, compile nestedChoices = .ok r ∧ r.program.explicit.print = nestedChoicesExplicit ∧
      r.program.explicit.code = .ok r.code := by
  obtain ⟨r, h⟩ := eq_ok_of_isSome (x := compile nestedChoices) (by decide +kernel)
  have hprint : (compile nestedChoices).toOption.map (fun r => r.program.explicit.print) =
      some nestedChoicesExplicit := by
    decide +kernel
  rw [h] at hprint
  exact ⟨r, h, Option.some.inj hprint, implicit_returns_are_explicit h⟩

end PipeCompiler
