import PipeCompiler.Program.Basic
import PipeCompiler.Proofs.PipeDesugaring
import PipeCompiler.Proofs.Relabelling

/-! What the tokens of a tree are good for.

Of the tokens that a tree keeps only the literals of numbers and truth values are shown in its text,
and none has an influence on its code: both stay the same when all tokens are exchanged. -/
namespace PipeCompiler

open Grammar

variable {P : Token → Prop} {g : Retokening}

namespace Name

@[simp] theorem text_retoken (n : Name) : (n.retoken g).text = n.text := by
  cases n <;> rfl

@[simp] theorem lower_retoken (n : Name) : (n.retoken g).lower = n.lower := by
  cases n <;> rfl

@[simp] theorem lowerCallee_retoken (n : Name) : (n.retoken g).lowerCallee = n.lowerCallee := by
  cases n <;> rfl

@[simp] theorem lowerAll_retoken (ns : List Name) :
    lowerAll (ns.map (Name.retoken g)) = lowerAll ns := by
  induction ns with
  | nil => rfl
  | cons n ns ih =>
    simp only [lowerAll, List.map_cons, List.mapM_cons, lower_retoken] at ih ⊢
    rw [ih]

@[simp] theorem list_retoken (ns : List Name) : list (ns.map (Name.retoken g)) = list ns := by
  rw [list, List.map_map]
  exact congrArg (List.intercalate _) (List.map_congr_left fun n _ => n.text_retoken)

end Name

private theorem Expr.isBlock_retoken (e : Expr) : (e.retoken g).isBlock = e.isBlock := by
  cases e <;> rfl

theorem Expr.isPresent_retoken (e : Expr) : (e.retoken g).isPresent = e.isPresent := by
  cases e <;> rfl

mutual

theorem Stmt.print_retoken (s : Stmt) : (s.retoken g).print = s.print := by
  cases s with
  | missing => rfl
  | declare tok constant name value =>
    simp only [Stmt.retoken, Stmt.print, Name.text_retoken, Expr.print_retoken value]
  | function tok name params body concise =>
    simp only [Stmt.retoken, Stmt.print, Name.text_retoken, Name.list_retoken,
      Expr.print_retoken body]
  | assign tok name value =>
    simp only [Stmt.retoken, Stmt.print, Name.text_retoken, Expr.print_retoken value]
  | ret tok value =>
    simp only [Stmt.retoken, Stmt.print, Expr.isPresent_retoken, Expr.print_retoken value]
  | whileLoop tok test body =>
    simp only [Stmt.retoken, Stmt.print, Expr.print_retoken test, Body.print_retoken body]
  | forLoop tok item items body =>
    simp only [Stmt.retoken, Stmt.print, Name.text_retoken, Expr.print_retoken items,
      Body.print_retoken body]
  | expr tok value => simp only [Stmt.retoken, Stmt.print, Expr.print_retoken value]

theorem Body.print_retoken (body : Body) : (body.retoken g).print = body.print := by
  cases body with
  | missing => rfl
  | block brace stmts => simp only [Body.retoken, Body.print, Stmt.printBlock_retoken stmts]

theorem Expr.print_retoken (e : Expr) : (e.retoken g).print = e.print := by
  cases e with
  | missing => rfl
  | cond tok test yes no =>
    simp only [Expr.retoken, Expr.print, Expr.isBlock_retoken, Expr.isPresent_retoken,
      Expr.print_retoken test, Expr.print_retoken yes, Expr.print_retoken no]
  | block brace body => simp only [Expr.retoken, Expr.print, Stmt.printBlock_retoken body]
  | binary tok left op right =>
    simp only [Expr.retoken, Expr.print, Expr.print_retoken left, Expr.print_retoken right]
  | unary tok op operand => simp only [Expr.retoken, Expr.print, Expr.print_retoken operand]
  | pipe tok left target =>
    simp only [Expr.retoken, Expr.print, Expr.print_retoken left, Expr.print_retoken target]
  | call tok callee args =>
    simp only [Expr.retoken, Expr.print, Expr.print_retoken callee, Expr.prints_retoken args]
  | lambda tok params body =>
    simp only [Expr.retoken, Expr.print, Name.list_retoken, Expr.print_retoken body]
  | name n => exact n.text_retoken
  | number tok value => simp only [Expr.retoken, Expr.print, g.number_literal]
  | string tok value => rfl
  | bool tok value => simp only [Expr.retoken, Expr.print, g.bool_literal]
  | null tok => rfl
  | array tok items => simp only [Expr.retoken, Expr.print, Expr.prints_retoken items]

theorem Stmt.printBlock_retoken (body : List Stmt) :
    Stmt.printBlock (Stmt.retokenAll g body) = Stmt.printBlock body := by
  cases body with
  | nil => rfl
  | cons s body =>
    simp only [Stmt.retokenAll, Stmt.printBlock, Stmt.print_retoken s, Stmt.prints_retoken body]

theorem Stmt.prints_retoken (body : List Stmt) :
    Stmt.prints (Stmt.retokenAll g body) = Stmt.prints body := by
  cases body with
  | nil => rfl
  | cons s body =>
    simp only [Stmt.retokenAll, Stmt.prints, Stmt.print_retoken s, Stmt.prints_retoken body]

theorem Expr.prints_retoken (es : List Expr) :
    Expr.prints (Expr.retokenAll g es) = Expr.prints es := by
  cases es with
  | nil => rfl
  | cons e es =>
    simp only [Expr.retokenAll, Expr.prints, Expr.print_retoken e, Expr.prints_retoken es]

end

theorem Program.print_retoken (p : Program) : (p.retoken g).print = p.print := by
  rw [Program.print, Program.retoken, Stmt.prints_retoken]
  rfl

namespace Expr

private theorem retoken_ne_missing {e : Expr} (h : e ≠ .missing) : e.retoken g ≠ .missing := by
  cases e with
  | missing => exact absurd rfl h
  | _ => nofun

private theorem lowerCallee_retoken {e : Expr} (h : (e.retoken g).lower .value = e.lower .value) :
    (e.retoken g).lowerCallee = e.lowerCallee := by
  cases e with
  | name n => exact n.lowerCallee_retoken
  | _ => exact h

private theorem lowerFunction_retoken {e : Expr}
    (h : ∀ place, (e.retoken g).lower place = e.lower place) (params : List Name) :
    (e.retoken g).lowerFunction (params.map (Name.retoken g)) = e.lowerFunction params := by
  cases e with
  | block brace body =>
    have hbody := h (.branch true)
    simp only [retoken, lower] at hbody
    simp only [retoken, lowerFunction, Name.lowerAll_retoken, hbody]
  | _ => simp only [retoken, lowerFunction, Name.lowerAll_retoken, ← h .value]

end Expr

/-- Exchanging the tokens of a tree does not change its code. -/
def Grammar.Tree.CodeIgnores (g : Retokening) : Tree → Prop
  | .stmt s => ∀ returns, (s.retoken g).lower returns = s.lower returns
  | .body stmts => ∀ returns, Stmt.lowerBody returns (Stmt.retokenAll g stmts) =
      Stmt.lowerBody returns stmts
  | .expr e => ∀ place, (e.retoken g).lower place = e.lower place
  | .exprs es => Expr.lowerAll (Expr.retokenAll g es) = Expr.lowerAll es

private theorem codeIgnores_block {brace : Token} {body : List Stmt} :
    (Tree.expr (.block brace body)).CodeIgnores g ↔ (Tree.body body).CodeIgnores g := by
  constructor
  · intro h returns
    simpa only [Expr.retoken, Expr.lower] using h (.branch returns)
  · intro h place
    rw [Expr.retoken, Expr.lower_block, Expr.lower_block, h]

theorem Grammar.Formed.codeIgnores {t : Tree} (h : Formed P t) : t.CodeIgnores g := by
  induction h with
  | declare ht hk hn hv ih =>
    intro returns
    simp only [Stmt.retoken, Stmt.lower, Name.lower_retoken, ih .value]
  | conciseFunction ht hk hn hps hb ih =>
    intro returns
    simp only [Stmt.retoken, Stmt.lower, Name.lower_retoken, Name.lowerAll_retoken, ih .value]
  | blockFunction ht hk hn hps hb ih =>
    intro returns
    have hbody := codeIgnores_block.mp ih true
    simp only [Stmt.retoken, Expr.retoken, Stmt.lower, Name.lower_retoken, Name.lowerAll_retoken,
      hbody]
  | assign ht hk hn hv ih =>
    intro returns
    simp only [Stmt.retoken, Stmt.lower, Name.lower_retoken, ih .value]
  | leave ht hk =>
    intro returns
    rfl
  | ret ht hk hv ih =>
    intro returns
    have hne := Expr.retoken_ne_missing (g := g) hv.ne_missing
    rw [Stmt.retoken, Stmt.lower_ret returns _ hne, Stmt.lower_ret returns _ hv.ne_missing,
      ih .value]
  | whileLoop ht hk hc hb ihc ihb =>
    intro returns
    have hbody := codeIgnores_block.mp ihb false
    simp only [Stmt.retoken, Body.retoken, Stmt.lower, Body.lower, ihc .value, hbody]
  | forLoop ht hk hn hx hb ihx ihb =>
    intro returns
    have hbody := codeIgnores_block.mp ihb false
    simp only [Stmt.retoken, Body.retoken, Stmt.lower, Body.lower, Name.lower_retoken, ihx .value,
      hbody]
  | exprStatement ht hv ih =>
    intro returns
    simp only [Stmt.retoken, Stmt.lower, ih (.statement returns)]
  | noStatements =>
    intro returns
    rfl
  | @moreStatements s body hs hb ihs ihb =>
    intro returns
    cases body with
    | nil => simp only [Stmt.retokenAll, Stmt.lowerBody, ihs returns]
    | cons t body =>
      have hrest := ihb returns
      simp only [Stmt.retokenAll] at hrest
      simp only [Stmt.retokenAll, Stmt.lowerBody, ihs false, hrest]
  | ifThen ht hk hc hy ihc ihy =>
    intro place
    rw [Expr.retoken, Expr.lower_cond, Expr.lower_cond, ihc, ihy]
    rfl
  | ifThenElse ht hk hc hy hn ihc ihy ihn =>
    intro place
    have hne := Expr.retoken_ne_missing (g := g) hn.ne_missing
    rw [Expr.retoken, Expr.lower_cond, Expr.lower_cond, Expr.lowerAlternative_eq hne,
      Expr.lowerAlternative_eq hn.ne_missing, ihc, ihy, ihn]
  | block ht hk hb ih => exact codeIgnores_block.mpr ih
  | binary level ht hk hl hr ihl ihr =>
    intro place
    simp only [Expr.retoken, Expr.lower, ihl .value, ihr .value]
  | unary ht hk he ih =>
    intro place
    simp only [Expr.retoken, Expr.lower, ih .value]
  | pipeName ht hk hl hn ihl =>
    intro place
    simp only [Expr.retoken, Expr.lower, Name.lowerCallee_retoken, ihl .value]
  | pipeCall ht hk hl hp hpk hc ha ihl ihc iha =>
    intro place
    have hargs : _ = Expr.lowerAll _ := iha
    simp only [Expr.retoken, Expr.lower_pipe_call, Expr.lowerCallee_retoken (ihc .value),
      ihl .value, hargs]
  | call ht hk hc ha ihc iha =>
    intro place
    have hargs : _ = Expr.lowerAll _ := iha
    simp only [Expr.retoken, Expr.lower_call, Expr.lowerCallee_retoken (ihc .value), hargs]
  | lambda ht hk hps hb ih =>
    intro place
    simp only [Expr.retoken, Expr.lower_lambda, Expr.lowerFunction_retoken ih]
  | array ht hk hx ih =>
    intro place
    have hitems : _ = Expr.lowerAll _ := ih
    simp only [Expr.retoken, Expr.lower, hitems]
  | noExprs => rfl
  | moreExprs he hes ihe ihes =>
    have hrest : _ = Expr.lowerAll _ := ihes
    simp only [Tree.CodeIgnores, Expr.retokenAll, Expr.lowerAll, ihe .value, hrest]
  | name | number | string | bool | null =>
    intro place
    simp only [Expr.retoken, Expr.lower, Name.lower_retoken]

theorem Program.code_retoken {p : Program} (h : Formed P (.body p.body)) :
    (p.retoken g).code = p.code := by
  have hbody : Stmt.lowerBody false (p.retoken g).body = _ := h.codeIgnores false
  simp only [Program.code, Program.lower, hbody]

end PipeCompiler
