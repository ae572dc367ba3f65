import PipeCompiler.Proofs.LosslessLexing
import PipeCompiler.Proofs.LoweringTotality
import PipeCompiler.Proofs.Outlines

/-! Pipes are calls.

Written out, `x |> f` is the call `f(x)` and `x |> f(y)` is the call `f(x, y)`. A program and the
one with all its pipes written out have the same code and call the same library functions. -/
namespace PipeCompiler

open Grammar

variable {P : Token → Prop}

mutual

/-- A statement with its pipes written out as calls. -/
def Stmt.writeOut : Stmt → Stmt
  | .missing => .missing
  | .declare tok constant name value => .declare tok constant name value.writeOut
  | .function tok name params body concise => .function tok name params body.writeOut concise
  | .assign tok name value => .assign tok name value.writeOut
  | .ret tok value => .ret tok value.writeOut
  | .whileLoop tok test body => .whileLoop tok test.writeOut body.writeOut
  | .forLoop tok item items body => .forLoop tok item items.writeOut body.writeOut
  | .expr tok value => .expr tok value.writeOut

def Body.writeOut : Body → Body
  | .missing => .missing
  | .block brace stmts => .block brace (Stmt.writeOutAll stmts)

/-- An expression with its pipes written out as calls. -/
def Expr.writeOut : Expr → Expr
  | .missing => .missing
  | .cond tok test consequence alternative =>
    .cond tok test.writeOut consequence.writeOut alternative.writeOut
  | .block brace body => .block brace (Stmt.writeOutAll body)
  | .binary tok left op right => .binary tok left.writeOut op right.writeOut
  | .unary tok op operand => .unary tok op operand.writeOut
  | .pipe tok left target =>
    match target with
    | .name n => .call tok (.name n) [left.writeOut]
    | .call paren callee args =>
      .call paren callee.writeOut (left.writeOut :: Expr.writeOutAll args)
    | target => .pipe tok left.writeOut target.writeOut
  | .call tok callee args => .call tok callee.writeOut (Expr.writeOutAll args)
  | .lambda tok params body => .lambda tok params body.writeOut
  | .name n => .name n
  | .number tok value => .number tok value
  | .string tok value => .string tok value
  | .bool tok value => .bool tok value
  | .null tok => .null tok
  | .array tok items => .array tok (Expr.writeOutAll items)

def Stmt.writeOutAll : List Stmt → List Stmt
  | [] => []
  | s :: body => s.writeOut :: Stmt.writeOutAll body

def Expr.writeOutAll : List Expr → List Expr
  | [] => []
  | e :: es => e.writeOut :: Expr.writeOutAll es

end

/-- A program with its pipes written out as calls. -/
def Program.writeOut (p : Program) : Program :=
  ⟨Stmt.writeOutAll p.body⟩

namespace Grammar.Tree

def writeOut : Tree → Tree
  | .stmt s => .stmt s.writeOut
  | .body stmts => .body (Stmt.writeOutAll stmts)
  | .expr e => .expr e.writeOut
  | .exprs es => .exprs (Expr.writeOutAll es)

/-- Writing out the pipes of a tree does not change its code. -/
def KeepsCode : Tree → Prop
  | .stmt s => ∀ returns, s.writeOut.lower returns = s.lower returns
  | .body stmts => ∀ returns, Stmt.lowerBody returns (Stmt.writeOutAll stmts) =
      Stmt.lowerBody returns stmts
  | .expr e => ∀ place, e.writeOut.lower place = e.lower place
  | .exprs es => Expr.lowerAll (Expr.writeOutAll es) = Expr.lowerAll es

end Grammar.Tree

namespace Expr

-- Pipes become calls; everything else keeps its form, and so the places that look at it see no
-- difference.

private theorem writeOut_ne_missing {e : Expr} (h : e ≠ .missing) : e.writeOut ≠ .missing := by
  cases e with
  | missing => exact absurd rfl h
  | pipe tok left target => cases target <;> nofun
  | _ => nofun

private theorem lowerCallee_writeOut {e : Expr} (h : e.writeOut.lower .value = e.lower .value) :
    e.writeOut.lowerCallee = e.lowerCallee := by
  cases e with
  | name n => rfl
  | pipe tok left target => cases target <;> exact h
  | _ => exact h

private theorem lowerFunction_writeOut {e : Expr} (h : (Tree.expr e).KeepsCode)
    (params : List Name) :
    e.writeOut.lowerFunction params = e.lowerFunction params := by
  have harrow := congrArg (fun code => do
    let params ← Name.lowerAll params
    return Target.Expr.arrow params (← code)) (h .value)
  cases e with
  | block brace body =>
    have hbody := h (.branch true)
    simp only [writeOut, lower] at hbody
    simp only [writeOut, lowerFunction, hbody]
  | pipe tok left target => cases target <;> exact harrow
  | _ => exact harrow

end Expr

/-- A block keeps its code where its body does. -/
theorem keepsCode_block {brace : Token} {body : List Stmt} :
    (Tree.expr (.block brace body)).KeepsCode ↔ (Tree.body body).KeepsCode := by
  constructor
  · intro h returns
    simpa only [Expr.writeOut, Expr.lower] using h (.branch returns)
  · intro h place
    rw [Expr.writeOut, Expr.lower_block, Expr.lower_block, h]

private theorem Target.bindingName_ne_nil {name : Bytes} (h : name ≠ []) :
    bindingName name ≠ [] := by
  unfold bindingName
  split
  · simp [h]
  · exact h

/-- A token that is a name has a text. -/
def Token.Named (tok : Token) : Prop :=
  tok.kind = .ident → tok.literal ≠ []

/-- Only a name becomes a name. -/
theorem Becomes.eq_name {e : Expr} {text : Bytes}
    (h : Becomes P (.expr .value e) (.expr (.name text))) :
    ∃ n, FormedName P n ∧ text = Target.bindingName n.text := by
  generalize hplaced : Placed.expr .value e = placed at h
  generalize hpart : Target.Part.expr (.name text) = part at h
  cases h with
  | name hn =>
    cases hplaced
    cases hpart
    exact ⟨_, hn, rfl⟩
  | _ => cases hplaced <;> cases hpart

/-- Arguments of a source text have a text of their own, so a piped one goes in front of them. -/
theorem Becomes.pipedArgs_eq {args : List Expr} {code : List Target.Expr}
    (h : Becomes P (.exprs args) (.exprs code)) (hP : ∀ tok, P tok → tok.Named)
    (first : Target.Expr) : pipedArgs first code = first :: code := by
  have hne : code ≠ [.name []] := by
    rintro rfl
    cases h with
    | moreExprs he hes =>
      obtain ⟨n, hn, hempty⟩ := he.eq_name
      exact Target.bindingName_ne_nil (hn.text ▸ hP _ hn.tok hn.kind) hempty.symm
  unfold pipedArgs
  split
  · exact absurd rfl hne
  · rfl

theorem Grammar.Formed.keepsCode {t : Tree} (h : Formed Token.Named t) : t.KeepsCode := by
  induction h with
  | declare ht hk hn hv ih =>
    intro returns
    simp only [Stmt.writeOut, Stmt.lower, ih .value]
  | conciseFunction ht hk hn hps hb ih =>
    intro returns
    simp only [Stmt.writeOut, Stmt.lower, ih .value]
  | blockFunction ht hk hn hps hb ih =>
    intro returns
    have hbody := keepsCode_block.mp ih true
    simp only [Stmt.writeOut, Expr.writeOut, Stmt.lower, hbody]
  | assign ht hk hn hv ih =>
    intro returns
    simp only [Stmt.writeOut, Stmt.lower, ih .value]
  | leave ht hk =>
    intro returns
    rfl
  | ret ht hk hv ih =>
    intro returns
    have hne := Expr.writeOut_ne_missing hv.ne_missing
    rw [Stmt.writeOut, Stmt.lower_ret returns _ hne, Stmt.lower_ret returns _ hv.ne_missing,
      ih .value]
  | whileLoop ht hk hc hb ihc ihb =>
    intro returns
    have hbody := keepsCode_block.mp ihb false
    simp only [Stmt.writeOut, Body.writeOut, Stmt.lower, Body.lower, ihc .value, hbody]
  | forLoop ht hk hn hx hb ihx ihb =>
    intro returns
    have hbody := keepsCode_block.mp ihb false
    simp only [Stmt.writeOut, Body.writeOut, Stmt.lower, Body.lower, ihx .value, hbody]
  | exprStatement ht hv ih =>
    intro returns
    simp only [Stmt.writeOut, Stmt.lower, ih (.statement returns)]
  | noStatements =>
    intro returns
    rfl
  | @moreStatements s body hs hb ihs ihb =>
    intro returns
    cases body with
    | nil => simp only [Stmt.writeOutAll, Stmt.lowerBody, ihs returns]
    | cons t body =>
      have hrest := ihb returns
      simp only [Stmt.writeOutAll] at hrest
      simp only [Stmt.writeOutAll, Stmt.lowerBody, ihs false, hrest]
  | ifThen ht hk hc hy ihc ihy =>
    intro place
    rw [Expr.writeOut, Expr.lower_cond, Expr.lower_cond, ihc, ihy]
    rfl
  | ifThenElse ht hk hc hy hn ihc ihy ihn =>
    intro place
    have hne := Expr.writeOut_ne_missing hn.ne_missing
    rw [Expr.writeOut, Expr.lower_cond, Expr.lower_cond, Expr.lowerAlternative_eq hne,
      Expr.lowerAlternative_eq hn.ne_missing, ihc, ihy, ihn]
  | block ht hk hb ih => exact keepsCode_block.mpr ih
  | binary level ht hk hl hr ihl ihr =>
    intro place
    simp only [Expr.writeOut, Expr.lower, ihl .value, ihr .value]
  | unary ht hk he ih =>
    intro place
    simp only [Expr.writeOut, Expr.lower, ih .value]
  | pipeName ht hk hl hn ihl =>
    intro place
    simp only [Expr.writeOut, Expr.lower, Expr.lowerAll, ihl .value, hn.lowerCallee_eq, bind_assoc,
      pure_bind]
    rfl
  | pipeCall ht hk hl hp hpk hc ha ihl ihc iha =>
    -- The call lowers its callee before the piped argument and the pipe after it; as both have
    -- code, the order does not matter.
    intro place
    obtain ⟨first, hfirst, -⟩ := hl.lowers .value
    obtain ⟨callee, hcallee, -⟩ := hc.lowersCallee hc.lowers
    obtain ⟨args, hargs, hbecomes⟩ := ha.lowers
    rw [Expr.lower_pipe_call, Expr.writeOut, Expr.lower_call,
      Expr.lowerCallee_writeOut (ihc .value), Expr.lowerAll, ihl .value, iha, hfirst, hcallee,
      hargs]
    show _ = pure (place.give (.call callee (pipedArgs first args)))
    rw [hbecomes.pipedArgs_eq (fun _ h => h) first]
    rfl
  | call ht hk hc ha ihc iha =>
    intro place
    rw [Expr.writeOut, Expr.lower_call, Expr.lower_call, Expr.lowerCallee_writeOut (ihc .value),
      iha]
  | lambda ht hk hps hb ih =>
    intro place
    rw [Expr.writeOut, Expr.lower_lambda, Expr.lower_lambda, Expr.lowerFunction_writeOut ih]
  | name hn =>
    intro place
    rfl
  | number | string | bool | null =>
    intro place
    rfl
  | array ht hk hx ih =>
    intro place
    have hitems : Expr.lowerAll _ = _ := ih
    simp only [Expr.writeOut, Expr.lower, hitems]
  | noExprs => rfl
  | moreExprs he hes ihe ihes =>
    have hrest : Expr.lowerAll _ = _ := ihes
    simp only [Tree.KeepsCode, Expr.writeOutAll, Expr.lowerAll, ihe .value, hrest]

/-- The text of an expression that is a name. -/
def Expr.name? : Expr → Option Bytes
  | .name n => some n.text
  | _ => none

@[simp] theorem Expr.name?_writeOut (e : Expr) : e.writeOut.name? = e.name? := by
  cases e with
  | pipe tok left target => cases target <;> rfl
  | _ => rfl

theorem calledIn_call (tok : Token) (callee : Expr) (args : List Expr) :
    calledIn (Expr.call tok callee args).outline =
      callee.name?.toList ++ (calledIn callee.outline ++ calledIn (Expr.outlines args)) := by
  cases callee <;> simp [Expr.outline, Program.calledName?, Expr.name?]

theorem calledIn_pipe_call (tok paren : Token) (left callee : Expr) (args : List Expr) :
    calledIn (Expr.pipe tok left (.call paren callee args)).outline =
      calledIn left.outline ++ calledIn (Expr.call paren callee args).outline := by
  rw [Expr.outline]
  simp [Program.calledName?]

/-- Writing out the pipes of a tree moves calls about, but adds no called name and drops none. -/
theorem Grammar.Formed.mem_calledIn_writeOut {t : Tree} (h : Formed P t) (name : Bytes) :
    name ∈ calledIn t.writeOut.outline ↔ name ∈ calledIn t.outline := by
  induction h with
  | pipeName ht hk hl hn ihl =>
    simp_all [Tree.writeOut, Tree.outline, Expr.writeOut, Expr.outline, Expr.outlines,
      Program.calledName?]
  | pipeCall ht hk hl hp hpk hc ha ihl ihc iha =>
    simp only [Tree.writeOut, Tree.outline] at ihl ihc iha
    simp only [Tree.writeOut, Tree.outline, Expr.writeOut, calledIn_pipe_call, calledIn_call,
      Expr.name?_writeOut, Expr.outlines, calledIn_append, List.mem_append, ihl, ihc, iha]
    grind
  | call ht hk hc ha ihc iha =>
    simp only [Tree.writeOut, Tree.outline] at ihc iha
    simp only [Tree.writeOut, Tree.outline, Expr.writeOut, calledIn_call, Expr.name?_writeOut,
      List.mem_append, ihc, iha]
  | _ =>
    -- Every other node stays what it is and calls nothing.
    simp_all [Tree.writeOut, Tree.outline, Stmt.writeOut, Stmt.writeOutAll, Stmt.outline,
      Stmt.outlines, Body.writeOut, Body.outline, Expr.writeOut, Expr.writeOutAll, Expr.outline,
      Expr.outlines, Name.outline, Program.calledName?]

/-- No pipe is left when they are written out. -/
theorem Grammar.Formed.pipe_notMem_writeOut {t : Tree} (h : Formed P t) (tok : Token)
    (left target : Expr) :
    Node.expr (.pipe tok left target) ∉ Outline.labelsAll t.writeOut.outline := by
  induction h with
  | _ =>
    simp_all [Tree.writeOut, Tree.outline, Stmt.writeOut, Stmt.writeOutAll, Stmt.outline,
      Stmt.outlines, Body.writeOut, Body.outline, Expr.writeOut, Expr.writeOutAll, Expr.outline,
      Expr.outlines, Name.outline]

theorem Program.parse_formed {source : Bytes} {p : Program} (h : Program.parse source = .ok p) :
    Formed Token.Named (.body p.body) := by
  obtain ⟨toks, htoks, hp⟩ := Program.parse_eq_ok.mp h
  refine Tokens.parse_formed hp fun tok htok hk => ?_
  have htext := (Cursor.tokens_spell htoks).text_ne_nil htok (by simp [hk])
  simpa [Token.text, hk] using htext

private theorem Program.code_writeOut {p : Program} (h : Formed Token.Named (.body p.body)) :
    p.writeOut.code = p.code := by
  have hbody : Stmt.lowerBody false p.writeOut.body = _ := h.keepsCode false
  simp only [Program.code, Program.lower, hbody]

private theorem Program.libraryCalls_writeOut {p : Program} (h : Formed P (.body p.body)) :
    p.writeOut.libraryCalls = p.libraryCalls := by
  rw [Program.libraryCalls_eq, Program.libraryCalls_eq]
  refine List.filter_congr fun name _ => ?_
  rw [Bool.eq_iff_iff, List.contains_iff_mem, List.contains_iff_mem]
  exact h.mem_calledIn_writeOut name

private theorem Program.pipe_notMem_writeOut {p : Program} (h : Formed P (.body p.body))
    (tok : Token)
    (left target : Expr) : Node.expr (.pipe tok left target) ∉ p.writeOut.outline.labels := by
  have hbody := h.pipe_notMem_writeOut tok left target
  rw [Program.labels_outline, List.mem_cons, not_or]
  exact ⟨nofun, hbody⟩

/-- Pipes are calls: written out in a source text that compiles, they leave no pipe behind and
change neither the code nor the library functions that are called. -/
theorem compiled_pipes_are_calls {source : Bytes} {r : Compiled} (h : compile source = .ok r) :
    r.program.code = .ok r.code ∧
    r.program.writeOut.code = .ok r.code ∧
    r.program.writeOut.libraryCalls = r.program.libraryCalls ∧
    ∀ tok left target,
      Node.expr (.pipe tok left target) ∉ r.program.writeOut.outline.labels := by
  obtain ⟨hparse, hcode⟩ := compile_eq_ok.mp h
  have hformed := Program.parse_formed hparse
  refine ⟨hcode, ?_, Program.libraryCalls_writeOut hformed, Program.pipe_notMem_writeOut hformed⟩
  rw [Program.code_writeOut hformed, hcode]

/-- Pipes within and behind pipes, into a name, a call and a call of a call. -/
def Grammar.nestedPipes : Bytes :=
  "xs |> map(|x| x |> f(1)(y)) |> sum |> print()"

theorem compiled_pipes_are_calls_nestedPipes :
    ∃ r, compile nestedPipes = .ok r ∧ r.program.writeOut.code = .ok r.code ∧
      r.program.writeOut.libraryCalls = r.program.libraryCalls := by
  have hok : (compile nestedPipes).toOption.isSome = true := by decide +kernel
  cases h : compile nestedPipes with
  | error e => simp [h, Except.toOption] at hok
  | ok r =>
    obtain ⟨-, hcode, hcalls, -⟩ := compiled_pipes_are_calls h
    exact ⟨r, rfl, hcode, hcalls⟩

end PipeCompiler
