import PipeCompiler.Proofs.UniqueReadability

/-! The trees of generated code.

`WellSpelled part` says that every name in a part of a module is a name, that only the functions of
the library are taken from it, and that every operator is one. The code of a source text is of this
form wherever it stands, so what holds of all such parts holds of all generated code. -/
namespace PipeCompiler

open Grammar
open Target (bindingName binaryOperator)

namespace Target

/-- The operators between two operands. -/
def binaryOperators : List String :=
  ["||", "&&", "===", "!==", "<", "<=", ">", ">=", "+", "-", "*", "/", "%"]

/-- The operators before an operand. -/
def unaryOperators : List String :=
  ["!", "-"]

inductive Part.WellSpelled : Part → Prop
  -- Expressions.
  | name {text : Bytes} (h : Lexeme.IsName text) : WellSpelled (.expr (.name text))
  | library {text : Bytes} (h : Library.isName text = true) : WellSpelled (.expr (.library text))
  | number (value : Double) : WellSpelled (.expr (.number value))
  | string (value : Bytes) : WellSpelled (.expr (.string value))
  | bool (value : Bool) : WellSpelled (.expr (.bool value))
  | null : WellSpelled (.expr .null)
  | undefined : WellSpelled (.expr .undefined)
  | array {items : List Expr} (h : WellSpelled (.exprs items)) : WellSpelled (.expr (.array items))
  | binary {left right : Expr} {op : String} (hl : WellSpelled (.expr left))
      (hop : op ∈ binaryOperators) (hr : WellSpelled (.expr right)) :
      WellSpelled (.expr (.binary left op right))
  | unary {op : String} {operand : Expr} (hop : op ∈ unaryOperators)
      (h : WellSpelled (.expr operand)) : WellSpelled (.expr (.unary op operand))
  | call {callee : Expr} {args : List Expr} (hc : WellSpelled (.expr callee))
      (ha : WellSpelled (.exprs args)) : WellSpelled (.expr (.call callee args))
  | arrow {params : List Bytes} {body : Expr} (hps : ∀ p ∈ params, Lexeme.IsName p)
      (h : WellSpelled (.expr body)) : WellSpelled (.expr (.arrow params body))
  | closure {params : List Bytes} {body : List Stmt} (hps : ∀ p ∈ params, Lexeme.IsName p)
      (h : WellSpelled (.body body)) : WellSpelled (.expr (.closure params body))
  | choose {test yes no : Expr} (ht : WellSpelled (.expr test)) (hy : WellSpelled (.expr yes))
      (hn : WellSpelled (.expr no)) : WellSpelled (.expr (.choose test yes no))
  | noExprs : WellSpelled (.exprs [])
  | moreExprs {e : Expr} {es : List Expr} (he : WellSpelled (.expr e))
      (hes : WellSpelled (.exprs es)) : WellSpelled (.exprs (e :: es))
  -- Statements.
  | declare {constant : Bool} {name : Bytes} {value : Expr} (hn : Lexeme.IsName name)
      (hv : WellSpelled (.expr value)) : WellSpelled (.stmt (.declare constant name value))
  | function {name : Bytes} {params : List Bytes} {body : List Stmt} (hn : Lexeme.IsName name)
      (hps : ∀ p ∈ params, Lexeme.IsName p) (hb : WellSpelled (.body body)) :
      WellSpelled (.stmt (.function name params body))
  | assign {name : Bytes} {value : Expr} (hn : Lexeme.IsName name)
      (hv : WellSpelled (.expr value)) : WellSpelled (.stmt (.assign name value))
  | ret {value : Expr} (hv : WellSpelled (.expr value)) : WellSpelled (.stmt (.ret value))
  | leave : WellSpelled (.stmt .leave)
  | whileLoop {test : Expr} {body : List Stmt} (ht : WellSpelled (.expr test))
      (hb : WellSpelled (.body body)) : WellSpelled (.stmt (.whileLoop test body))
  | forLoop {item : Bytes} {items : Expr} {body : List Stmt} (hn : Lexeme.IsName item)
      (hx : WellSpelled (.expr items)) (hb : WellSpelled (.body body)) :
      WellSpelled (.stmt (.forLoop item items body))
  | exprStatement {value : Expr} (hv : WellSpelled (.expr value)) :
      WellSpelled (.stmt (.expr value))
  | block {body : List Stmt} (hb : WellSpelled (.body body)) : WellSpelled (.stmt (.block body))
  | branch {test : Expr} {yes : List Stmt} {no : Else} (ht : WellSpelled (.expr test))
      (hy : WellSpelled (.body yes)) (hn : WellSpelled (.otherwise no)) :
      WellSpelled (.stmt (.branch test yes no))
  | noStatements : WellSpelled (.body [])
  | moreStatements {s : Stmt} {body : List Stmt} (hs : WellSpelled (.stmt s))
      (hb : WellSpelled (.body body)) : WellSpelled (.body (s :: body))
  -- Alternatives.
  | noElse : WellSpelled (.otherwise .none)
  | elseBody {body : List Stmt} (hb : WellSpelled (.body body)) :
      WellSpelled (.otherwise (.body body))
  | elseIf {test : Expr} {yes : List Stmt} {no : Else} (ht : WellSpelled (.expr test))
      (hy : WellSpelled (.body yes)) (hn : WellSpelled (.otherwise no)) :
      WellSpelled (.otherwise (.elseIf test yes no))

variable {e : Expr} {s : Stmt}

theorem Part.WellSpelled.giving (h : WellSpelled (.expr e)) (returns : Bool) :
    WellSpelled (.stmt (.giving returns e)) := by
  cases returns with
  | true => exact .ret h
  | false => exact .exprStatement h

theorem Part.WellSpelled.alone (h : WellSpelled (.stmt s)) : WellSpelled (.body [s]) :=
  .moreStatements h .noStatements

end Target

open Target (Part)

section

variable {place : Place}

private theorem wellSpelled_give {e : Target.Expr} (h : (Part.expr e).WellSpelled) :
    (place.part (place.give e)).WellSpelled := by
  cases place with
  | value => exact h
  | statement returns => exact h.giving returns
  | branch returns => exact (h.giving returns).alone
  | otherwise returns => exact .elseBody (h.giving returns).alone

private theorem wellSpelled_ofBody {body : List Target.Stmt} (h : (Part.body body).WellSpelled) :
    (place.part (place.ofBody body)).WellSpelled := by
  cases place with
  | value => exact .call (.closure (List.forall_mem_nil _) h) .noExprs
  | statement returns => exact .block h
  | branch returns => exact h
  | otherwise returns => exact .elseBody h

private theorem wellSpelled_choose {t : Target.Expr} {y : place.consequence.Form}
    {n : place.alternative.Form} (ht : (Part.expr t).WellSpelled)
    (hy : (place.consequence.part y).WellSpelled) (hn : (place.alternative.part n).WellSpelled) :
    (place.part (place.choose t y n)).WellSpelled := by
  cases place with
  | value => exact .choose ht hy hn
  | statement returns => exact .branch ht hy hn
  | branch returns => exact .alone (.branch ht hy hn)
  | otherwise returns => exact .elseIf ht hy hn

private theorem wellSpelled_nothing : (place.alternative.part place.nothing).WellSpelled := by
  cases place with
  | value => exact .undefined
  | _ => exact .noElse

end

private theorem binaryOperator_mem {level : Level} {op : Token} (h : op.WellSpelled)
    (hk : op.kind ∈ level.operators) :
    ∃ sign ∈ Target.binaryOperators, binaryOperator op.literal = sign := by
  have hall : ∀ level : Level, ∀ kind ∈ level.operators, ∃ x ∈ Token.Kind.operators, x.2 = kind ∧
      ∃ sign ∈ Target.binaryOperators, binaryOperator x.1 = Bytes.ofString sign := by
    intro level
    cases level <;> decide
  obtain ⟨⟨text, kind⟩, hx, rfl, hsign⟩ := hall level _ hk
  rwa [h.operator text hx]

private theorem unaryOperator_mem {op : Token} (h : op.WellSpelled)
    (hk : op.kind = .bang ∨ op.kind = .minus) :
    ∃ sign ∈ Target.unaryOperators, op.literal = sign := by
  rcases sign_of_unary h hk with hsign | hsign
  · exact ⟨"-", by decide, hsign⟩
  · exact ⟨"!", by decide, hsign⟩

private theorem wellSpelled_callee {n : Name} (h : FormedName Token.WellSpelled n) :
    (Part.expr n.callee).WellSpelled := by
  unfold Name.callee
  split
  · rename_i hlibrary
    exact .library hlibrary
  · exact .name (isName_binding h)

private theorem wellSpelled_pipedArgs {first : Target.Expr} {args : List Target.Expr}
    (h : (Part.expr first).WellSpelled) (hargs : (Part.exprs args).WellSpelled) :
    (Part.exprs (pipedArgs first args)).WellSpelled := by
  unfold pipedArgs
  split
  · exact .moreExprs h .noExprs
  · exact .moreExprs h hargs

/-- The code of a source text is well spelled. -/
theorem Becomes.wellSpelled {placed : Placed} {part : Part}
    (h : Becomes Token.WellSpelled placed part) : part.WellSpelled := by
  induction h with
  | declare hn hv ih => exact .declare (isName_binding hn) ih
  | conciseFunction hn hps hb ih =>
    exact .function (isName_binding hn) (isName_params hps) (.alone (.ret ih))
  | blockFunction hn hps hb ih => exact .function (isName_binding hn) (isName_params hps) ih
  | assign hn hv ih => exact .assign (isName_binding hn) ih
  | leave => exact .leave
  | ret hv ih => exact .ret ih
  | whileLoop ht hb iht ihb => exact .whileLoop iht ihb
  | forLoop hn hx hb ihx ihb => exact .forLoop (isName_binding hn) ihx ihb
  | exprStatement hv ih => exact ih
  | @noStatements returns =>
    cases returns with
    | true => exact .alone (.ret .undefined)
    | false => exact .noStatements
  | lastStatement hs ih => exact ih.alone
  | moreStatements hs hb ihs ihb => exact .moreStatements ihs ihb
  | ifThen ht hy iht ihy => exact wellSpelled_choose iht ihy wellSpelled_nothing
  | ifThenElse ht hy hn iht ihy ihn => exact wellSpelled_choose iht ihy ihn
  | block hb ih => exact wellSpelled_ofBody ih
  | binary level ht hk hl hr ihl ihr =>
    obtain ⟨sign, hsign, htext⟩ := binaryOperator_mem ht hk
    rw [htext]
    exact wellSpelled_give (.binary ihl hsign ihr)
  | unary ht hk hx ih =>
    obtain ⟨sign, hsign, htext⟩ := unaryOperator_mem ht hk
    rw [htext]
    exact wellSpelled_give (.unary hsign ih)
  | pipeName hl hn ih =>
    exact wellSpelled_give (.call (wellSpelled_callee hn) (.moreExprs ih .noExprs))
  | pipeCall hl hc ha ihl ihc iha =>
    exact wellSpelled_give (.call ihc (wellSpelled_pipedArgs ihl iha))
  | call hc ha ihc iha => exact wellSpelled_give (.call ihc iha)
  | closure hps hb ih => exact wellSpelled_give (.closure (isName_params hps) ih)
  | arrow hps hb ih => exact wellSpelled_give (.arrow (isName_params hps) ih)
  | name hn => exact wellSpelled_give (.name (isName_binding hn))
  | number => exact wellSpelled_give (.number _)
  | string => exact wellSpelled_give (.string _)
  | bool => exact wellSpelled_give (.bool _)
  | null => exact wellSpelled_give .null
  | array hx ih => exact wellSpelled_give (.array ih)
  | calleeName hn => exact wellSpelled_callee hn
  | callee hne he ih => exact ih
  | noExprs => exact .noExprs
  | moreExprs he hes ihe ihes => exact .moreExprs ihe ihes

end PipeCompiler
