import PipeCompiler.Library
import PipeCompiler.Program.Outline
import PipeCompiler.Program.Parser
import PipeCompiler.Target
import PipeCompiler.Text.Quoted

/-! From programs to generated code, and from source text all the way.

What an expression becomes depends on its `Place`: where its value is used it becomes an expression,
and where it stands as a statement a choice becomes a conditional statement and a block a block. The
last statement of a body that has a value returns it. -/
namespace PipeCompiler

/-- A part of a program that nothing can be made of. No text has such a program, but a tree made by
hand may. A name or the body of a loop that is missing is not reported: it makes the compiler
crash. -/
inductive LoweringError
  | missingStatement
  | missingExpression
  | pipeTarget (target : Expr)
  | functionBody (name : Bytes) (body : Expr)
  | crash

namespace LoweringError

def describe (e : Expr) : Bytes :=
  if e matches .missing then "<nil>" else "*ast." ++ Bytes.ofString e.kindName

def unknownNode (what : Bytes) : Bytes :=
  "emitter: unknown AST node: " ++ what

def message : LoweringError → Bytes
  | missingStatement => unknownNode "statement <nil>"
  | missingExpression => unknownNode "expression <nil>"
  | pipeTarget target => unknownNode ("pipe target " ++ describe target)
  | functionBody name body => unknownNode
      ("block-style function " ++ Quoted.text name ++ " has " ++ describe body ++ " body")
  | crash => "runtime error: invalid memory address or nil pointer dereference"

end LoweringError

namespace Target

/-- The names that generated code cannot bind: reserved words, and names that it relies on. -/
def reservedNames : List String :=
  ["await", "break", "case", "catch", "class", "const", "continue", "debugger", "default", "delete",
    "do", "enum", "export", "extends", "finally", "function", "implements", "import", "instanceof",
    "interface", "new", "package", "private", "protected", "public", "static", "super", "switch",
    "this", "throw", "try", "typeof", "void", "with", "yield", "arguments", "eval", "undefined"]

def isReserved (name : Bytes) : Bool :=
  (reservedNames.map Bytes.ofString).contains name || name == Library.namespaceName

/-- The name of a binding in the generated code: an underscore sets it apart from a reserved one. -/
def bindingName (name : Bytes) : Bytes :=
  if isReserved name then name ++ "_" else name

def binaryOperator (op : Bytes) : Bytes :=
  if op == "==" then "===" else if op == "!=" then "!==" else op

end Target

open Target (bindingName binaryOperator)

/-- Where an expression stands. A statement, a branch or an alternative either returns its value or
drops it. -/
inductive Place
  | value
  | statement (returns : Bool)
  | branch (returns : Bool)
  /-- It follows the first branch of a conditional statement. -/
  | otherwise (returns : Bool)

abbrev Place.Form : Place → Type
  | .value => Target.Expr
  | .statement _ => Target.Stmt
  | .branch _ => List Target.Stmt
  | .otherwise _ => Target.Else

def Target.Stmt.giving (returns : Bool) (e : Target.Expr) : Target.Stmt :=
  if returns then .ret e else .expr e

def Place.give : (place : Place) → Target.Expr → place.Form
  | .value, e => e
  | .statement returns, e => .giving returns e
  | .branch returns, e => [.giving returns e]
  | .otherwise returns, e => .body [.giving returns e]

def Name.lower : Name → Except LoweringError Bytes
  | .missing => throw .crash
  | .mk _ text => return bindingName text

def Name.lowerAll (ns : List Name) : Except LoweringError (List Bytes) :=
  ns.mapM Name.lower

/-- The function that a name in the place of a callee means: of the library or of the program. -/
def Name.lowerCallee : Name → Except LoweringError Target.Expr
  | .missing => throw .crash
  | .mk _ text => return if Library.isName text then .library text else .name (bindingName text)

/-- The arguments of a call that `first` is piped into. Arguments without any text of their own take
no place in the list. -/
def pipedArgs (first : Target.Expr) (args : List Target.Expr) : List Target.Expr :=
  if args matches [.name []] then [first] else first :: args

mutual

def Expr.lower : (place : Place) → Expr → Except LoweringError place.Form
  | .otherwise _, .missing => return .none
  | _, .missing => throw .missingExpression
  | .value, .cond _ test consequence alternative => do
    let test ← test.lower .value
    let yes ← consequence.lower .value
    match alternative with
    | .missing => return .choose test yes .undefined
    | alternative => return .choose test yes (← alternative.lower .value)
  | .statement returns, .cond _ test consequence alternative => do
    let test ← test.lower .value
    let yes ← consequence.lower (.branch returns)
    return .branch test yes (← alternative.lower (.otherwise returns))
  | .branch returns, .cond _ test consequence alternative => do
    let test ← test.lower .value
    let yes ← consequence.lower (.branch returns)
    return [.branch test yes (← alternative.lower (.otherwise returns))]
  | .otherwise returns, .cond _ test consequence alternative => do
    let test ← test.lower .value
    let yes ← consequence.lower (.branch returns)
    return .elseIf test yes (← alternative.lower (.otherwise returns))
  | .value, .block _ body => return .call (.closure [] (← Stmt.lowerBody true body)) []
  | .statement returns, .block _ body => return .block (← Stmt.lowerBody returns body)
  | .branch returns, .block _ body => Stmt.lowerBody returns body
  | .otherwise returns, .block _ body => return .body (← Stmt.lowerBody returns body)
  | place, .binary _ left op right => do
    let left ← left.lower .value
    return place.give (.binary left (binaryOperator op) (← right.lower .value))
  | place, .unary _ op operand => return place.give (.unary op (← operand.lower .value))
  | place, .pipe _ left target => do
    let first ← left.lower .value
    match target with
    | .name n => return place.give (.call (← n.lowerCallee) [first])
    | .call _ (.name n) args =>
      let callee ← n.lowerCallee
      return place.give (.call callee (pipedArgs first (← Expr.lowerAll args)))
    | .call _ callee args =>
      let callee ← callee.lower .value
      return place.give (.call callee (pipedArgs first (← Expr.lowerAll args)))
    | target => throw (.pipeTarget target)
  | place, .call _ (.name n) args => do
    let callee ← n.lowerCallee
    return place.give (.call callee (← Expr.lowerAll args))
  | place, .call _ callee args => do
    let callee ← callee.lower .value
    return place.give (.call callee (← Expr.lowerAll args))
  | place, .lambda _ params (.block _ body) => do
    let params ← Name.lowerAll params
    return place.give (.closure params (← Stmt.lowerBody true body))
  | place, .lambda _ params body => do
    let params ← Name.lowerAll params
    return place.give (.arrow params (← body.lower .value))
  | place, .name n => return place.give (.name (← n.lower))
  | place, .number _ value => return place.give (.number value)
  | place, .string _ value => return place.give (.string value)
  | place, .bool _ value => return place.give (.bool value)
  | place, .null _ => return place.give .null
  | place, .array _ items => return place.give (.array (← Expr.lowerAll items))

def Stmt.lower (returns : Bool) : Stmt → Except LoweringError Target.Stmt
  | .missing => throw .missingStatement
  | .declare _ constant name value => do
    let value ← value.lower .value
    return .declare constant (← name.lower) value
  | .function _ name params body concise => do
    let name' ← name.lower
    let params ← Name.lowerAll params
    match body, concise with
    | body, true => return .function name' params [.ret (← body.lower .value)]
    | .block _ body, false => return .function name' params (← Stmt.lowerBody true body)
    | body, false => throw (.functionBody name.text body)
  | .assign _ name value => do
    let value ← value.lower .value
    return .assign (← name.lower) value
  | .ret _ .missing => return .leave
  | .ret _ value => return .ret (← value.lower .value)
  | .whileLoop _ test body => do
    let test ← test.lower .value
    return .whileLoop test (← body.lower)
  | .forLoop _ item items body => do
    let items ← items.lower .value
    let body ← body.lower
    return .forLoop (← item.lower) items body
  | .expr _ value => value.lower (.statement returns)

def Body.lower : Body → Except LoweringError (List Target.Stmt)
  | .missing => throw .crash
  | .block _ stmts => Stmt.lowerBody false stmts

/-- The code of a body. One that returns its value returns that of its last statement, and an
undefined one if it is empty. -/
def Stmt.lowerBody (returns : Bool) : List Stmt → Except LoweringError (List Target.Stmt)
  | [] => return if returns then [.ret .undefined] else []
  | [last] => return [← last.lower returns]
  | s :: t :: body => do
    let first ← s.lower false
    return first :: (← Stmt.lowerBody returns (t :: body))

def Expr.lowerAll : List Expr → Except LoweringError (List Target.Expr)
  | [] => return []
  | e :: es => do
    let first ← e.lower .value
    return first :: (← Expr.lowerAll es)

end

/-- A name has the same code wherever it is not called. -/
theorem Expr.lower_name (place : Place) (n : Name) :
    (Expr.name n).lower place = n.lower.map fun text => place.give (.name text) := by
  simp only [lower]
  rfl

def Program.lower (p : Program) : Except LoweringError Target.Module :=
  return ⟨← Stmt.lowerBody false p.body⟩

namespace Program

def calledName? : Node → Option Bytes
  | .expr (.call _ (.name n) _) => some n.text
  | .expr (.pipe _ _ (.name n)) => some n.text
  | _ => none

/-- The library functions that a program calls. The list is only made of a program whose loops have
their bodies; the walk through any other breaks off. -/
def libraryCalls (p : Program) : List Bytes :=
  let called := (p.outline.labels.filterMap calledName?).filter Library.isName
  called.eraseDups.mergeSort fun a b => decide (a ≤ b)

end Program

inductive CompileError
  | diagnostic (d : Diagnostic)
  | lowering (e : LoweringError)

structure Compiled where
  program : Program
  code : Bytes

def Program.code (p : Program) : Except LoweringError Bytes :=
  p.lower.map Target.Module.print

def compile (source : Bytes) : Except CompileError Compiled := do
  let p ← (Program.parse source).mapError .diagnostic
  let code ← p.code.mapError .lowering
  return ⟨p, code⟩

end PipeCompiler
