import PipeCompiler.Program.Basic

/-! The nodes of a program as an ordered tree, and the walk through it from the root down, in source
order. -/
namespace PipeCompiler

/-- A part of a program that can be visited. Of the parts that a tree lacks, only names and bodies
of loops are visited; a missing name is like any other that has no text. -/
inductive Node
  | program (p : Program)
  | stmt (s : Stmt)
  | expr (e : Expr)
  | missingBody

inductive Outline (α : Type)
  | node (label : α) (children : List (Outline α))

namespace Outline

variable {α : Type}

def label : Outline α → α
  | node label _ => label

mutual

/-- Visits a node and then, if `enter` holds of it, the nodes below it. Each visit shows how many
children the node has. -/
def visit (enter : α → Bool) : Outline α → List (α × Nat)
  | node label children =>
    (label, children.length) :: if enter label then visitAll enter children else []

def visitAll (enter : α → Bool) : List (Outline α) → List (α × Nat)
  | [] => []
  | t :: ts => visit enter t ++ visitAll enter ts

end

def labels (t : Outline α) : List α :=
  (t.visit fun _ => true).map Prod.fst

end Outline

def Name.outline (n : Name) : Outline Node :=
  .node (.expr (.name n)) []

mutual

def Stmt.outline : Stmt → List (Outline Node)
  | .missing => []
  | s@(.declare _ _ name value) => [.node (.stmt s) (name.outline :: value.outline)]
  | s@(.function _ name params body _) =>
    [.node (.stmt s) (name.outline :: params.map Name.outline ++ body.outline)]
  | s@(.assign _ name value) => [.node (.stmt s) (name.outline :: value.outline)]
  | s@(.ret _ value) => [.node (.stmt s) value.outline]
  | s@(.whileLoop _ test body) => [.node (.stmt s) (test.outline ++ [body.outline])]
  | s@(.forLoop _ item items body) =>
    [.node (.stmt s) (item.outline :: items.outline ++ [body.outline])]
  | s@(.expr _ value) => [.node (.stmt s) value.outline]

def Body.outline : Body → Outline Node
  | .missing => .node .missingBody []
  | .block brace stmts => .node (.expr (.block brace stmts)) (Stmt.outlines stmts)

def Expr.outline : Expr → List (Outline Node)
  | .missing => []
  | e@(.cond _ test consequence alternative) =>
    [.node (.expr e) (test.outline ++ consequence.outline ++ alternative.outline)]
  | e@(.block _ body) => [.node (.expr e) (Stmt.outlines body)]
  | e@(.binary _ left _ right) => [.node (.expr e) (left.outline ++ right.outline)]
  | e@(.unary _ _ operand) => [.node (.expr e) operand.outline]
  | e@(.pipe _ left target) => [.node (.expr e) (left.outline ++ target.outline)]
  | e@(.call _ callee args) => [.node (.expr e) (callee.outline ++ Expr.outlines args)]
  | e@(.lambda _ params body) => [.node (.expr e) (params.map Name.outline ++ body.outline)]
  | e@(.array _ items) => [.node (.expr e) (Expr.outlines items)]
  | e@(.name _) | e@(.number ..) | e@(.string ..) | e@(.bool ..) | e@(.null _) =>
    [.node (.expr e) []]

def Stmt.outlines : List Stmt → List (Outline Node)
  | [] => []
  | s :: body => s.outline ++ Stmt.outlines body

def Expr.outlines : List Expr → List (Outline Node)
  | [] => []
  | e :: es => e.outline ++ Expr.outlines es

end

def Program.outline (p : Program) : Outline Node :=
  .node (.program p) (Stmt.outlines p.body)

namespace Node

/-- The trees of a node: one, or none if it is missing. -/
def outlines : Node → List (Outline Node)
  | program p => [p.outline]
  | stmt s => s.outline
  | expr e => e.outline
  | missingBody => [Body.missing.outline]

end Node

def Expr.pos : Expr → Position
  | .missing => default
  | .binary _ left _ _ | .pipe _ left _ | .call _ left _ => left.pos
  | .name n => n.tok.pos
  | .cond tok .. | .block tok _ | .unary tok .. | .lambda tok .. | .number tok _ | .string tok _
  | .bool tok _ | .null tok | .array tok _ => tok.pos

def Stmt.pos : Stmt → Position
  | .missing => default
  | .assign _ name _ => name.tok.pos
  | .declare tok .. | .function tok .. | .ret tok _ | .whileLoop tok .. | .forLoop tok ..
  | .expr tok _ => tok.pos

def Expr.literal : Expr → Bytes
  | .missing => []
  | .name n => n.tok.literal
  | .string tok _ => tok.raw
  | .cond tok .. | .block tok _ | .binary tok .. | .unary tok .. | .pipe tok .. | .call tok ..
  | .lambda tok .. | .number tok _ | .bool tok _ | .null tok | .array tok _ => tok.literal

def Stmt.literal : Stmt → Bytes
  | .missing => []
  | .declare tok .. | .function tok .. | .assign tok .. | .ret tok _ | .whileLoop tok ..
  | .forLoop tok .. | .expr tok _ => tok.literal

namespace Node

/-- Where a node begins. A program begins with its first statement. -/
def pos : Node → Position
  | program p => p.body.head?.elim .start Stmt.pos
  | stmt s => s.pos
  | expr e => e.pos
  | missingBody => default

def literal : Node → Bytes
  | program p => p.body.head?.elim [] Stmt.literal
  | stmt s => s.literal
  | expr e => e.literal
  | missingBody => []

end Node

def Expr.kindName : Expr → String
  | .missing => ""
  | .cond .. => "IfExpression"
  | .block .. => "BlockExpression"
  | .binary .. => "BinaryExpression"
  | .unary .. => "UnaryExpression"
  | .pipe .. => "PipeExpression"
  | .call .. => "CallExpression"
  | .lambda .. => "LambdaExpression"
  | .name _ => "Identifier"
  | .number .. => "NumberLiteral"
  | .string .. => "StringLiteral"
  | .bool .. => "BooleanLiteral"
  | .null _ => "NullLiteral"
  | .array .. => "ArrayLiteral"

def Stmt.kindName : Stmt → String
  | .missing => ""
  | .declare .. => "DeclarationStatement"
  | .function .. => "FunctionDeclaration"
  | .assign .. => "AssignmentStatement"
  | .ret .. => "ReturnStatement"
  | .whileLoop .. => "WhileStatement"
  | .forLoop .. => "ForStatement"
  | .expr .. => "ExpressionStatement"

def Node.kindName : Node → String
  | program _ => "Program"
  | stmt s => s.kindName
  | expr e => e.kindName
  | missingBody => "BlockExpression"

end PipeCompiler
