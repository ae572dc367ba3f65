import PipeCompiler.Number
import PipeCompiler.Text.Quoted
import PipeCompiler.Token.Basic

/-! Programs as trees of statements and expressions, and as source text.

A program that was read from a text has all of its parts but for two: a bare return has no value,
and a choice need not have an alternative. A tree made by hand may lack a part anywhere, so a name,
a statement, an expression and the body of a loop can each be `missing`. In the text operations
stand in parentheses, so it does not depend on how tightly operators bind. -/
namespace PipeCompiler

inductive Name
  | missing
  | mk (tok : Token) (text : Bytes)
deriving DecidableEq, Repr

namespace Name

def tok : Name → Token
  | missing => ⟨.eof, [], [], default⟩
  | mk tok _ => tok

def text : Name → Bytes
  | missing => []
  | mk _ text => text

end Name

mutual

/-- Statements. Each keeps the token that it is located by: an assignment its `=`, an expression in
the place of a statement its first token. -/
inductive Stmt
  | missing
  | declare (tok : Token) (constant : Bool) (name : Name) (value : Expr)
  /-- A function. A concise one gives its value after `=`, any other has a block for a body. -/
  | function (tok : Token) (name : Name) (params : List Name) (body : Expr) (concise : Bool)
  | assign (tok : Token) (name : Name) (value : Expr)
  | ret (tok : Token) (value : Expr)
  | whileLoop (tok : Token) (test : Expr) (body : Body)
  | forLoop (tok : Token) (item : Name) (items : Expr) (body : Body)
  | expr (tok : Token) (value : Expr)

inductive Body
  | missing
  | block (brace : Token) (stmts : List Stmt)

inductive Expr
  | missing
  | cond (tok : Token) (test consequence alternative : Expr)
  | block (brace : Token) (body : List Stmt)
  | binary (tok : Token) (left : Expr) (op : Bytes) (right : Expr)
  | unary (tok : Token) (op : Bytes) (operand : Expr)
  | pipe (tok : Token) (left target : Expr)
  | call (tok : Token) (callee : Expr) (args : List Expr)
  | lambda (tok : Token) (params : List Name) (body : Expr)
  | name (name : Name)
  | number (tok : Token) (value : Double)
  | string (tok : Token) (value : Bytes)
  | bool (tok : Token) (value : Bool)
  | null (tok : Token)
  | array (tok : Token) (items : List Expr)

end

instance : Inhabited Stmt := ⟨.missing⟩

instance : Inhabited Expr := ⟨.missing⟩

structure Program where
  body : List Stmt
deriving Inhabited

def Name.list (names : List Name) : Bytes :=
  List.intercalate ", " (names.map Name.text)

def Expr.isBlock : Expr → Bool
  | .block .. => true
  | _ => false

def Expr.isPresent : Expr → Bool
  | .missing => false
  | _ => true

mutual

def Stmt.print : Stmt → Bytes
  | .missing => []
  | .declare _ constant name value =>
    (if constant then "let " else "var ") ++ name.text ++ " = " ++ value.print
  | .function _ name params body concise =>
    "fn " ++ name.text ++ "(" ++ Name.list params ++ ")" ++ (if concise then " = " else " ") ++
      body.print
  | .assign _ name value => name.text ++ " = " ++ value.print
  | .ret _ value => if value.isPresent then "return " ++ value.print else "return"
  | .whileLoop _ test body => "while " ++ test.print ++ " " ++ body.print
  | .forLoop _ item items body =>
    "for " ++ item.text ++ " in " ++ items.print ++ " " ++ body.print
  | .expr _ value => value.print

def Body.print : Body → Bytes
  | .missing => []
  | .block _ stmts => Stmt.printBlock stmts

/-- The text of an expression. Literals other than strings are written as their token was. -/
def Expr.print : Expr → Bytes
  | .missing => []
  | .cond _ test consequence alternative =>
    "if " ++ test.print ++ (if consequence.isBlock then " " else " then ") ++ consequence.print ++
      (if alternative.isPresent then " else " ++ alternative.print else [])
  | .block _ body => Stmt.printBlock body
  | .binary _ left op right => "(" ++ left.print ++ " " ++ op ++ " " ++ right.print ++ ")"
  | .unary _ op operand => "(" ++ op ++ operand.print ++ ")"
  | .pipe _ left target => "(" ++ left.print ++ " |> " ++ target.print ++ ")"
  | .call _ callee args => callee.print ++ "(" ++ List.intercalate ", " (Expr.prints args) ++ ")"
  | .lambda _ params body => "|" ++ Name.list params ++ "| " ++ body.print
  | .name name => name.text
  | .number tok _ => tok.literal
  | .string _ value => Quoted.text value
  | .bool tok _ => tok.literal
  | .null _ => "null"
  | .array _ items => "[" ++ List.intercalate ", " (Expr.prints items) ++ "]"

def Stmt.printBlock : List Stmt → Bytes
  | [] => "\x7b\x7d"
  | s :: body => "\x7b " ++ List.intercalate "; " (s.print :: Stmt.prints body) ++ " \x7d"

def Stmt.prints : List Stmt → List Bytes
  | [] => []
  | s :: body => s.print :: Stmt.prints body

def Expr.prints : List Expr → List Bytes
  | [] => []
  | e :: es => e.print :: Expr.prints es

end

def Program.print (p : Program) : Bytes :=
  (Stmt.prints p.body).flatMap (· ++ "\n")

end PipeCompiler
