import PipeCompiler.Library
import PipeCompiler.Number
import PipeCompiler.Text.Bytes
import PipeCompiler.Text.Utf8

/-! The JavaScript that programs are compiled to, as trees and as text.

Only the forms that the compiler makes are there, and every expression that needs parentheses
somewhere is printed with them everywhere. A statement is printed on lines of its own, two spaces
deeper for each level of nesting; an expression is printed on one line but for the statements inside
it. -/
namespace PipeCompiler.Target

mutual

inductive Expr
  | name (text : Bytes)
  | library (text : Bytes)
  | number (value : Double)
  | string (value : Bytes)
  | bool (value : Bool)
  | null
  | undefined
  | array (items : List Expr)
  | binary (left : Expr) (op : Bytes) (right : Expr)
  | unary (op : Bytes) (operand : Expr)
  | call (callee : Expr) (args : List Expr)
  | arrow (params : List Bytes) (body : Expr)
  | closure (params : List Bytes) (body : List Stmt)
  | choose (test yes no : Expr)

inductive Stmt
  | declare (constant : Bool) (name : Bytes) (value : Expr)
  | function (name : Bytes) (params : List Bytes) (body : List Stmt)
  | assign (name : Bytes) (value : Expr)
  | ret (value : Expr)
  | leave
  | whileLoop (test : Expr) (body : List Stmt)
  | forLoop (item : Bytes) (items : Expr) (body : List Stmt)
  | expr (value : Expr)
  | block (body : List Stmt)
  | branch (test : Expr) (yes : List Stmt) (no : Else)

/-- What follows the first branch of a conditional statement. -/
inductive Else
  | none
  | body (body : List Stmt)
  | elseIf (test : Expr) (yes : List Stmt) (no : Else)

end

instance : Inhabited Expr := ⟨.undefined⟩

instance : Inhabited Stmt := ⟨.leave⟩

instance : Inhabited Else := ⟨.none⟩

/-- A module: the statements after the import of the library. -/
structure Module where
  body : List Stmt
deriving Inhabited

/-- A number with the fewest digits that read back as the same number, without an exponent. Only the
infinity that a numeral can overflow to has the name that the generated code knows it by. -/
def numberLiteral (x : Double) : Bytes :=
  let sign : Bytes := if x.isNegative then "-" else []
  if Double.infinity < x.ordinal then "NaN"
  else if x.ordinal = Double.infinity then if x.isNegative then "-Inf" else "Infinity"
  else sign ++ (Double.shortest x.ordinal).positional

def shortEscape? (c : Char) : Option Char :=
  match c.toNat with
  | 0x08 => some 'b'
  | 0x09 => some 't'
  | 0x0A => some 'n'
  | 0x0C => some 'f'
  | 0x0D => some 'r'
  | 0x22 => some '"'
  | 0x5C => some '\\'
  | _ => none

/-- A character of a string: control characters and the two Unicode line separators are escaped, any
other character stands for itself. -/
def stringChar (c : Char) : Bytes :=
  match shortEscape? c with
  | some letter => ['\\', letter]
  | none =>
    if c.toNat < 0x20 ∨ c.toNat = 0x2028 ∨ c.toNat = 0x2029 then "\\u" ++ Bytes.hex 4 c.toNat
    else Bytes.ofChar c

/-- A string between double quotes. A stray byte becomes the replacement character. -/
def stringLiteral (s : Bytes) : Bytes :=
  "\"" ++ (glyphs s).flatMap (fun g => stringChar g.toChar) ++ "\""

def indent (depth : Nat) : Bytes :=
  List.replicate (2 * depth) ' '.toUInt8

def commaList (fragments : List Bytes) : Bytes :=
  List.intercalate ", " fragments

mutual

/-- An expression whose line is indented to `depth`. -/
def Expr.print (depth : Nat) : Expr → Bytes
  | .name text => text
  | .library text => Library.namespaceName ++ "." ++ text
  | .number value => numberLiteral value
  | .string value => stringLiteral value
  | .bool value => if value then "true" else "false"
  | .null => "null"
  | .undefined => "undefined"
  | .array items => "[" ++ commaList (Expr.prints depth items) ++ "]"
  | .binary left op right =>
    "(" ++ left.print depth ++ " " ++ op ++ " " ++ right.print depth ++ ")"
  | .unary op operand => "(" ++ op ++ operand.print depth ++ ")"
  | .call callee args => callee.print depth ++ "(" ++ commaList (Expr.prints depth args) ++ ")"
  | .arrow params body => "((" ++ commaList params ++ ") => " ++ body.print depth ++ ")"
  | .closure params body =>
    "((" ++ commaList params ++ ") => \x7b\n" ++ Stmt.prints (depth + 1) body ++ indent depth ++
      "\x7d)"
  | .choose test yes no =>
    "(" ++ test.print depth ++ " ? " ++ yes.print depth ++ " : " ++ no.print depth ++ ")"

def Stmt.print (depth : Nat) : Stmt → Bytes
  | .declare constant name value =>
    indent depth ++ (if constant then "const " else "let ") ++ name ++ " = " ++ value.print depth ++
      ";\n"
  | .function name params body =>
    indent depth ++ "function " ++ name ++ "(" ++ commaList params ++ ") \x7b\n" ++
      Stmt.prints (depth + 1) body ++ indent depth ++ "\x7d\n"
  | .assign name value => indent depth ++ name ++ " = " ++ value.print depth ++ ";\n"
  | .ret value => indent depth ++ "return " ++ value.print depth ++ ";\n"
  | .leave => indent depth ++ "return;\n"
  | .whileLoop test body =>
    indent depth ++ "while (" ++ test.print depth ++ ") \x7b\n" ++ Stmt.prints (depth + 1) body ++
      indent depth ++ "\x7d\n"
  | .forLoop item items body =>
    indent depth ++ "for (const " ++ item ++ " of " ++ items.print depth ++ ") \x7b\n" ++
      Stmt.prints (depth + 1) body ++ indent depth ++ "\x7d\n"
  | .expr value => indent depth ++ value.print depth ++ ";\n"
  | .block body =>
    indent depth ++ "\x7b\n" ++ Stmt.prints (depth + 1) body ++ indent depth ++ "\x7d\n"
  | .branch test yes no =>
    indent depth ++ "if (" ++ test.print depth ++ ") \x7b\n" ++ Stmt.prints (depth + 1) yes ++
      indent depth ++ "\x7d" ++ no.print depth

def Else.print (depth : Nat) : Else → Bytes
  | .none => "\n"
  | .body body =>
    " else \x7b\n" ++ Stmt.prints (depth + 1) body ++ indent depth ++ "\x7d\n"
  | .elseIf test yes no =>
    " else if (" ++ test.print depth ++ ") \x7b\n" ++ Stmt.prints (depth + 1) yes ++
      indent depth ++ "\x7d" ++ no.print depth

def Expr.prints (depth : Nat) : List Expr → List Bytes
  | [] => []
  | e :: es => e.print depth :: Expr.prints depth es

def Stmt.prints (depth : Nat) : List Stmt → Bytes
  | [] => []
  | s :: body => s.print depth ++ Stmt.prints depth body

end

def Module.print (m : Module) : Bytes :=
  "import * as " ++ Library.namespaceName ++ " from '" ++ Library.moduleSpecifier ++ "';\n\n" ++
    Stmt.prints 0 m.body

end PipeCompiler.Target
