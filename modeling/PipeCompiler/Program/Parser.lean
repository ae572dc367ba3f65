import PipeCompiler.Diagnostic
import PipeCompiler.Number
import PipeCompiler.Program.Basic

/-! From tokens to programs, and from source text to programs.

A parser reads from `Tokens`, the tokens up to the end of input, and leaves off at the token that
it fails on. The grammar is layered: each production is a function of the parsers for the phrases
nested in it (`Phrases`). A nested phrase begins behind at least one token of the phrase around it,
so `n` tokens nest at most `n` deep, and `Phrases.upTo n` is right for any input of at most `n`
tokens. Loops over a list of phrases are bounded by the number of tokens in the same way. -/
namespace PipeCompiler

inductive GrammarFault
  | expected (kind : Token.Kind)
  | unexpected
  | pipeTarget
  | badNumber
deriving DecidableEq, Repr

structure GrammarError where
  fault : GrammarFault
  tok : Token
deriving DecidableEq, Repr

namespace GrammarError

def message (e : GrammarError) : Bytes :=
  match e.fault with
  | .expected kind => "Expected " ++ kind.describe ++ " but found " ++ e.tok.kind.describe
  | .unexpected => "Unexpected token " ++ e.tok.kind.describe
  | .pipeTarget => "Pipe target must be a function name or call, found " ++ e.tok.kind.describe
  | .badNumber => "Invalid number literal " ++ Quoted.text e.tok.literal

/-- The fault as a report on a source text. More text may help only where the end of input does not
fit. -/
def diagnostic (e : GrammarError) (source : Bytes) : Diagnostic where
  kind := .grammatical
  message := e.message
  source := source
  file := []
  pos := e.tok.pos
  incomplete := e.tok.kind = .eof

end GrammarError

/-- What a parser has before it: the tokens up to the end of input, and the token that stands for
the end. -/
structure Tokens where
  ahead : List Token
  stop : Token

namespace Tokens

/-- The end-of-input token behind a list that has none: right behind the text of the last token. -/
def stopAfter (toks : List Token) : Token :=
  match toks.getLast? with
  | none => ⟨.eof, [], [], .start⟩
  | some last => ⟨.eof, [], [], last.pos.shift (glyphs last.literal).length⟩

/-- Line breaks mean nothing to the grammar, and nothing behind the end of input is ever seen. -/
def ofList (toks : List Token) : Tokens :=
  let kept := toks.filter (·.kind ≠ .newline)
  match kept.dropWhile (·.kind ≠ .eof) with
  | stop :: _ => ⟨kept.takeWhile (·.kind ≠ .eof), stop⟩
  | [] => ⟨kept, stopAfter kept⟩

def current (ts : Tokens) : Token :=
  ts.ahead.head?.getD ts.stop

/-- The tokens behind the next one. The end of input is never passed. -/
def tail (ts : Tokens) : Tokens :=
  { ts with ahead := ts.ahead.tail }

def startsAssignment (ts : Tokens) : Bool :=
  match ts.ahead with
  | name :: sign :: _ => name.kind == .ident && sign.kind == .assign
  | _ => false

end Tokens

/-- Parsers fail on a token and then leave off at the place where they failed. -/
abbrev Parser := EStateM GrammarError Tokens

namespace Parser

def peek : Parser Token := return (← get).current

def advance : Parser Token := do
  let ts ← get
  set ts.tail
  return ts.current

def accept? (kinds : List Token.Kind) : Parser (Option Token) := do
  if kinds.contains (← peek).kind then return some (← advance) else return none

def expect (kind : Token.Kind) : Parser Token := do
  let tok ← peek
  if tok.kind = kind then advance else throw ⟨.expected kind, tok⟩

def name : Parser Name := do
  let tok ← expect .ident
  return .mk tok tok.literal

def unexpected {α : Type} : Parser α := do
  throw ⟨.unexpected, ← peek⟩

def moreItems {α : Type} (item : Parser α) : Nat → Parser (List α)
  | 0 => return []
  | bound + 1 => do
    match ← accept? [.comma] with
    | none => return []
    | some _ =>
      let x ← item
      return x :: (← moreItems item bound)

def itemsFrom {α : Type} (bound : Nat) (item : Parser α) (closing : Token.Kind) :
    Parser (List α) := do
  let x ← item
  let xs ← moreItems item bound
  let _ ← expect closing
  return x :: xs

def items {α : Type} (bound : Nat) (item : Parser α) (closing : Token.Kind) : Parser (List α) := do
  match ← accept? [closing] with
  | some _ => return []
  | none => itemsFrom bound item closing

/-- Makes an expression wider as long as a token of one of the kinds announces a suffix. -/
def extend (kinds : List Token.Kind) (suffix : Expr → Token → Parser Expr) :
    Nat → Expr → Parser Expr
  | 0, e => return e
  | bound + 1, e => do
    match ← accept? kinds with
    | none => return e
    | some tok => extend kinds suffix bound (← suffix e tok)

def statements (stops : List Token.Kind) (statement : Parser Stmt) : Nat → Parser (List Stmt)
  | 0 => return []
  | bound + 1 => do
    if stops.contains (← peek).kind then return []
    else
      let s ← statement
      return s :: (← statements stops statement bound)

end Parser

open PipeCompiler.Parser

/-- The parsers for phrases nested in a phrase. They are right if no more than `bound` tokens are
ahead. -/
structure Phrases where
  bound : Nat
  expr : Parser Expr
  unary : Parser Expr
  cond : Parser Expr
  block : Parser (Token × List Stmt)

namespace Phrases

/-- The binary operators by tiers, from the loosest to the tightest. Those of one tier associate to
the left. -/
def tiers : List (List Token.Kind) :=
  [[.or], [.and], [.eq, .notEq], [.lt, .lte, .gt, .gte], [.plus, .minus],
    [.asterisk, .slash, .percent]]

def declaration (inner : Phrases) : Parser Stmt := do
  let tok ← advance
  let target ← name
  let _ ← expect .assign
  return .declare tok (tok.kind = .letWord) target (← inner.expr)

def function (inner : Phrases) : Parser Stmt := do
  let tok ← advance
  let target ← name
  let _ ← expect .lparen
  let params ← items inner.bound name .rparen
  match ← accept? [.assign] with
  | some _ => return .function tok target params (← inner.expr) true
  | none =>
    let (brace, body) ← inner.block
    return .function tok target params (.block brace body) false

/-- What follows the word `return`: nothing if a statement can end there. -/
def returned (inner : Phrases) (tok : Token) : Parser Stmt := do
  match (← peek).kind with
  | .rbrace | .semicolon | .eof => return .ret tok .missing
  | _ => return .ret tok (← inner.expr)

def whileLoop (inner : Phrases) : Parser Stmt := do
  let tok ← advance
  let test ← inner.expr
  let (brace, body) ← inner.block
  return .whileLoop tok test (.block brace body)

def forLoop (inner : Phrases) : Parser Stmt := do
  let tok ← advance
  let item ← name
  let _ ← expect .inWord
  let list ← inner.expr
  let (brace, body) ← inner.block
  return .forLoop tok item list (.block brace body)

def simple (inner : Phrases) (first : Token) : Parser Stmt := do
  if (← get).startsAssignment then
    let target ← name
    let tok ← expect .assign
    return .assign tok target (← inner.expr)
  else return .expr first (← inner.expr)

def bareStatement (inner : Phrases) : Parser Stmt := do
  let first ← peek
  match first.kind with
  | .letWord | .varWord => inner.declaration
  | .fnWord => inner.function
  | .returnWord => inner.returned (← advance)
  | .whileWord => inner.whileLoop
  | .forWord => inner.forLoop
  | _ => inner.simple first

def statement (inner : Phrases) : Parser Stmt := do
  let s ← inner.bareStatement
  let _ ← accept? [.semicolon]
  return s

def blockBody (inner : Phrases) : Parser (Token × List Stmt) := do
  let brace ← expect .lbrace
  let body ← statements [.rbrace, .eof] inner.statement inner.bound
  let _ ← expect .rbrace
  return (brace, body)

def blockOrExpr (inner : Phrases) : Parser Expr := do
  if (← peek).kind = .lbrace then
    let (brace, body) ← inner.block
    return .block brace body
  else inner.expr

def consequence (inner : Phrases) : Parser Expr := do
  if (← peek).kind ≠ .lbrace then
    let _ ← expect .thenWord
  inner.blockOrExpr

def otherwise (inner : Phrases) : Parser Expr := do
  if (← peek).kind = .ifWord then inner.cond else inner.blockOrExpr

def alternative (inner : Phrases) : Parser Expr := do
  match ← accept? [.elseWord] with
  | none => return .missing
  | some _ => inner.otherwise

def choice (inner : Phrases) : Parser Expr := do
  let tok ← advance
  let test ← inner.expr
  let consequence ← inner.consequence
  return .cond tok test consequence (← inner.alternative)

/-- An anonymous function: parameters between bars, then its body. Two bars in one token are an
empty list of parameters. -/
def lambda (inner : Phrases) : Parser Expr := do
  let tok ← advance
  let params ← if tok.kind = .bar then items inner.bound name .bar else pure []
  return .lambda tok params (← inner.blockOrExpr)

def primary (inner : Phrases) : Parser Expr := do
  let tok ← peek
  match tok.kind with
  | .ifWord => inner.choice
  | .lbrace =>
    let (brace, body) ← inner.blockBody
    return .block brace body
  | .bar | .or => inner.lambda
  | .lbracket =>
    let _ ← advance
    return .array tok (← items inner.bound inner.expr .rbracket)
  | .lparen =>
    let _ ← advance
    let e ← inner.expr
    let _ ← expect .rparen
    return e
  | .number =>
    let _ ← advance
    match Double.read? tok.literal with
    | some value => return .number tok value
    | none => throw ⟨.badNumber, tok⟩
  | .string =>
    let _ ← advance
    return .string tok tok.literal
  | .trueWord | .falseWord =>
    let _ ← advance
    return .bool tok (tok.kind = .trueWord)
  | .nullWord =>
    let _ ← advance
    return .null tok
  | .ident => return .name (← name)
  | _ => unexpected

def arguments (inner : Phrases) (callee : Expr) (tok : Token) : Parser Expr := do
  return .call tok callee (← items inner.bound inner.expr .rparen)

def call (inner : Phrases) : Parser Expr := do
  extend [.lparen] inner.arguments inner.bound (← inner.primary)

def unaryChain (inner : Phrases) : Parser Expr := do
  match ← accept? [.bang, .minus] with
  | some op => return .unary op op.literal (← inner.unary)
  | none => inner.call

def rightOperand (operand : Parser Expr) (left : Expr) (op : Token) : Parser Expr := do
  return .binary op left op.literal (← operand)

def binaryChain (bound : Nat) (ops : List Token.Kind) (operand : Parser Expr) : Parser Expr := do
  extend ops (rightOperand operand) bound (← operand)

def operation (inner : Phrases) : Parser Expr :=
  tiers.foldr (binaryChain inner.bound) inner.unaryChain

def isPipeTarget : Expr → Bool
  | .name _ | .call .. => true
  | _ => false

def pipeTarget (inner : Phrases) (left : Expr) (tok : Token) : Parser Expr := do
  let first ← peek
  let target ← inner.operation
  if isPipeTarget target then return .pipe tok left target
  else throw ⟨.pipeTarget, first⟩

def pipeline (inner : Phrases) : Parser Expr := do
  extend [.pipe] inner.pipeTarget inner.bound (← inner.operation)

def around (inner : Phrases) : Phrases where
  bound := inner.bound + 1
  expr := inner.pipeline
  unary := inner.unaryChain
  cond := inner.choice
  block := inner.blockBody

/-- Nothing begins at the end of input. -/
def atStop : Phrases where
  bound := 0
  expr := unexpected
  unary := unexpected
  cond := unexpected
  block := do throw ⟨.expected .lbrace, ← peek⟩

def upTo : Nat → Phrases
  | 0 => atStop
  | n + 1 => (upTo n).around

end Phrases

namespace Parser

def program : Parser Program := do
  let bound := (← get).ahead.length
  return ⟨← statements [.eof] (Phrases.upTo bound).statement bound⟩

end Parser

/-- Reads a program to the end of input, and says how far it got. -/
def Tokens.parse (ts : Tokens) : Except GrammarError Program × Tokens :=
  match Parser.program ts with
  | .ok p rest => (.ok p, rest)
  | .error e rest => (.error e, rest)

def Program.parse (source : Bytes) : Except Diagnostic Program :=
  match tokenize source with
  | .error e => .error (e.diagnostic source)
  | .ok toks => ((Tokens.ofList toks).parse.1).mapError (·.diagnostic source)

end PipeCompiler
