import PipeCompiler.Text.Utf8

/-! The kinds of tokens, positions in a source text, and tokens. -/
namespace PipeCompiler

namespace Token

/-- What a token is. A token list made by hand may hold kinds that no source text has; they are
known by name only. -/
inductive Kind
  | number | string | trueWord | falseWord | nullWord | ident
  | letWord | varWord | fnWord | ifWord | thenWord | elseWord | whileWord | forWord | inWord
  | returnWord
  | plus | minus | asterisk | slash | percent | assign | eq | notEq | lt | lte | gt | gte | bang
  | and | or | pipe | arrow | bar
  | lparen | rparen | lbrace | rbrace | lbracket | rbracket | comma | semicolon
  | eof | newline
  | other (name : Bytes)
deriving DecidableEq, Repr

namespace Kind

def words : List (String × Kind) :=
  [("let", letWord), ("var", varWord), ("fn", fnWord), ("if", ifWord), ("then", thenWord),
    ("else", elseWord), ("while", whileWord), ("for", forWord), ("in", inWord),
    ("return", returnWord), ("true", trueWord), ("false", falseWord), ("null", nullWord)]

/-- The operators and delimiters. An operator that begins like another one stands before it if it
is the longer of the two, so the first that fits is the longest. -/
def operators : List (String × Kind) :=
  [("==", eq), ("=", assign), ("!=", notEq), ("!", bang), ("<=", lte), ("<", lt), (">=", gte),
    (">", gt), ("->", arrow), ("-", minus), ("&&", and), ("||", or), ("|>", pipe), ("|", bar),
    ("+", plus), ("*", asterisk), ("/", slash), ("%", percent), ("(", lparen), (")", rparen),
    ("\x7b", lbrace), ("\x7d", rbrace), ("[", lbracket), ("]", rbracket), (",", comma),
    (";", semicolon)]

def ofName (name : Bytes) : Kind :=
  match words.find? fun (word, _) => Bytes.ofString word == name with
  | some (_, kind) => kind
  | none => ident

def operator? (s : Bytes) : Option (Bytes × Kind × Bytes) :=
  operators.findSome? fun (op, kind) =>
    (Bytes.after? op s).map fun rest => (Bytes.ofString op, kind, rest)

def labels : List (String × Kind) :=
  [("NUMBER", number), ("STRING", string), ("TRUE", trueWord), ("FALSE", falseWord),
    ("NULL", nullWord), ("IDENT", ident), ("LET", letWord), ("VAR", varWord), ("FN", fnWord),
    ("IF", ifWord), ("THEN", thenWord), ("ELSE", elseWord), ("WHILE", whileWord),
    ("FOR", forWord), ("IN", inWord), ("RETURN", returnWord), ("PLUS", plus), ("MINUS", minus),
    ("ASTERISK", asterisk), ("SLASH", slash), ("PERCENT", percent), ("ASSIGN", assign),
    ("EQ", eq), ("NOT_EQ", notEq), ("LT", lt), ("LTE", lte), ("GT", gt), ("GTE", gte),
    ("BANG", bang), ("AND", and), ("OR", or), ("PIPE", pipe), ("ARROW", arrow), ("BAR", bar),
    ("LPAREN", lparen), ("RPAREN", rparen), ("LBRACE", lbrace), ("RBRACE", rbrace),
    ("LBRACKET", lbracket), ("RBRACKET", rbracket), ("COMMA", comma), ("SEMICOLON", semicolon),
    ("EOF", eof), ("NEWLINE", newline)]

def label (kind : Kind) : Bytes :=
  match kind with
  | other name => name
  | kind =>
    match labels.find? (·.2 == kind) with
    | some (name, _) => name
    | none => []

def ofLabel (name : Bytes) : Kind :=
  match labels.find? fun (label, _) => Bytes.ofString label == name with
  | some (_, kind) => kind
  | none => other name

/-- How messages spell a kind: words and operators as they are written, between single quotes. -/
def describe (kind : Kind) : Bytes :=
  match kind with
  | number => "number"
  | string => "string"
  | ident => "identifier"
  | eof => "end of input"
  | newline => "newline"
  | other name => name
  | kind =>
    match (words ++ operators).find? (·.2 == kind) with
    | some (spelling, _) => "'" ++ Bytes.ofString spelling ++ "'"
    | none => []

end Kind
end Token

structure Position where
  line : Int
  column : Int
deriving DecidableEq, Repr, Inhabited

namespace Position

def start : Position := ⟨1, 1⟩

def step (pos : Position) (g : Glyph) : Position :=
  if g = .char '\n' then ⟨pos.line + 1, 1⟩ else ⟨pos.line, pos.column + 1⟩

def advance (pos : Position) (text : Bytes) : Position :=
  (glyphs text).foldl step pos

/-- The position some columns further to the right. Columns are 64-bit numbers: the smallest one
follows the largest. -/
def shift (pos : Position) (columns : Nat) : Position :=
  ⟨pos.line, (pos.column + columns).bmod (Nat.pow 2 64)⟩

end Position

/-- A token. Its `literal` is what it stands for: the value of a string, the text of anything else.
A string also keeps its source text in `raw`, quotes and escapes included. -/
structure Token where
  kind : Token.Kind
  literal : Bytes
  raw : Bytes
  pos : Position
deriving DecidableEq, Repr

end PipeCompiler
