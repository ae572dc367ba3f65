import PipeCompiler.Text.Quoted
import PipeCompiler.Token.Lexer

/-! Diagnostics: what is wrong with a source text, where, and the report that shows it with the line
it is about. -/
namespace PipeCompiler

inductive Diagnostic.Kind
  | lexical
  | grammatical
  | named (label : Bytes)
deriving DecidableEq, Repr

def Diagnostic.Kind.label : Kind → Bytes
  | lexical => "Lexical"
  | grammatical => "Syntax"
  | named label => label

structure Diagnostic where
  kind : Diagnostic.Kind
  message : Bytes
  source : Bytes
  file : Bytes
  pos : Position
  /-- The text ended too early: more of it may still make it right. -/
  incomplete : Bool
deriving DecidableEq, Repr

namespace Diagnostic

def withFile (d : Diagnostic) (file : Bytes) : Diagnostic :=
  { d with file }

def text (d : Diagnostic) : Bytes :=
  Bytes.ofInt d.pos.line ++ ":" ++ Bytes.ofInt d.pos.column ++ ": " ++ d.kind.label ++ " Error: " ++
    d.message

/-- The line number that a report shows: the nearest that the source has. -/
def shownLine (d : Diagnostic) : Nat :=
  min (max d.pos.line 1).toNat (Bytes.lines d.source).length

def shownText (d : Diagnostic) : Bytes :=
  Bytes.dropTrailing '\r' ((Bytes.lines d.source)[d.shownLine - 1]?.getD [])

def caretOffset (d : Diagnostic) : Nat :=
  (max d.pos.column 1).toNat - 1

def render (d : Diagnostic) : Bytes :=
  let number := Bytes.ofNat d.shownLine
  let gutter : Bytes := List.replicate number.length ' '.toUInt8
  let file : Bytes := if d.file.isEmpty then "<input>" else d.file
  "error: " ++ d.message ++ "\n" ++
    gutter ++ "--> " ++ file ++ ":" ++ Bytes.ofInt d.pos.line ++ ":" ++ Bytes.ofInt d.pos.column ++
      "\n" ++
    gutter ++ " |\n" ++
    number ++ " | " ++ d.shownText ++ "\n" ++
    gutter ++ " | " ++ List.replicate d.caretOffset ' '.toUInt8 ++ "^ " ++ d.message ++ "\n"

end Diagnostic

def Lexeme.Fault.message : Lexeme.Fault → Bytes
  | unexpected g => "Unexpected character '" ++ Bytes.ofChar g.toChar ++ "'"
  | unterminated => "Unterminated string"

/-- More text can still close a string, but nothing makes a lexeme of an unexpected character. -/
def LexicalError.diagnostic (e : LexicalError) (source : Bytes) : Diagnostic where
  kind := .lexical
  message := e.fault.message
  source := source
  file := []
  pos := e.pos
  incomplete := e.fault = .unterminated

end PipeCompiler
