import PipeCompiler.Lowering
import PipeCompiler.Program.Basic

/-! Interactive sessions.

Lines are gathered into entries: an entry is as short as it can be, and ends where more text could
not make it right. Each entry is a command or a program, and what a program is answered with depends
on the mode of the session. -/
namespace PipeCompiler.Repl

structure History where
  entries : List Bytes
deriving DecidableEq, Repr

namespace History

def limit : Nat := 1000

/-- A line with this many bytes before its line break is too long to be read. -/
def lineLimit : Nat := 4096

def latest (entries : List Bytes) : History :=
  ⟨entries.drop (entries.length - limit)⟩

def add (h : History) (entry : Bytes) : History :=
  if h.entries.getLast? = some entry then h else latest (h.entries ++ [entry])

def isReadable (line : Bytes) : Bool :=
  (Bytes.dropEnd '\n' line).length < lineLimit && line.isValid

/-- The entries in a history file, up to the first line that cannot be read. -/
def read (content : Bytes) : History :=
  latest (((Bytes.cutLines content).takeWhile isReadable).map Bytes.chomp)

def text (h : History) : Bytes :=
  h.entries.flatMap (· ++ "\n")

end History

def isCommand (source : Bytes) : Bool :=
  (Bytes.trim source).head? = some ':'.toUInt8

def needsMore (source : Bytes) : Bool :=
  match compile source with
  | .error (.diagnostic d) => d.incomplete
  | _ => false

/-- No further line belongs to this entry. -/
def isEntry (source : Bytes) : Bool :=
  isCommand source || !needsMore source

def addLine (source line : Bytes) : Bytes :=
  if source.isEmpty then line else source ++ "\n" ++ line

/-- The next entry, given the part of it that has been read and the lines that follow, and the lines
behind it. There is none if the lines end first. Input is lines only: a prompt of a terminal can
also be aborted, which gives up what has been read for an empty entry, and that is left out. -/
def readEntry (source : Bytes) : List Bytes → Option (Bytes × List Bytes)
  | [] => none
  | line :: lines =>
    let source := addLine source line
    if isEntry source then some (source, lines) else readEntry source lines

theorem readEntry_length {source : Bytes} {lines : List Bytes} {entry : Bytes} {rest : List Bytes}
    (h : readEntry source lines = some (entry, rest)) : rest.length < lines.length := by
  induction lines generalizing source with
  | nil => simp [readEntry] at h
  | cons line lines ih =>
    simp only [readEntry] at h
    split at h
    · simp_all
    · exact Nat.lt_succ_of_lt (ih h)

inductive Mode
  | code
  | tree
  | tokens
deriving DecidableEq, Repr

inductive Event
  | out (text : Bytes)
  | err (text : Bytes)
  | prompt (text : Bytes)
deriving DecidableEq, Repr

structure Session where
  mode : Mode
  history : History
deriving DecidableEq, Repr

def banner : Bytes := "pipelang REPL. Ctrl+D exits, :help lists commands.\n"

def helpText : Bytes :=
  "REPL commands:\n" ++
  "  :js        show generated JavaScript (default)\n" ++
  "  :ast       show the parsed program\n" ++
  "  :tokens    show the token stream\n" ++
  "  :builtins  list runtime functions\n" ++
  "  :help      show this help\n" ++
  "  :quit      exit\n"

def firstPrompt : Bytes := "|> "

def nextPrompt : Bytes := ".. "

def tokenLine (tok : Token) : Bytes :=
  let label := tok.kind.label
  "  " ++ Bytes.ofInt tok.pos.line ++ ":" ++ Bytes.ofInt tok.pos.column ++ "\t" ++ label ++
    List.replicate (10 - label.length) ' '.toUInt8 ++ " " ++ Quoted.text tok.literal ++ "\n"

def afterEmptyLine : Bytes → Bytes
  | [] => []
  | b :: s =>
    match Bytes.after? "\n\n" (b :: s) with
    | some rest => rest
    | none => afterEmptyLine s

def complaint : CompileError → Bytes
  | .diagnostic d => (d.withFile "<repl>").render
  | .lowering e => "Error: emitter: " ++ e.message ++ "\n"

def answer (mode : Mode) (source : Bytes) : Event :=
  match mode with
  | .tokens =>
    match tokenize source with
    | .ok toks => .out ((toks.filter (·.kind ≠ .newline)).flatMap tokenLine)
    | .error e => .err (complaint (.diagnostic (e.diagnostic source)))
  | .tree =>
    match compile source with
    | .ok c => .out c.program.print
    | .error e => .err (complaint e)
  | .code =>
    match compile source with
    | .ok c => .out (afterEmptyLine c.code)
    | .error e => .err (complaint e)

inductive Reaction
  | goOn (session : Session) (events : List Event)
  | leave (session : Session)

namespace Session

def command (s : Session) (name : Bytes) : Reaction :=
  if name == ":quit" || name == ":q" then .leave s
  else if name == ":js" then .goOn { s with mode := .code } []
  else if name == ":ast" then .goOn { s with mode := .tree } []
  else if name == ":tokens" then .goOn { s with mode := .tokens } []
  else if name == ":builtins" then
    .goOn s [.out (Library.entries.flatMap fun entry =>
      "  " ++ Bytes.ofString entry.signature ++ "\n")]
  else if name == ":help" then .goOn s [.out helpText]
  else .goOn s [.out ("unknown command " ++ name ++ ". Type :help for a list.\n")]

/-- Carries out an entry. A blank one does nothing, any other is remembered on one line. -/
def react (s : Session) (entry : Bytes) : Reaction :=
  let trimmed := Bytes.trim entry
  if trimmed.isEmpty then .goOn s []
  else
    let line := entry.map fun b => if b = '\n'.toUInt8 then ' '.toUInt8 else b
    let s := { s with history := s.history.add line }
    if isCommand entry then s.command trimmed else .goOn s [answer s.mode entry]

def prompts (lines : Nat) : List Event :=
  .prompt firstPrompt :: List.replicate (lines - 1) (.prompt nextPrompt)

/-- Runs a session on all of its input. At the end of input the line of the prompt is ended. -/
def run (s : Session) (lines : List Bytes) : List Event × History :=
  match _h : readEntry [] lines with
  | none => (prompts (lines.length + 1) ++ [.out "\n"], s.history)
  | some (entry, rest) =>
    let asked := prompts (lines.length - rest.length)
    match s.react entry with
    | .leave s => (asked, s.history)
    | .goOn s events =>
      let (later, history) := s.run rest
      (asked ++ events ++ later, history)
termination_by lines.length
decreasing_by exact readEntry_length _h

end Session

def run (history : History) (lines : List Bytes) : List Event × History :=
  let (events, history) := Session.run ⟨.code, history⟩ lines
  (.out banner :: events, history)

end PipeCompiler.Repl
