import PipeCompiler.Command.Build
import PipeCompiler.Command.Scaffold
import PipeCompiler.Repl.Session

/-! Interactive sessions, and whole command lines. -/
namespace PipeCompiler

def historyFileName : Bytes := ".pipelang_history"

namespace Command

def display : Repl.Event → Command Unit
  | .out text => print text
  | .prompt text => print text
  | .err text => printError text

/-- Holds a session on the input. The entries of earlier sessions are found in the file at
`historyPath`, and those of this one are added there. A file that cannot be used is ignored. -/
def interact (historyPath : Bytes) : Command Unit := do
  let w ← get
  let history := match w.disk.read historyPath with
    | .ok content => Repl.History.read content
    | .error _ => ⟨[]⟩
  let (events, history) := Repl.run history (Bytes.readLines w.input)
  events.forM display
  modify fun w =>
    match w.disk.write historyPath history.text with
    | .ok disk => { w with disk }
    | .error _ => w

end Command

structure Environment where
  home : Bytes
  temporary : Bytes
  /-- The program that runs modules if no flag names one; possibly empty. -/
  node : Bytes

def Environment.variables (env : Environment) : List (Bytes × Bytes) :=
  let always : List (Bytes × Bytes) := [("HOME", env.home), ("TMPDIR", env.temporary)]
  if env.node.isEmpty then always else ("PIPELANG_NODE", env.node) :: always

namespace Command

def usageText : Bytes :=
  Bytes.ofString "pipelang compiles .pipe programs into JavaScript modules.\n\nCommands:\n" ++
    "  init   Scaffold a new pipelang project\n" ++
    "  build  Compile a (.pipe) source file into a (.mjs) module\n" ++
    "  run    Compile and execute a source file with node\n" ++
    "  repl   Interactively compile snippets\n"

def handle (launch : Launcher) (env : Environment) (o : CommandLine.Options) :
    CommandLine.Request → Command Unit
  | .usage => print usageText
  | .init directory => init o directory [.main, .ignore]
  | .build sources => build o sources (List.range sources.length)
  | .run source args => run launch env.temporary o source args
  | .repl => interact (Path.join env.home historyFileName)

def perform (launch : Launcher) (env : Environment) (args : List Bytes) : Command Unit := do
  let node := if env.node.isEmpty then defaultProgram else env.node
  match CommandLine.read node args with
  | .error e => throw (.usage e)
  | .ok (o, request) => handle launch env o request

def carryOut (launch : Launcher) (env : Environment) (args : List Bytes) (w : World) :
    Nat × World :=
  match perform launch env args w with
  | .ok () w => (0, w)
  | .error e w => (e.code, { w with err := w.err ++ e.report })

end Command
end PipeCompiler
