import PipeCompiler.Command.Perform

/-! The command line. Commands work on a value that stands for the files they can reach: it is read
before the command, and what has changed is written after it. Only interactive sessions read and
write as they go on. -/
namespace PipeCompiler.CommandLine

def bytesOf (s : String) : Bytes := s.toUTF8.toList

def textOf (s : Bytes) : String :=
  (String.fromUTF8? ⟨s.toArray⟩).getD ""

def Request.paths (env : Environment) (o : Options) : Request → List Bytes
  | .usage => []
  | .init directory? =>
    [Scaffold.File.main, .ignore].map fun file => Path.join (directory?.getD ".") file.name
  | .build sources =>
    [o.out, Path.join o.out Library.fileName] ++ sources ++ sources.map (modulePath o.out)
  | .run source _ => [env.temporary, source, o.node]
  | .repl => [Path.join env.home historyFileName]

def places (l : Location) : List Location :=
  (List.range l.length).map fun i => l.take (i + 1)

def placeOf (cwd : Location) (path : Bytes) : Location :=
  if Path.isAbsolute path then Path.names (Path.clean path)
  else Path.names (Path.clean ("/" ++ List.intercalate "/" cwd ++ "/" ++ path))

def pathOf (l : Location) : Bytes := "/" ++ List.intercalate "/" l

/-- Looks at a place. Scripts are taken to be executable. -/
def inspect (l : Location) : IO (Option (Location × Entry)) := do
  try
    let real ← IO.FS.realPath (textOf (pathOf l))
    if ← real.isDir then return some (l, .directory)
    else if ← real.pathExists then
      let content := (← IO.FS.readBinFile real).toList
      return some (l, .file content ((Bytes.after? "#!" content).isSome))
    else return none
  catch _ => return none

def snapshot (cwd : Location) (paths : List Bytes) : IO Disk := do
  let reachable := cwd :: paths.map (placeOf cwd)
  let found ← (reachable.flatMap places).eraseDups.mapM inspect
  return ⟨found.filterMap id, cwd⟩

def store (before after : Disk) : IO Unit :=
  after.entries.forM fun (l, entry) => do
    if before.get? l ≠ some entry then
      match entry with
      | .directory => IO.FS.createDirAll (textOf (pathOf l))
      | .file content _ => IO.FS.writeBinFile (textOf (pathOf l)) ⟨content.toArray⟩

def send (stream : IO.FS.Stream) (text : Bytes) : IO Unit := do
  stream.write ⟨text.toArray⟩
  stream.flush

def showEvent : Repl.Event → IO Unit
  | .out text => do send (← IO.getStdout) text
  | .prompt text => do send (← IO.getStdout) text
  | .err text => do send (← IO.getStderr) text

partial def ask (source : Bytes) : IO (Option Bytes) := do
  showEvent (.prompt (if source.isEmpty then Repl.firstPrompt else Repl.nextPrompt))
  let line ← (← IO.getStdin).getLine
  if line.isEmpty then return none
  let source := Repl.addLine source (Bytes.chomp (bytesOf line))
  if Repl.isEntry source then return some source else ask source

partial def converse (s : Repl.Session) : IO Repl.History := do
  match ← ask [] with
  | none =>
    showEvent (.out "\n")
    return s.history
  | some entry =>
    match s.react entry with
    | .leave s => return s.history
    | .goOn s events =>
      events.forM showEvent
      converse s

partial def drain (stream : IO.FS.Stream) (before : ByteArray) : IO Bytes := do
  let part ← stream.read 65536
  if part.isEmpty then return before.toList else drain stream (before ++ part)

def interactive (historyPath : Bytes) : IO Unit := do
  showEvent (.out Repl.banner)
  let before : Repl.History ← try
      pure (.read (← IO.FS.readBinFile (textOf historyPath)).toList)
    catch _ => pure ⟨[]⟩
  let after ← converse ⟨.code, before⟩
  try IO.FS.writeBinFile (textOf historyPath) ⟨after.text.toArray⟩ catch _ => pure ()

/-- Carries out a command line on the files of this computer, with the given way to start programs
that find some variables. -/
def start (launch : List (Bytes × Bytes) → Launcher) (args : List Bytes) : IO UInt32 := do
  let setting (name : String) : IO Bytes := do
    return bytesOf ((← IO.getEnv name).getD "")
  let temporary ← setting "TMPDIR"
  let env : Environment :=
    ⟨← setting "HOME", if temporary.isEmpty then "/tmp" else temporary, ← setting "PIPELANG_NODE"⟩
  let cwd := Path.names (bytesOf (← IO.currentDir).toString)
  let request := read (if env.node.isEmpty then defaultProgram else env.node) args
  if let .ok (_, .repl) := request then
    interactive (Path.join env.home historyFileName)
    return 0
  let paths := match request with
    | .ok (o, r) => r.paths env o
    | .error _ => []
  let input ← match request with
    | .ok (_, .run ..) => drain (← IO.getStdin) .empty
    | _ => pure []
  let before ← snapshot cwd paths
  let (code, after) := Command.carryOut (launch env.variables) env args ⟨before, input, [], []⟩
  store before after.disk
  send (← IO.getStdout) after.out
  send (← IO.getStderr) after.err
  return code.toUInt32

end PipeCompiler.CommandLine
