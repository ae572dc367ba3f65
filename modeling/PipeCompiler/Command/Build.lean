import PipeCompiler.Command.Basic
import PipeCompiler.Library

/-! Compiling source files to modules, and running a source file: it is compiled into a directory
that does not outlive the command. -/
namespace PipeCompiler

def moduleName (source : Bytes) : Bytes :=
  Path.dropEnding sourceExtension (Path.base source)

def modulePath (directory source : Bytes) : Bytes :=
  Path.join directory (moduleName source ++ moduleExtension)

def compileFile (d : Disk) (source : Bytes) : Except Failure Compiled := do
  if Path.extension source ≠ sourceExtension then throw .extension
  let content ← (d.read source).mapError .file
  (compile content).mapError fun
    | .diagnostic fault => .compile (.diagnostic (fault.withFile source))
    | e => .compile e

/-- The first source whose module has the name of an earlier one, after that earlier one. -/
def collision? (seen : List (Bytes × Bytes)) : List Bytes → Option (Bytes × Bytes × Bytes)
  | [] => none
  | source :: sources =>
    let name := moduleName source
    match seen.lookup name with
    | some first => some (first, source, name)
    | none => collision? ((name, source) :: seen) sources

structure Batch where
  slots : List (Option (Except Failure Compiled))
  failure : Option Failure

namespace Batch

def pending (count : Nat) : Batch :=
  ⟨List.replicate count none, none⟩

def failure? : Except Failure Compiled → Option Failure
  | .error e => some e
  | .ok _ => none

/-- A compilation is done: its slot is filled, and it is the first to fail if none failed before. -/
def finish (b : Batch) (i : Nat) (result : Except Failure Compiled) : Batch where
  slots := b.slots.set i (some result)
  failure := b.failure <|> failure? result

/-- The failure that counts once all are done: if any failed, the first in the order of the slots,
whichever came first. -/
def reported? (b : Batch) : Option Failure :=
  if b.failure.isSome then b.slots.findSome? (·.bind failure?) else none

def compiled (b : Batch) : List Compiled :=
  b.slots.filterMap (·.bind Except.toOption)

end Batch

def compileNext (d : Disk) (sources : List Bytes) (b : Batch) (i : Nat) : Batch :=
  match sources[i]? with
  | some source => b.finish i (compileFile d source)
  | none => b

/-- The sources compiled side by side. They are done in the given order of their indices. -/
def compileAll (d : Disk) (sources : List Bytes) (order : List Nat) : Batch :=
  order.foldl (compileNext d sources) (.pending sources.length)

namespace Command

def writeModule (c : Compiled) (directory source : Bytes) : Command Bytes := do
  makeDirectories directory
  let path := modulePath directory source
  change (·.write path c.code)
  change (·.write (Path.join directory Library.fileName) Library.source)
  return path

def compileAndWrite (source directory : Bytes) : Command Bytes := do
  match compileFile (← get).disk source with
  | .error e => throw e
  | .ok c => writeModule c directory source

def writeAll (o : CommandLine.Options) : List (Bytes × Compiled) → Command Unit
  | [] => return ()
  | (source, c) :: rest => do
    let path ← writeModule c o.out source
    let calls := c.program.libraryCalls
    if !calls.isEmpty then report o ("  runtime: " ++ List.intercalate ", " calls)
    report o ("✔︎ wrote JavaScript to " ++ path)
    writeAll o rest

/-- Compiles sources to modules. They are compiled side by side and finish in any `order`, but
nothing is written before all of them have been compiled, and it is the first failure in the order
of the sources that counts. -/
def build (o : CommandLine.Options) (sources : List Bytes) (order : List Nat) : Command Unit := do
  if let some (first, second, name) := collision? [] sources then
    throw (.collision first second name)
  report o ("↪ building " ++ List.intercalate ", " sources ++ " → " ++ Quoted.text (o.out ++ "/") ++
    " ...")
  let batch := compileAll (← get).disk sources order
  match batch.reported? with
  | some e => throw e
  | none => writeAll o (sources.zip batch.compiled)

end Command

inductive Outcome
  | exited (code : Nat)
  | killed
  | overdue
deriving DecidableEq, Repr

/-- A way to start programs: a program with its arguments and perhaps a limit on its time changes
the world and comes to an end, unless it cannot be started at all. -/
abbrev Launcher :=
  Bytes → List Bytes → Option Duration → World → Except LaunchFault Outcome × World

def defaultProgram : Bytes := "node"

def runDirectoryName : Bytes := "pipelang-"

/-- A path below `directory` at which nothing stands. One of the candidates is free, as there are
more of them than entries. -/
def freshPath (d : Disk) (directory : Bytes) : Bytes :=
  let candidates := (List.range (d.entries.length + 1)).map fun i =>
    directory ++ "/" ++ runDirectoryName ++ Bytes.ofNat i
  (candidates.find? (!d.has ·)).getD []

def timeLimit? (d : Duration) : Option Duration :=
  if 0 < d.nanoseconds then some d else none

namespace Command

def discard (path : Bytes) : Command Unit :=
  modify fun w =>
    match w.disk.locate path with
    | .ok l => { w with disk := w.disk.remove l }
    | .error _ => w

/-- Gives failures of files within a command their place in a larger one. -/
def within (place : FileError → Failure) (command : Command α) : Command α :=
  tryCatch command fun
    | .file e => throw (place e)
    | e => throw e

def execute (launch : Launcher) (o : CommandLine.Options) (source path : Bytes)
    (args : List Bytes) : Command Unit := do
  let program := if o.node.isEmpty then defaultProgram else o.node
  match ← modifyGet (launch program (path :: args) (timeLimit? o.timeout)) with
  | .error fault => throw (.launch program fault)
  | .ok .overdue => throw (.timedOut source o.timeout)
  | .ok .killed => throw (.exit 1)
  | .ok (.exited 0) => return ()
  | .ok (.exited code) => throw (.exit code)

/-- Compiles a source into a new directory below `temporary` and runs it there. The directory is
removed whether or not that succeeds. -/
def run (launch : Launcher) (temporary : Bytes) (o : CommandLine.Options) (source : Bytes)
    (args : List Bytes) : Command Unit := do
  match compileFile (← get).disk source with
  | .error e => throw e
  | .ok c =>
    let directory := freshPath (← get).disk temporary
    within .workspace (change (·.makeDirectory directory))
    try
      let path ← within .output (writeModule c directory source)
      execute launch o source path args
    finally
      discard directory

end Command

end PipeCompiler
