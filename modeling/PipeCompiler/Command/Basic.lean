import PipeCompiler.CommandLine.Request
import PipeCompiler.Lowering
import PipeCompiler.Files

/-! What commands work on, and how they fail. -/
namespace PipeCompiler

inductive LaunchFault
  | notInstalled (name : Bytes)
  | directory (name : Bytes)
  | file (e : FileError)
deriving DecidableEq, Repr

def LaunchFault.message : LaunchFault → Bytes
  | notInstalled name => "exec: " ++ Quoted.text name ++ ": executable file not found in $PATH"
  | directory name => "exec: " ++ Quoted.text name ++ ": " ++ FileFault.isDirectory.message
  | file e => e.message

inductive Failure
  | usage (e : CommandLine.UsageError)
  | extension
  | file (e : FileError)
  | compile (e : CompileError)
  | collision (first second name : Bytes)
  | directoryExists (path : Bytes)
  | fileExists (path : Bytes)
  /-- A directory for a program that is to be run could not be made. -/
  | workspace (e : FileError)
  /-- A program that is to be run could not be written. -/
  | output (e : FileError)
  | launch (program : Bytes) (fault : LaunchFault)
  | timedOut (source : Bytes) (limit : Duration)
  | exit (code : Nat)

def sourceExtension : Bytes := ".pipe"

def moduleExtension : Bytes := ".mjs"

def Failure.message : Failure → Bytes
  | usage e => e.message
  | extension => "source must have " ++ sourceExtension ++ " extension"
  | file e => e.message
  | compile (.diagnostic d) => d.text
  | compile (.lowering e) => "emitter: " ++ e.message
  | collision first second name =>
    first ++ " and " ++ second ++ " would both write " ++ name ++ moduleExtension
  | directoryExists path => "directory " ++ Quoted.text path ++ " already exists"
  | fileExists path => path ++ " already exists"
  | workspace e => "creating temp dir: " ++ e.message
  | output e => "writing output: " ++ e.message
  | launch program fault => "running " ++ program ++ ": " ++ fault.message
  | timedOut source limit => source ++ " timed out after " ++ limit.text
  | exit code => "exit status " ++ Bytes.ofNat code

/-- What is shown of a failure. A program that failed has had its own say. -/
def Failure.report : Failure → Bytes
  | exit _ => []
  | compile (.diagnostic d) => d.render
  | e => "Error: " ++ e.message ++ "\n"

def Failure.code : Failure → Nat
  | exit code => code
  | _ => 1

structure World where
  disk : Disk
  input : Bytes
  out : Bytes
  err : Bytes
deriving DecidableEq, Repr

/-- Commands leave the world as it is where they fail. -/
abbrev Command := EStateM Failure World

namespace Command

def print (text : Bytes) : Command Unit :=
  modify fun w => { w with out := w.out ++ text }

def printError (text : Bytes) : Command Unit :=
  modify fun w => { w with err := w.err ++ text }

def report (o : CommandLine.Options) (line : Bytes) : Command Unit :=
  if o.quiet then return () else print (line ++ "\n")

def change (f : Disk → Except FileError Disk) : Command Unit := do
  match f (← get).disk with
  | .ok disk => modify fun w => { w with disk }
  | .error e => throw (.file e)

def makeDirectories (path : Bytes) : Command Unit := do
  let (result, disk) := (← get).disk.makeDirectories path
  modify fun w => { w with disk }
  match result with
  | .ok () => return ()
  | .error e => throw (.file e)

end Command
end PipeCompiler
