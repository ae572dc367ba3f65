import PipeCompiler.Command.Basic
import PipeCompiler.Text.Utf8

/-! New projects: a directory with a first program and a list of files to ignore. -/
namespace PipeCompiler

namespace Scaffold

def escapeByte (b : UInt8) : Bytes :=
  if b == '\\' then "\\\\"
  else if b == '"' then "\\\""
  else if b == '\n' then "\\n"
  else if b == '\t' then "\\t"
  else if b == '\r' then "\\r"
  else [b]

def quote (s : Bytes) : Bytes :=
  "\"" ++ s.flatMap escapeByte ++ "\""

def oneLine (s : Bytes) : Bytes :=
  List.intercalate " " (Bytes.words s)

def mainText (name : Bytes) : Bytes :=
  "// " ++ oneLine name ++ ": generated by `pipelang init`\n" ++
  "\n" ++
  "fn square(x) = x * x\n" ++
  "\n" ++
  "let numbers = range(1, 6)\n" ++
  "\n" ++
  "let total = numbers\n" ++
  "  |> map(|n, i| square(n))\n" ++
  "  |> filter(|n, i| n % 2 == 1)\n" ++
  "  |> sum\n" ++
  "\n" ++
  "print(" ++ quote (name ++ ": sum of odd squares is") ++ ", total)\n"

inductive File
  | main
  | ignore
deriving DecidableEq, Repr

def File.name : File → Bytes
  | main => "main.pipe"
  | ignore => ".gitignore"

def File.text (project : Bytes) : File → Bytes
  | main => mainText project
  | ignore => "out/\n"

end Scaffold

namespace Command

open Scaffold (File)

/-- Writes files into the directory of a project, none of which may be there yet. -/
def writeFiles (directory project : Bytes) : List File → Command Unit
  | [] => return ()
  | file :: files => do
    let path := Path.join directory file.name
    if (← get).disk.has path then throw (.fileExists path)
    change (·.write path (file.text project))
    writeFiles directory project files

/-- Makes a project in a new directory, or in the current one. Nothing says in which `order` its
files are written. -/
def init (o : CommandLine.Options) (directory? : Option Bytes) (order : List File) :
    Command Unit := do
  let disk := (← get).disk
  let directory : Bytes := directory?.getD "."
  let project := match directory? with
    | some directory => Path.base directory
    | none => disk.cwd.getLast?.getD "/"
  if directory ≠ "." then
    if disk.has directory then throw (.directoryExists directory)
    makeDirectories directory
  report o ("↪ scaffolding new project " ++ Quoted.text project ++ " ...")
  writeFiles directory project order
  report o ("✓ project " ++ Quoted.text project ++ " initialized!")

end Command
end PipeCompiler
