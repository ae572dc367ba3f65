import PipeCompiler.CommandLine.Flags

/-! What a command line asks for. -/
namespace PipeCompiler.CommandLine

inductive Verb
  | init
  | build
  | run
  | repl
deriving DecidableEq, Repr

def programName : Bytes := "pipelang"

namespace Verb

def name : Verb → Bytes
  | init => "init"
  | build => "build"
  | run => "run"
  | repl => "repl"

def ofName? (name : Bytes) : Option Verb :=
  [init, build, run, repl].find? (·.name == name)

def commonFlags : List Flag := [.out, .quiet]

def flags : Verb → List Flag
  | run => commonFlags ++ [.help, .node, .timeout]
  | _ => commonFlags ++ [.help]

end Verb

/-- A flag that takes the argument after it as its value, as far as one can tell from the flags that
every command has. -/
def takesNext (arg : Bytes) : Bool :=
  !arg.contains '=' &&
    match Bytes.after? endOfFlags arg with
    | some name => !((Flag.find? Verb.commonFlags name).any (·.isSwitch))
    | none =>
      match arg with
      | [dash, letter] =>
        dash == '-' && !((Flag.findLetter? Verb.commonFlags letter).any (·.isSwitch))
      | _ => false

/-- The arguments that are neither flags nor their values. A flag at the very end or with a single
argument behind it ends them. -/
def plainArgs : List Bytes → List Bytes
  | [] => []
  | arg :: rest =>
    if arg == endOfFlags then []
    else if takesNext arg then
      match rest with
      | _ :: next :: rest => plainArgs (next :: rest)
      | _ => []
    else if arg.isEmpty || arg.head? = some '-'.toUInt8 then plainArgs rest
    else arg :: plainArgs rest

def removeArg (name : Bytes) : List Bytes → List Bytes
  | [] => []
  | arg :: rest =>
    if arg == endOfFlags then arg :: rest
    else if takesNext arg then
      match rest with
      | value :: rest => arg :: value :: removeArg name rest
      | [] => [arg]
    else if arg == name then rest
    else arg :: removeArg name rest

inductive Request
  | usage
  | init (directory : Option Bytes)
  | build (sources : List Bytes)
  | run (source : Bytes) (args : List Bytes)
  | repl
deriving DecidableEq, Repr

def Verb.request (verb : Verb) (args : List Bytes) : Except UsageError Request :=
  match verb, args with
  | .init, [] => .ok (.init none)
  | .init, [directory] => .ok (.init (some directory))
  | .init, args => .error (.tooManyArgs 1 args.length)
  | .build, [] => .error (.tooFewArgs 1 0)
  | .build, sources => .ok (.build sources)
  | .run, [] => .error (.tooFewArgs 1 0)
  | .run, source :: args => .ok (.run source args)
  | .repl, [] => .ok .repl
  | .repl, arg :: _ => .error (.unknownCommand arg (programName ++ " " ++ verb.name))

/-- Reads a command line. The first plain argument is the command; `node` is the program that runs
modules if no flag names one. -/
def read (node : Bytes) (args : List Bytes) : Except UsageError (Options × Request) := do
  let defaults : Options := ⟨"out", false, false, node, ⟨0⟩⟩
  match plainArgs args with
  | [] =>
    let (o, _) ← readFlags (Verb.commonFlags ++ [.help]) defaults args
    return (o, .usage)
  | name :: _ =>
    match Verb.ofName? name with
    | none => throw (.unknownCommand name programName)
    | some verb =>
      let (o, args) ← readFlags verb.flags defaults (removeArg name args)
      if o.help then return (o, .usage) else return (o, ← verb.request args)

end PipeCompiler.CommandLine
