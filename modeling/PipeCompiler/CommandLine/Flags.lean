import PipeCompiler.CommandLine.Duration

/-! Flags and arguments of a command line.

A long flag is written `--name value` or `--name=value`, a short one `-n value`, `-nvalue` or
`-n=value`. Switches need no value, and several short ones may share one dash. Flags may stand
anywhere before the argument `--`, which ends them. -/
namespace PipeCompiler.CommandLine

structure Options where
  out : Bytes
  quiet : Bool
  help : Bool
  node : Bytes
  /-- How long a module may run; without limit unless positive. -/
  timeout : Duration
deriving DecidableEq, Repr

inductive UsageError
  | unknownCommand (name parent : Bytes)
  | unknownFlag (name : Bytes)
  | unknownLetter (letter : UInt8) (cluster : Bytes)
  | missingValue (flag : Bytes)
  | missingLetterValue (letter : UInt8) (cluster : Bytes)
  | malformedFlag (arg : Bytes)
  | badValue (value label reason : Bytes)
  | tooFewArgs (least given : Nat)
  | tooManyArgs (most given : Nat)
deriving DecidableEq, Repr

def UsageError.message : UsageError → Bytes
  | unknownCommand name parent =>
    "unknown command " ++ Quoted.text name ++ " for " ++ Quoted.text parent
  | unknownFlag name => "unknown flag: --" ++ name
  | unknownLetter letter cluster =>
    "unknown shorthand flag: " ++ Quoted.byte letter ++ " in -" ++ cluster
  | missingValue flag => "flag needs an argument: " ++ flag
  | missingLetterValue letter cluster =>
    "flag needs an argument: " ++ Quoted.byte letter ++ " in -" ++ cluster
  | malformedFlag arg => "bad flag syntax: " ++ arg
  | badValue value label reason =>
    "invalid argument " ++ Quoted.text value ++ " for " ++ Quoted.text label ++ " flag: " ++ reason
  | tooFewArgs least given =>
    "requires at least " ++ Bytes.ofNat least ++ " arg(s), only received " ++ Bytes.ofNat given
  | tooManyArgs most given =>
    "accepts at most " ++ Bytes.ofNat most ++ " arg(s), received " ++ Bytes.ofNat given

/-- A flag: its names, whether it stands for itself without a value, and what a value does or why it
cannot be used. -/
structure Flag where
  name : String
  letter : Option Char
  isSwitch : Bool
  set : Bytes → Options → Except Bytes Options

namespace Flag

def label (f : Flag) : Bytes :=
  match f.letter with
  | some letter => "-" ++ Bytes.ofChar letter ++ ", --" ++ Bytes.ofString f.name
  | none => "--" ++ Bytes.ofString f.name

def apply (f : Flag) (value : Bytes) (o : Options) : Except UsageError Options :=
  (f.set value o).mapError (.badValue value f.label)

def readSwitch (value : Bytes) : Except Bytes Bool :=
  if ["1", "t", "T", "TRUE", "true", "True"].any (Bytes.ofString · == value) then .ok true
  else if ["0", "f", "F", "FALSE", "false", "False"].any (Bytes.ofString · == value) then .ok false
  else .error ("strconv.ParseBool: parsing " ++ Quoted.text value ++ ": invalid syntax")

def out : Flag := ⟨"out", some 'o', false, fun value o => .ok { o with out := value }⟩

def quiet : Flag :=
  ⟨"quiet", some 'q', true, fun value o => return { o with quiet := ← readSwitch value }⟩

def help : Flag :=
  ⟨"help", some 'h', true, fun value o => return { o with help := ← readSwitch value }⟩

def node : Flag := ⟨"node", none, false, fun value o => .ok { o with node := value }⟩

def timeout : Flag :=
  ⟨"timeout", none, false, fun value o =>
    match Duration.read value with
    | .ok timeout => .ok { o with timeout }
    | .error fault => .error (fault.message value)⟩

def find? (flags : List Flag) (name : Bytes) : Option Flag :=
  flags.find? fun f => Bytes.ofString f.name == name

def findLetter? (flags : List Flag) (letter : UInt8) : Option Flag :=
  flags.find? fun f => f.letter.any (·.toUInt8 == letter)

end Flag

def isFlag (arg : Bytes) : Bool :=
  arg.head? = some '-'.toUInt8 && arg.length ≠ 1

def endOfFlags : Bytes := "--"

def splitValue (s : Bytes) : Bytes × Option Bytes :=
  match s.dropWhile (· ≠ '='.toUInt8) with
  | [] => (s, none)
  | _ :: value => (s.takeWhile (· ≠ '='.toUInt8), some value)

/-- Flags of test runners begin like this. They mean nothing here. -/
def testFlagStart : Bytes := "test."

/-- Sets the short flags that share one dash. The last of them may be left over, waiting for the
next argument as its value. -/
def readLetters (flags : List Flag) (o : Options) : Bytes →
    Except UsageError (Options × Option (Flag × UInt8))
  | [] => .ok (o, none)
  | letter :: rest =>
    if testFlagStart.isPrefixOf (letter :: rest) then .ok (o, none)
    else match Flag.findLetter? flags letter with
    | none => .error (.unknownLetter letter (letter :: rest))
    | some f =>
      match rest with
      | [] => if f.isSwitch then return (← f.apply "true" o, none) else .ok (o, some (f, letter))
      | b :: value =>
        if b = '='.toUInt8 && !value.isEmpty then return (← f.apply value o, none)
        else if f.isSwitch then do readLetters flags (← f.apply "true" o) rest
        else return (← f.apply rest o, none)

def readFlags (flags : List Flag) (o : Options) : List Bytes →
    Except UsageError (Options × List Bytes)
  | [] => .ok (o, [])
  | arg :: rest =>
    if !isFlag arg then do
      let (o, args) ← readFlags flags o rest
      return (o, arg :: args)
    else if arg == endOfFlags then .ok (o, rest)
    else
      match Bytes.after? endOfFlags arg with
      | some body =>
        if body.head? = some '-'.toUInt8 || body.head? = some '='.toUInt8 then
          .error (.malformedFlag arg)
        else
          let (name, value?) := splitValue body
          match Flag.find? flags name, value? with
          | none, _ => .error (.unknownFlag name)
          | some f, some value => do readFlags flags (← f.apply value o) rest
          | some f, none =>
            if f.isSwitch then do readFlags flags (← f.apply "true" o) rest
            else
              match rest with
              | [] => .error (.missingValue arg)
              | value :: rest => do readFlags flags (← f.apply value o) rest
      | none => do
        match ← readLetters flags o (arg.drop 1), rest with
        | (o, none), rest => readFlags flags o rest
        | (_, some (_, letter)), [] => throw (.missingLetterValue letter [letter])
        | (o, some (f, _)), value :: rest => readFlags flags (← f.apply value o) rest

end PipeCompiler.CommandLine
