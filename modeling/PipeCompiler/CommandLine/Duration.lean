import PipeCompiler.Number
import PipeCompiler.Text.Quoted

/-! Durations as they are written on the command line: numbers with units, one after the other. -/
namespace PipeCompiler

structure Duration where
  nanoseconds : Int
deriving DecidableEq, Repr

namespace Duration

inductive Fault
  | invalid
  | missingUnit
  | unknownUnit (unit : Bytes)
deriving DecidableEq, Repr

/-- A byte of a quoted text: anything but an ASCII character from the space on is written with two
hexadecimal digits. -/
def quotedByte (b : UInt8) : Bytes :=
  if b < 0x20 || 0x80 ≤ b then "\\x" ++ Bytes.hex 2 b.toNat
  else if b == '"' || b == '\\' then ['\\', b]
  else [b]

def quoted (s : Bytes) : Bytes :=
  "\"" ++ s.flatMap quotedByte ++ "\""

def Fault.message (source : Bytes) : Fault → Bytes
  | invalid => "time: invalid duration " ++ quoted source
  | missingUnit => "time: missing unit in duration " ++ quoted source
  | unknownUnit unit => "time: unknown unit " ++ quoted unit ++ " in duration " ++ quoted source

def units : List (String × Nat) :=
  [("ns", 1), ("us", 1000), ("µs", 1000), ("μs", 1000), ("ms", 1000000), ("s", 1000000000),
    ("m", 60000000000), ("h", 3600000000000)]

def unit? (name : Bytes) : Option Nat :=
  (units.find? fun (unit, _) => Bytes.ofString unit == name).map Prod.snd

def limit : Nat := Nat.pow 2 63

def isDigit (b : UInt8) : Bool :=
  '0'.toUInt8 ≤ b && b ≤ '9'

/-- Units go on up to the next number. -/
def isUnitPart (b : UInt8) : Bool :=
  !(b == '.' || isDigit b)

def whole? (digits : Bytes) : Option Nat :=
  let n := digits.foldl (fun n b => n * 10 + (b.toNat - 48)) 0
  if n ≤ limit then some n else none

/-- The digits after the point as a number and the power of ten that divides it. Digits that would
make the number too large are left out. -/
def fraction (digits : Bytes) : Nat × Nat :=
  let (n, scale, _) := digits.foldl
    (fun (n, scale, full) b =>
      if full || (limit - 1) / 10 < n || limit < n * 10 + (b.toNat - 48) then (n, scale, true)
      else (n * 10 + (b.toNat - 48), scale * 10, false))
    (0, 1, false)
  (n, scale)

/-- The product of a number and a fraction, where fraction and product are rounded to floating-point
numbers, without its own fraction. -/
def roundedPart (n unit scale : Nat) : Nat :=
  let a := Double.units (Double.nearestOrdinal n 1)
  let b := Double.units (Double.nearestOrdinal unit scale)
  Double.units (Double.nearestOrdinal (a * b) (Nat.pow 2 2148)) / Nat.pow 2 1074

def term (s : Bytes) : Except Fault (Nat × Bytes) := do
  let whole := s.takeWhile isDigit
  let s := s.dropWhile isDigit
  let some n := whole? whole | throw .invalid
  let (digits, s) := match s with
    | b :: rest => if b == '.' then (rest.takeWhile isDigit, rest.dropWhile isDigit) else ([], s)
    | [] => ([], [])
  if whole.isEmpty && digits.isEmpty then throw .invalid
  let name := s.takeWhile isUnitPart
  let s := s.dropWhile isUnitPart
  if name.isEmpty then throw .missingUnit
  let some unit := unit? name | throw (.unknownUnit name)
  if limit / unit < n then throw .invalid
  let (f, scale) := fraction digits
  let total := n * unit + if 0 < f then roundedPart f unit scale else 0
  if limit < total then throw .invalid
  return (total, s)

/-- The sum of the numbers with units that make up a text, in 64 bits: zero follows the largest
sum. Each number takes at least one byte, so there are at most `bound` of them, the length of the
text. -/
def terms (total : Nat) (s : Bytes) (bound : Nat) : Except Fault Nat :=
  match bound, s with
  | _, [] => .ok total
  | 0, _ => .error .invalid
  | bound + 1, s => do
    let (n, rest) ← term s
    let total := (total + n) % Nat.pow 2 64
    if limit < total then throw .invalid
    terms total rest bound

def read (s : Bytes) : Except Fault Duration := do
  let (negative, body) := match s with
    | b :: rest => if b == '-' then (true, rest) else if b == '+' then (false, rest) else (false, s)
    | [] => (false, [])
  if body == "0" then return ⟨0⟩
  if body.isEmpty then throw .invalid
  let n ← terms 0 body body.length
  if negative then return ⟨-n⟩
  if n = limit then throw .invalid
  return ⟨n⟩

/-- The number of nanoseconds in units of `10 ^ places` of them. -/
def scaled (n places : Nat) : Bytes :=
  (Decimal.mk n (-places)).positional

/-- A duration with the largest units that fit: fractions of a second in one unit, anything longer
in hours, minutes and seconds. -/
def text (d : Duration) : Bytes :=
  let n := d.nanoseconds.natAbs
  let sign : Bytes := if d.nanoseconds < 0 then "-" else []
  let seconds := 1000000000
  if n = 0 then "0s"
  else if n < 1000 then sign ++ Bytes.ofNat n ++ "ns"
  else if n < 1000000 then sign ++ scaled n 3 ++ "µs"
  else if n < seconds then sign ++ scaled n 6 ++ "ms"
  else
    let minutes := n / (60 * seconds)
    let rest := scaled (n % (60 * seconds)) 9 ++ "s"
    if minutes = 0 then sign ++ rest
    else if minutes < 60 then sign ++ Bytes.ofNat minutes ++ "m" ++ rest
    else sign ++ Bytes.ofNat (minutes / 60) ++ "h" ++ Bytes.ofNat (minutes % 60) ++ "m" ++ rest

end Duration
end PipeCompiler
