import PipeCompiler.Text.Bytes

/-! Binary floating-point numbers with 64 bits, the numerals that denote them, and the shortest
decimals that round to them.

Without its sign bit such a number is an *ordinal*: the finite magnitudes in increasing order, then
infinity, then what is not a number. `units` is the magnitude of an ordinal as a multiple of the
smallest one, `2 ^ -1074`, so it is a natural number and grows with the ordinal.

A numeral is decimal, with an optional exponent of ten after `e`, or hexadecimal, with a mandatory
exponent of two after `p`. It may have a sign and a point, and underscores between digits. The words
for infinity and for what is not a number are numerals too. -/
namespace PipeCompiler

structure Double where
  bits : UInt64
deriving DecidableEq, Repr

namespace Double

def infinity : Nat := 0x7FF * Nat.pow 2 52

/-- How many binades an ordinal is above the subnormal numbers. -/
def shift (k : Nat) : Nat := k / Nat.pow 2 52 - 1

/-- The magnitude of the ordinal `k` is `units k * 2 ^ -1074`. The formula goes on beyond the finite
ordinals, where `units infinity` is the first power of two that is too large. -/
def units (k : Nat) : Nat :=
  (if k < Nat.pow 2 52 then k else Nat.pow 2 52 + k % Nat.pow 2 52) * Nat.pow 2 (shift k)

def ofOrdinal (negative : Bool) (k : Nat) : Double :=
  ⟨((if negative then Nat.pow 2 63 else 0) + k).toUInt64⟩

def isNegative (x : Double) : Bool :=
  Nat.pow 2 63 ≤ x.bits.toNat

def ordinal (x : Double) : Nat :=
  x.bits.toNat % Nat.pow 2 63

def floorOrdinal (n : Nat) : Nat :=
  let s := n.log2 - 52
  s * Nat.pow 2 52 + n / Nat.pow 2 s

/-- The ordinal nearest to the positive fraction `num / den`. Halfway between two ordinals the even
one is taken, and what is nearer to `units infinity` than to any finite magnitude is infinite. -/
def nearestOrdinal (num den : Nat) : Nat :=
  let scaled := num * Nat.pow 2 1074
  let k := floorOrdinal (scaled / den)
  let nearest :=
    match compare (2 * scaled) ((units k + units (k + 1)) * den) with
    | .lt => k
    | .gt => k + 1
    | .eq => k + k % 2
  min nearest infinity

end Double

/-- What a numeral says: `digits` scaled by a power of `base`, infinity, or not a number. -/
inductive Numeral
  | finite (negative : Bool) (digits base : Nat) (exponent : Int)
  | infinite (negative : Bool)
  | nan
deriving DecidableEq, Repr

namespace Numeral

def lower (b : UInt8) : UInt8 :=
  if 'A'.toUInt8 ≤ b && b ≤ 'Z' then b + 32 else b

def digit? (base : Nat) (b : UInt8) : Option Nat :=
  let b := lower b
  let value :=
    if '0'.toUInt8 ≤ b && b ≤ '9' then b.toNat - 48
    else if 'a'.toUInt8 ≤ b && b ≤ 'f' then b.toNat - 87
    else 16
  if value < base then some value else none

def isDigit (base : Nat) (b : UInt8) : Bool :=
  (digit? base b).isSome

def isDigitOrGroup (base : Nat) (b : UInt8) : Bool :=
  isDigit base b || b == '_'

def value (base : Nat) (s : Bytes) : Nat :=
  (s.filterMap (digit? base)).foldl (fun n d => n * base + d) 0

/-- Every underscore stands between two digits. `grouped` says whether one may come first. -/
def wellGrouped (base : Nat) (grouped : Bool) : Bytes → Bool
  | [] => true
  | b :: s =>
    if b == '_' then
      grouped && (s.head?.map (isDigit base)).getD false && wellGrouped base false s
    else wellGrouped base (isDigit base b) s

def sign (s : Bytes) : Bool × Bytes :=
  match s with
  | b :: rest => if b == '-' then (true, rest) else if b == '+' then (false, rest) else (false, s)
  | [] => (false, [])

def mantissa (base : Nat) (s : Bytes) : Bytes × Bytes × Bytes :=
  let whole := s.takeWhile (isDigitOrGroup base)
  match s.dropWhile (isDigitOrGroup base) with
  | [] => (whole, [], [])
  | b :: s =>
    if b == '.' then
      (whole, s.takeWhile (isDigitOrGroup base), s.dropWhile (isDigitOrGroup base))
    else (whole, [], b :: s)

/-- The value of an exponent. Beyond four digits it is only known to be large. -/
def exponentValue (s : Bytes) : Nat :=
  (s.filterMap (digit? 10)).foldl (fun n d => if n < 10000 then n * 10 + d else n) 0

def exponent? (s : Bytes) : Option Int :=
  let (negative, s) := sign s
  if (s.head?.map (isDigit 10)).getD false && s.all (isDigitOrGroup 10) then
    some (if negative then -(exponentValue s : Int) else exponentValue s)
  else none

def unsigned? (negative : Bool) (base : Nat) (mark : UInt8) (s : Bytes) : Option Numeral :=
  let (whole, fraction, rest) := mantissa base s
  let places := (fraction.filter (isDigit base)).length
  let finite (e : Int) : Numeral :=
    if base = 16 then .finite negative (value base (whole ++ fraction)) 2 (e - 4 * places)
    else .finite negative (value base (whole ++ fraction)) base (e - places)
  if (whole ++ fraction).any (isDigit base) then
    match rest with
    | [] => if base = 16 then none else some (finite 0)
    | b :: rest => if lower b == mark then (exponent? rest).map finite else none
  else none

def finite? (negative : Bool) (s : Bytes) : Option Numeral :=
  match s with
  | zero :: x :: s =>
    if zero == '0' && lower x == 'x' && !s.isEmpty then
      if wellGrouped 16 true s then unsigned? negative 16 'p' s else none
    else if wellGrouped 10 false (zero :: x :: s) then
      unsigned? negative 10 'e' (zero :: x :: s)
    else none
  | s => if wellGrouped 10 false s then unsigned? negative 10 'e' s else none

def read? (s : Bytes) : Option Numeral :=
  let (negative, body) := sign s
  let word := body.map lower
  if word == "inf" || word == "infinity" then some (.infinite negative)
  else if s.map lower == "nan" then some .nan
  else finite? negative body

/-- The ordinal nearest to `digits * base ^ exponent`. Beyond 1100 places on either side of the
point it is zero or infinity whatever the digits are. -/
def scaledOrdinal (digits base : Nat) (exponent : Int) : Nat :=
  let top := exponent + (Nat.toDigits base digits).length
  if digits = 0 then 0
  else if 1100 < top then Double.infinity
  else if top < -1100 then 0
  else if 0 ≤ exponent then Double.nearestOrdinal (digits * Nat.pow base exponent.toNat) 1
  else Double.nearestOrdinal digits (Nat.pow base (-exponent).toNat)

def toDouble : Numeral → Double
  | finite negative digits base exponent => .ofOrdinal negative (scaledOrdinal digits base exponent)
  | infinite negative => .ofOrdinal negative Double.infinity
  | nan => .ofOrdinal false (Double.infinity + 1)

end Numeral

def Double.read? (s : Bytes) : Option Double :=
  (Numeral.read? s).map Numeral.toDouble

/-- The decimal `digits * 10 ^ place`. -/
structure Decimal where
  digits : Nat
  place : Int
deriving DecidableEq, Repr

namespace Decimal

/-- Digits before and after the point, with no zeros at the end of the fraction and no point without
a fraction. -/
def positional (d : Decimal) : Bytes :=
  if 0 ≤ d.place then Bytes.ofNat (d.digits * Nat.pow 10 d.place.toNat)
  else
    let places := (-d.place).toNat
    let fraction := Bytes.ofNat (d.digits % Nat.pow 10 places)
    let padded := List.replicate (places - fraction.length) '0'.toUInt8 ++ fraction
    let shown := Bytes.dropTrailing '0' padded
    let whole := Bytes.ofNat (d.digits / Nat.pow 10 places)
    if shown.isEmpty then whole else whole ++ "." ++ shown

end Decimal

namespace Double

def powerOfTen (place : Int) : Nat × Nat :=
  if 0 ≤ place then (Nat.pow 10 place.toNat, 1) else (1, Nat.pow 10 (-place).toNat)

def compareHalfUnits (d : Decimal) (n : Nat) : Ordering :=
  let (a, b) := powerOfTen d.place
  compare (2 * (d.digits * a * Nat.pow 2 1074)) (n * b)

/-- The decimals that round to the finite nonzero ordinal `k` lie between the midpoints to its two
neighbours; the midpoints round to `k` if it is even. -/
def roundsTo (k : Nat) (d : Decimal) : Bool :=
  let lower := compareHalfUnits d (units (k - 1) + units k)
  let upper := compareHalfUnits d (units k + units (k + 1))
  (lower == .gt && upper == .lt) || (k % 2 == 0 && (lower == .eq || upper == .eq))

/-- How many digits the magnitude of the ordinal `k` has before the point, or less the number of
zeros right after the point. -/
def leadingPlace (k : Nat) : Int :=
  if Nat.pow 2 1074 ≤ units k then (Nat.toDigits 10 (units k / Nat.pow 2 1074)).length
  else 1 - ((Nat.toDigits 10 ((Nat.pow 2 1074 - 1) / units k)).length : Int)

/-- Of the two multiples of `10 ^ place` around the magnitude of `k`, the nearer one that rounds to
`k`, if there is one. Of two that are as near the even one is taken. -/
def onGrid? (k : Nat) (place : Int) : Option Decimal :=
  let (a, b) := powerOfTen place
  let below := units k * b / (a * Nat.pow 2 1074)
  let low : Decimal := ⟨below, place⟩
  let high : Decimal := ⟨below + 1, place⟩
  let exact := 2 * units k * b
  let middle := (2 * below + 1) * a * Nat.pow 2 1074
  let lowFirst := exact < middle || (exact == middle && below % 2 == 0)
  (if lowFirst then [low, high] else [high, low]).find? (roundsTo k)

/-- A decimal with the fewest digits that rounds to the finite ordinal `k`; the nearest of those.
Ever finer grids are tried; seventeen digits are always enough. -/
def shortest (k : Nat) : Decimal :=
  if k = 0 then ⟨0, 0⟩
  else
    let found := (List.range 17).findSome? fun n : Nat => onGrid? k (leadingPlace k - 1 - n)
    found.getD ⟨0, 0⟩

end Double

end PipeCompiler
