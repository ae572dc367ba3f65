/-! Texts as lists of bytes. Source files, messages and generated modules are all bytes: nothing
promises that they are valid UTF-8, so nothing here is a `String`. -/
namespace PipeCompiler

abbrev Bytes := List UInt8

/-- A character below U+0100 stands for the byte of the same number. -/
instance coeCharByte : Coe Char UInt8 := ⟨Char.toUInt8⟩

namespace Bytes

def ofChar (c : Char) : Bytes :=
  let n := c.toNat
  if n < 0x80 then [n.toUInt8]
  else if n < 0x800 then [(0xC0 + n / 64).toUInt8, (0x80 + n % 64).toUInt8]
  else if n < 0x10000 then
    [(0xE0 + n / 4096).toUInt8, (0x80 + n / 64 % 64).toUInt8, (0x80 + n % 64).toUInt8]
  else
    [(0xF0 + n / 262144).toUInt8, (0x80 + n / 4096 % 64).toUInt8, (0x80 + n / 64 % 64).toUInt8,
      (0x80 + n % 64).toUInt8]

def ofString (s : String) : Bytes :=
  s.toList.flatMap ofChar

instance coeStringBytes : Coe String Bytes := ⟨ofString⟩

def ofNat (n : Nat) : Bytes :=
  (Nat.toDigits 10 n).map Char.toUInt8

def ofInt : Int → Bytes
  | .ofNat n => ofNat n
  | .negSucc n => '-'.toUInt8 :: ofNat (n + 1)

def hex (width n : Nat) : Bytes :=
  match width with
  | 0 => []
  | width + 1 => hex width (n / 16) ++ [(Nat.digitChar (n % 16)).toUInt8]

def cutAt (b : UInt8) : Bytes → List Bytes
  | [] => [[]]
  | c :: s =>
    match cutAt b s with
    | [] => [[c]]
    | line :: lines => if c = b then [] :: line :: lines else (c :: line) :: lines

/-- The lines of a text; a final line break is followed by one more, empty line. -/
def lines (s : Bytes) : List Bytes :=
  cutAt '\n' s

def dropTrailing (b : UInt8) (s : Bytes) : Bytes :=
  (s.reverse.dropWhile (· == b)).reverse

def after? (start s : Bytes) : Option Bytes :=
  if start.isPrefixOf s then some (s.drop start.length) else none

/-- A text as its lines, each with the line break that ends it. The last one may have none. -/
def cutLines : Bytes → List Bytes
  | [] => []
  | b :: s =>
    if b == '\n' then [b] :: cutLines s
    else
      match cutLines s with
      | [] => [[b]]
      | line :: lines => (b :: line) :: lines

def dropEnd (b : UInt8) (s : Bytes) : Bytes :=
  if s.getLast? = some b then s.dropLast else s

def chomp (line : Bytes) : Bytes :=
  if line.getLast? = some '\n'.toUInt8 then dropEnd '\r' line.dropLast else line

def readLines (s : Bytes) : List Bytes :=
  (cutLines s).map chomp

end Bytes
end PipeCompiler
