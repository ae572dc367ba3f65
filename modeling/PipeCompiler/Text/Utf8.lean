import PipeCompiler.Text.Bytes

/-! Decoding of UTF-8 that never fails: a byte at which no valid sequence starts is a unit of its
own. `glyphs` cuts a text into such units, and `Glyph.bytes` gives each unit its bytes back. -/
namespace PipeCompiler

inductive Glyph
  | char (c : Char)
  /-- A byte at which no valid sequence starts. -/
  | stray (b : UInt8)
deriving DecidableEq, Repr

namespace Utf8

def isContinuation (b : UInt8) : Bool :=
  0x80 ≤ b && b < 0xC0

/-- Appends the six payload bits of each of `count` continuation bytes to `bits`. -/
def continue? (count bits : Nat) (s : Bytes) : Option (Nat × Bytes) :=
  match count, s with
  | 0, s => some (bits, s)
  | _ + 1, [] => none
  | count + 1, b :: s =>
    if isContinuation b then continue? count (bits * 64 + (b.toNat - 0x80)) s else none

/-- A sequence encodes a scalar value, and no shorter sequence encodes the same one. -/
def scalar? (least count bits : Nat) (s : Bytes) : Option (Char × Bytes) :=
  match continue? count bits s with
  | none => none
  | some (n, rest) =>
    if least ≤ n ∧ n.isValidChar then some (Char.ofNat n, rest) else none

def char? (b : UInt8) (s : Bytes) : Option (Char × Bytes) :=
  if b < 0x80 then some (Char.ofNat b.toNat, s)
  else if b < 0xC0 then none
  else if b < 0xE0 then scalar? 0x80 1 (b.toNat - 0xC0) s
  else if b < 0xF0 then scalar? 0x800 2 (b.toNat - 0xE0) s
  else if b < 0xF8 then scalar? 0x10000 3 (b.toNat - 0xF0) s
  else none

theorem continue?_length {count bits : Nat} {s : Bytes} {n : Nat} {rest : Bytes}
    (h : continue? count bits s = some (n, rest)) : rest.length ≤ s.length := by
  induction count generalizing bits s with
  | zero => simp_all [continue?]
  | succ count ih =>
    match s with
    | [] => simp [continue?] at h
    | b :: s =>
      rw [continue?] at h
      split at h
      · exact Nat.le_succ_of_le (ih h)
      · simp at h

theorem scalar?_length {least count bits : Nat} {s : Bytes} {c : Char} {rest : Bytes}
    (h : scalar? least count bits s = some (c, rest)) : rest.length ≤ s.length := by
  unfold scalar? at h
  split at h
  · simp at h
  · rename_i hc
    split at h
    · simp only [Option.some.injEq, Prod.mk.injEq] at h
      exact h.2 ▸ continue?_length hc
    · simp at h

theorem char?_length {b : UInt8} {s : Bytes} {c : Char} {rest : Bytes}
    (h : char? b s = some (c, rest)) : rest.length ≤ s.length := by
  unfold char? at h
  repeat' split at h
  all_goals first
    | exact scalar?_length h
    | simp at h
  exact h.2 ▸ Nat.le_refl _

end Utf8

def glyphs : Bytes → List Glyph
  | [] => []
  | b :: s =>
    match _h : Utf8.char? b s with
    | some (c, rest) => .char c :: glyphs rest
    | none => .stray b :: glyphs s
termination_by s => s.length
decreasing_by
  · exact Nat.lt_succ_of_le (Utf8.char?_length _h)
  · exact Nat.lt_succ_self _

namespace Glyph

def bytes : Glyph → Bytes
  | char c => Bytes.ofChar c
  | stray b => [b]

def toChar : Glyph → Char
  | char c => c
  | stray _ => '\uFFFD'

def first (b : UInt8) (s : Bytes) : Glyph :=
  match Utf8.char? b s with
  | some (c, _) => char c
  | none => stray b

end Glyph

def Bytes.isValid (s : Bytes) : Bool :=
  (glyphs s).all fun
    | .char _ => true
    | .stray _ => false

namespace Blank

def ranges : List (Nat × Nat) :=
  [(0x09, 0x0D), (0x20, 0x20), (0x85, 0x85), (0xA0, 0xA0), (0x1680, 0x1680), (0x2000, 0x200A),
    (0x2028, 0x2029), (0x202F, 0x202F), (0x205F, 0x205F), (0x3000, 0x3000)]

def isBlank (c : Char) : Bool :=
  ranges.any fun (first, last) => first ≤ c.toNat && c.toNat ≤ last

end Blank

def Glyph.isBlank : Glyph → Bool
  | .char c => Blank.isBlank c
  | .stray _ => false

def Glyph.words : List Glyph → List (List Glyph)
  | [] => []
  | g :: gs =>
    if g.isBlank then words gs
    else (g :: gs.takeWhile (!·.isBlank)) :: words (gs.dropWhile (!·.isBlank))
termination_by gs => gs.length
decreasing_by
  · exact Nat.lt_succ_self _
  · exact Nat.lt_succ_of_le (List.dropWhile_suffix _).length_le

namespace Bytes

def ofGlyphs (gs : List Glyph) : Bytes :=
  gs.flatMap Glyph.bytes

def trim (s : Bytes) : Bytes :=
  ofGlyphs (((glyphs s).dropWhile Glyph.isBlank).reverse.dropWhile Glyph.isBlank).reverse

def words (s : Bytes) : List Bytes :=
  (Glyph.words (glyphs s)).map ofGlyphs

end Bytes

end PipeCompiler
