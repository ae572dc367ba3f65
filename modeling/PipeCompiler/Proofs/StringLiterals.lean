import PipeCompiler.Number
import PipeCompiler.Proofs.Encoding
import PipeCompiler.Target

/-! Strings in generated code.

The literal of a string can be decoded again, wherever it ends: what comes back is the string with
the replacement character in the place of each stray byte. -/
namespace PipeCompiler

/-- A text in which the replacement character stands for each stray byte. -/
def Bytes.mended (s : Bytes) : Bytes :=
  (glyphs s).flatMap fun g => ofChar g.toChar

namespace Target

/-- The character that a letter behind a backslash stands for. -/
def escapedChar (b : UInt8) : Char :=
  if b == 'b' then '\x08' else if b == 't' then '\t' else if b == 'n' then '\n'
  else if b == 'f' then '\x0C' else if b == 'r' then '\r' else Char.ofNat b.toNat

/-- The value of a string literal whose opening quote has been read, and what follows it. -/
def unquote? : Bytes → Option (Bytes × Bytes)
  | [] => none
  | b :: s =>
    if b == '"' then some ([], s)
    else if b == '\\' then
      match s with
      | [] => none
      | e :: s =>
        if e == 'u' then
          match s with
          | h₁ :: h₂ :: h₃ :: h₄ :: s => (unquote? s).map fun (value, rest) =>
              (Bytes.ofChar (Char.ofNat (Numeral.value 16 [h₁, h₂, h₃, h₄])) ++ value, rest)
          | _ => none
        else (unquote? s).map fun (value, rest) => (Bytes.ofChar (escapedChar e) ++ value, rest)
    else (unquote? s).map fun (value, rest) => (b :: value, rest)

section

variable {c : Char} {s rest : Bytes}

private theorem unquote?_plains {t : Bytes} (ht : ∀ b ∈ t, b ≠ '"' ∧ b ≠ '\\') :
    unquote? (t ++ s) = (unquote? s).map fun (value, rest) => (t ++ value, rest) := by
  induction t with
  | nil => simp
  | cons b t ih =>
    rw [List.forall_mem_cons] at ht
    rw [List.cons_append, unquote?.eq_def]
    simp [ht.1.1, ht.1.2, ih ht.2, Option.map_map, Function.comp_def]

theorem backslash_ne_quote : ('\\'.toUInt8 == '"'.toUInt8) = false := by decide

private theorem unquote?_escape {e : UInt8} (he : e ≠ 'u') :
    unquote? ('\\' :: e :: s) =
      (unquote? s).map fun (value, rest) => (Bytes.ofChar (escapedChar e) ++ value, rest) := by
  rw [unquote?.eq_def]
  simp [backslash_ne_quote, he]

private theorem unquote?_unicode {h₁ h₂ h₃ h₄ : UInt8} :
    unquote? ('\\' :: 'u' :: h₁ :: h₂ :: h₃ :: h₄ :: s) = (unquote? s).map fun (value, rest) =>
      (Bytes.ofChar (Char.ofNat (Numeral.value 16 [h₁, h₂, h₃, h₄])) ++ value, rest) := by
  rw [unquote?.eq_def]
  simp [backslash_ne_quote]

private theorem escapedChar_of_shortEscape? {letter : Char} (h : shortEscape? c = some letter) :
    letter.toUInt8 ≠ 'u' ∧ escapedChar letter.toUInt8 = c := by
  have hc := Char.ofNat_toNat c
  unfold shortEscape? at h
  split at h
  all_goals
    cases h
  all_goals
    rename_i hcode
    rw [hcode] at hc
    exact ⟨by decide, hc⟩

private theorem digit?_digitChar {n : Nat} (h : n < 16) :
    Numeral.digit? 16 (Nat.digitChar n).toUInt8 = some n := by
  have hall : ∀ n < 16, Numeral.digit? 16 (Nat.digitChar n).toUInt8 = some n := by decide
  exact hall n h

private theorem hex_four (n : Nat) (h : n < 65536) :
    ∃ h₁ h₂ h₃ h₄, Bytes.hex 4 n = [h₁, h₂, h₃, h₄] ∧ Numeral.value 16 [h₁, h₂, h₃, h₄] = n := by
  refine ⟨_, _, _, _, rfl, ?_⟩
  simp only [Numeral.value, List.filterMap_cons, List.filterMap_nil,
    digit?_digitChar (Nat.mod_lt _ (by decide : 0 < 16)), List.foldl_cons, List.foldl_nil]
  omega

theorem ne_of_shortEscape?_none {c : Char} (h : shortEscape? c = none) : c ≠ '"' ∧ c ≠ '\\' := by
  constructor
  · rintro rfl
    cases h
  · rintro rfl
    cases h

/-- A character of a literal is decoded to itself. -/
theorem unquote?_stringChar (c : Char) (s : Bytes) :
    unquote? (stringChar c ++ s) =
      (unquote? s).map fun (value, rest) => (Bytes.ofChar c ++ value, rest) := by
  unfold stringChar
  split
  · rename_i letter hletter
    obtain ⟨hu, hc⟩ := escapedChar_of_shortEscape? hletter
    rw [← hc]
    exact unquote?_escape hu
  · rename_i hnone
    split
    · rename_i hcode
      obtain ⟨h₁, h₂, h₃, h₄, hhex, hvalue⟩ := hex_four c.toNat (by omega)
      have hc := Char.ofNat_toNat c
      rw [← hvalue] at hc
      rw [hhex, ← hc]
      exact unquote?_unicode
    · obtain ⟨hq, hb⟩ := ne_of_shortEscape?_none hnone
      exact unquote?_plains (Bytes.plain_ofChar hq hb)

theorem unquote?_stringLiteral (s rest : Bytes) :
    unquote? ((glyphs s).flatMap (fun g => stringChar g.toChar) ++ '"'.toUInt8 :: rest) =
      some (s.mended, rest) := by
  unfold Bytes.mended
  induction glyphs s with
  | nil =>
    rw [List.flatMap_nil, List.nil_append, unquote?.eq_def]
    simp
  | cons g gs ih =>
    rw [List.flatMap_cons, List.flatMap_cons, List.append_assoc, unquote?_stringChar, ih]
    rfl

end

end Target
end PipeCompiler
