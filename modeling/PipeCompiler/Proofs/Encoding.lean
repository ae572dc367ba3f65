import PipeCompiler.Proofs.Decoding

/-! Characters and their bytes.

Decoding loses nothing: the units of a text have its bytes. And what is encoded is decoded to
itself, whatever follows. -/
namespace PipeCompiler

namespace Utf8

variable {b : UInt8} {s rest : Bytes} {c : Char} {count bits n : Nat}

private theorem isContinuation_iff : isContinuation b = true ↔ 0x80 ≤ b.toNat ∧ b.toNat < 0xC0 := by
  simp [isContinuation, UInt8.le_iff_toNat_le, UInt8.lt_iff_toNat_lt]

/-- One continuation byte more. -/
theorem continue?_succ :
    continue? (count + 1) bits s = some (n, rest) ↔
      ∃ b t, s = b :: t ∧ (0x80 ≤ b.toNat ∧ b.toNat < 0xC0) ∧
        continue? count (bits * 64 + (b.toNat - 0x80)) t = some (n, rest) := by
  cases s with
  | nil => simp [continue?]
  | cons b s =>
    by_cases hb : isContinuation b = true
    · have hbounds := isContinuation_iff.mp hb
      simp only [continue?, hb, if_true]
      constructor
      · intro h
        exact ⟨b, s, rfl, hbounds, h⟩
      · rintro ⟨_, _, ⟨rfl, rfl⟩, -, h⟩
        exact h
    · simp only [continue?, hb]
      constructor
      · intro h
        cases h
      · rintro ⟨_, _, ⟨rfl, rfl⟩, hbounds, -⟩
        exact absurd (isContinuation_iff.mpr hbounds) hb

theorem scalar?_eq_some {least : Nat} :
    scalar? least count bits s = some (c, rest) ↔
      continue? count bits s = some (c.toNat, rest) ∧ least ≤ c.toNat := by
  unfold scalar?
  constructor
  · intro h
    split at h
    · cases h
    · rename_i n r hc
      split at h
      · rename_i hn
        cases h
        rw [toNat_ofNat hn.2]
        exact ⟨hc, hn.1⟩
      · cases h
  · rintro ⟨hc, hle⟩
    have hvalid : c.toNat.isValidChar := c.valid
    simp [hc, hle, hvalid]

private theorem toUInt8_of_eq {m : Nat} (h : m = b.toNat) : m.toUInt8 = b := by
  rw [h]
  exact UInt8.ofNat_toNat

/-- Decoding is the inverse of encoding. -/
theorem ofChar_of_char? (h : char? b s = some (c, rest)) : b :: s = Bytes.ofChar c ++ rest := by
  have hb := b.toNat_lt
  simp only [char?, UInt8.lt_iff_toNat_lt, UInt8.toNat_ofNat] at h
  split at h
  · cases h
    have hvalid : b.toNat.isValidChar := .inl (by omega)
    simp only [Bytes.ofChar, toNat_ofNat hvalid]
    rw [if_pos (by omega)]
    simp
  split at h
  · cases h
  split at h
  · obtain ⟨hc, hle⟩ := scalar?_eq_some.mp h
    simp only [continue?_succ] at hc
    obtain ⟨b₁, t, rfl, hb₁, hc⟩ := hc
    simp only [continue?, Option.some.injEq, Prod.mk.injEq] at hc
    obtain ⟨hc, rfl⟩ := hc
    simp only [Bytes.ofChar, ← hc]
    rw [if_neg (by omega), if_pos (by omega)]
    simp only [List.cons_append, List.nil_append, List.cons.injEq, and_true]
    exact ⟨(toUInt8_of_eq (by omega)).symm, (toUInt8_of_eq (by omega)).symm⟩
  split at h
  · obtain ⟨hc, hle⟩ := scalar?_eq_some.mp h
    simp only [continue?_succ] at hc
    obtain ⟨b₁, t₁, rfl, hb₁, b₂, t, rfl, hb₂, hc⟩ := hc
    simp only [continue?, Option.some.injEq, Prod.mk.injEq] at hc
    obtain ⟨hc, rfl⟩ := hc
    simp only [Bytes.ofChar, ← hc]
    rw [if_neg (by omega), if_neg (by omega), if_pos (by omega)]
    simp only [List.cons_append, List.nil_append, List.cons.injEq, and_true]
    exact ⟨(toUInt8_of_eq (by omega)).symm, (toUInt8_of_eq (by omega)).symm,
      (toUInt8_of_eq (by omega)).symm⟩
  split at h
  · obtain ⟨hc, hle⟩ := scalar?_eq_some.mp h
    simp only [continue?_succ] at hc
    obtain ⟨b₁, t₁, rfl, hb₁, b₂, t₂, rfl, hb₂, b₃, t, rfl, hb₃, hc⟩ := hc
    simp only [continue?, Option.some.injEq, Prod.mk.injEq] at hc
    obtain ⟨hc, rfl⟩ := hc
    simp only [Bytes.ofChar, ← hc]
    rw [if_neg (by omega), if_neg (by omega), if_neg (by omega)]
    simp only [List.cons_append, List.nil_append, List.cons.injEq, and_true]
    exact ⟨(toUInt8_of_eq (by omega)).symm, (toUInt8_of_eq (by omega)).symm,
      (toUInt8_of_eq (by omega)).symm, (toUInt8_of_eq (by omega)).symm⟩
  · cases h

theorem toNat_toUInt8 {m : Nat} (h : m < 256) : m.toUInt8.toNat = m := by
  simpa using Nat.mod_eq_of_lt h

theorem toNat_lt (c : Char) : c.toNat < 0x110000 := by
  rcases c.valid with h | h
  · exact Nat.lt_trans h (by decide)
  · exact h.2

theorem char?_of_ofChar (h : b :: s = Bytes.ofChar c ++ rest) : char? b s = some (c, rest) := by
  have hc := toNat_lt c
  simp only [Bytes.ofChar] at h
  simp only [char?, UInt8.lt_iff_toNat_lt, UInt8.toNat_ofNat]
  split at h
  · obtain ⟨rfl, rfl⟩ := List.cons.inj h
    rw [toNat_toUInt8 (by omega), if_pos (by omega), Char.ofNat_toNat]
  split at h
  · obtain ⟨rfl, rfl⟩ := List.cons.inj h
    rw [toNat_toUInt8 (by omega), if_neg (by omega), if_neg (by omega), if_pos (by omega)]
    refine scalar?_eq_some.mpr ⟨?_, by omega⟩
    simp only [continue?_succ, continue?]
    refine ⟨_, _, rfl, ?_, ?_⟩
    · rw [toNat_toUInt8 (by omega)]
      omega
    · rw [toNat_toUInt8 (by omega)]
      simp only [Option.some.injEq, Prod.mk.injEq]
      exact ⟨by omega, rfl⟩
  split at h
  · obtain ⟨rfl, rfl⟩ := List.cons.inj h
    rw [toNat_toUInt8 (by omega), if_neg (by omega), if_neg (by omega), if_neg (by omega),
      if_pos (by omega)]
    refine scalar?_eq_some.mpr ⟨?_, by omega⟩
    simp only [continue?_succ, continue?]
    refine ⟨_, _, rfl, ?_, _, _, rfl, ?_, ?_⟩
    · rw [toNat_toUInt8 (by omega)]
      omega
    · rw [toNat_toUInt8 (by omega)]
      omega
    · rw [toNat_toUInt8 (by omega), toNat_toUInt8 (by omega)]
      simp only [Option.some.injEq, Prod.mk.injEq]
      exact ⟨by omega, rfl⟩
  · obtain ⟨rfl, rfl⟩ := List.cons.inj h
    rw [toNat_toUInt8 (by omega), if_neg (by omega), if_neg (by omega), if_neg (by omega),
      if_neg (by omega), if_pos (by omega)]
    refine scalar?_eq_some.mpr ⟨?_, by omega⟩
    simp only [continue?_succ, continue?]
    refine ⟨_, _, rfl, ?_, _, _, rfl, ?_, _, _, rfl, ?_, ?_⟩
    · rw [toNat_toUInt8 (by omega)]
      omega
    · rw [toNat_toUInt8 (by omega)]
      omega
    · rw [toNat_toUInt8 (by omega)]
      omega
    · rw [toNat_toUInt8 (by omega), toNat_toUInt8 (by omega), toNat_toUInt8 (by omega)]
      simp only [Option.some.injEq, Prod.mk.injEq]
      exact ⟨by omega, rfl⟩

end Utf8

/-- The units of a text have its bytes. -/
theorem glyphs_bytes (s : Bytes) : (glyphs s).flatMap Glyph.bytes = s := by
  fun_induction glyphs s with
  | case1 => rfl
  | case2 b s c rest h ih =>
    rw [List.flatMap_cons, ih]
    exact (Utf8.ofChar_of_char? h).symm
  | case3 b s h ih =>
    rw [List.flatMap_cons, ih]
    rfl

private theorem Bytes.ofChar_ne_nil (c : Char) : ofChar c ≠ [] := by
  simp only [ofChar]
  split
  · simp
  split
  · simp
  split <;> simp

/-- An encoded character is read as itself, whatever follows it. -/
theorem glyphs_ofChar (c : Char) (s : Bytes) :
    glyphs (Bytes.ofChar c ++ s) = .char c :: glyphs s := by
  obtain ⟨b, t, hbt⟩ := List.exists_cons_of_ne_nil (Bytes.ofChar_ne_nil c)
  have hread : Utf8.char? b (t ++ s) = some (c, s) :=
    Utf8.char?_of_ofChar (by rw [hbt]; rfl)
  rw [hbt, List.cons_append, glyphs]
  split
  · rename_i h
    rw [hread] at h
    cases h
    rfl
  · rename_i h
    rw [hread] at h
    cases h

theorem glyphs_chars (cs : List Char) : glyphs (cs.flatMap Bytes.ofChar) = cs.map Glyph.char := by
  induction cs with
  | nil => rw [List.flatMap_nil, glyphs, List.map_nil]
  | cons c cs ih => rw [List.flatMap_cons, glyphs_ofChar, ih, List.map_cons]

theorem glyphs_ofString (s : String) : glyphs s = s.toList.map Glyph.char :=
  glyphs_chars s.toList

private theorem Bytes.ofChar_injective {c d : Char} (h : ofChar c = ofChar d) : c = d := by
  have hc := glyphs_ofChar c []
  rw [h, glyphs_ofChar d []] at hc
  cases hc
  rfl

/-- A character outside ASCII has no ASCII bytes. -/
theorem Bytes.ofChar_ascii (c : Char) :
    (c.toNat < 0x80 ∧ ofChar c = [c.toUInt8]) ∨ ∀ b ∈ ofChar c, ¬b < 0x80 := by
  have hc := Utf8.toNat_lt c
  simp only [ofChar]
  split
  · rename_i h
    exact .inl ⟨h, rfl⟩
  · right
    simp only [UInt8.lt_iff_toNat_lt, UInt8.toNat_ofNat]
    split
    · simp only [List.forall_mem_cons]
      rw [Utf8.toNat_toUInt8 (by omega), Utf8.toNat_toUInt8 (by omega)]
      exact ⟨by omega, by omega, by simp⟩
    split
    · simp only [List.forall_mem_cons]
      rw [Utf8.toNat_toUInt8 (by omega), Utf8.toNat_toUInt8 (by omega),
        Utf8.toNat_toUInt8 (by omega)]
      exact ⟨by omega, by omega, by omega, by simp⟩
    · simp only [List.forall_mem_cons]
      rw [Utf8.toNat_toUInt8 (by omega), Utf8.toNat_toUInt8 (by omega),
        Utf8.toNat_toUInt8 (by omega), Utf8.toNat_toUInt8 (by omega)]
      exact ⟨by omega, by omega, by omega, by omega, by simp⟩

/-- An ASCII character is no part of another one. -/
theorem Bytes.notMem_ofChar {c d : Char} (hd : d.toNat < 128) (hne : c ≠ d) :
    d.toUInt8 ∉ ofChar c := by
  have hbyte : ofChar d = [d.toUInt8] := if_pos hd
  intro hmem
  rcases ofChar_ascii c with ⟨-, hc⟩ | hc
  · rw [hc, List.mem_singleton] at hmem
    exact hne (ofChar_injective (by rw [hc, hbyte, hmem]))
  · refine hc _ hmem (UInt8.lt_iff_toNat_lt.mpr ?_)
    rw [Char.toUInt8, UInt32.toNat_toUInt8]
    exact Nat.lt_of_le_of_lt (Nat.mod_le _ _) hd

theorem Bytes.plain_ofChar {c : Char} (hq : c ≠ '"') (hb : c ≠ '\\') :
    ∀ b ∈ ofChar c, b ≠ '"'.toUInt8 ∧ b ≠ '\\'.toUInt8 := by
  intro b hmem
  constructor
  · rintro rfl
    exact notMem_ofChar (by decide) hq hmem
  · rintro rfl
    exact notMem_ofChar (by decide) hb hmem

theorem Bytes.mem_hex {width n : Nat} {b : UInt8} (h : b ∈ Bytes.hex width n) :
    b ≠ '"' ∧ b ≠ '\\' := by
  induction width generalizing n with
  | zero => cases h
  | succ width ih =>
    rw [Bytes.hex, List.mem_append, List.mem_singleton] at h
    rcases h with h | rfl
    · exact ih h
    · have hdigits : ∀ d < 16, (Nat.digitChar d).toUInt8 ≠ '"'.toUInt8 ∧
          (Nat.digitChar d).toUInt8 ≠ '\\'.toUInt8 := by decide
      exact hdigits _ (Nat.mod_lt _ (by decide))

end PipeCompiler
