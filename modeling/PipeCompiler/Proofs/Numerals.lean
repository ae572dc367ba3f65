import PipeCompiler.Number
import PipeCompiler.Proofs.Positions

/-! Number lexemes are numerals.

What the lexer reads as a number, digits with perhaps a point and more digits behind it, is always a
numeral: its digits taken together, scaled down by one power of ten for each digit behind the
point. -/
namespace PipeCompiler

open Numeral (value)

/-- A number as the lexer reads it. -/
inductive Lexeme.IsNumber : Bytes → Prop
  | whole {ds : Bytes} (hne : ds ≠ []) (hds : ∀ b ∈ ds, isDigit b = true) : IsNumber ds
  | fraction {ds fs : Bytes} (hne : ds ≠ []) (hds : ∀ b ∈ ds, isDigit b = true) (hfne : fs ≠ [])
      (hfs : ∀ b ∈ fs, isDigit b = true) : IsNumber (ds ++ '.'.toUInt8 :: fs)

namespace Lexeme

private theorem takeWhile_isDigit (s : Bytes) : ∀ b ∈ s.takeWhile isDigit, isDigit b = true :=
  fun b hb => List.all_eq_true.mp List.all_takeWhile b hb

theorem isNumber_number {b : UInt8} (hb : isDigit b = true) (s : Bytes) :
    IsNumber (number (b :: s)).1 := by
  have hne : (b :: s).takeWhile isDigit ≠ [] := by simp [List.takeWhile_cons_of_pos hb]
  have hds := takeWhile_isDigit (b :: s)
  unfold number
  split
  · rename_i point digit t _
    split
    · rename_i hp
      simp only [Bool.and_eq_true, beq_iff_eq] at hp
      rw [hp.1]
      refine .fraction hne hds (List.cons_ne_nil _ _) ?_
      rw [List.forall_mem_cons]
      exact ⟨hp.2, takeWhile_isDigit t⟩
    · exact .whole hne hds
  · exact .whole hne hds

end Lexeme

namespace Numeral

variable {b : UInt8} {ds fs : Bytes}

theorem isDigit_bounds (h : Lexeme.isDigit b = true) : 48 ≤ b.toNat ∧ b.toNat ≤ 57 := by
  simp only [Lexeme.isDigit, Bool.and_eq_true, decide_eq_true_eq] at h
  exact ⟨UInt8.le_iff_toNat_le.mp h.1, UInt8.le_iff_toNat_le.mp h.2⟩

theorem lower_digit (h : Lexeme.isDigit b = true) : lower b = b := by
  have hb := isDigit_bounds h
  have hA : ¬ 'A'.toUInt8 ≤ b := fun hle => by
    have hnat : 65 ≤ b.toNat := UInt8.le_iff_toNat_le.mp hle
    omega
  simp [lower, hA]

theorem digit?_digit (h : Lexeme.isDigit b = true) : digit? 10 b = some (b.toNat - 48) := by
  have hb := isDigit_bounds h
  have hdigit : ('0'.toUInt8 ≤ b && b ≤ '9') = true := h
  simp only [digit?, lower_digit h, hdigit, if_true]
  rw [if_pos (by omega)]

theorem isDigit_digit (h : Lexeme.isDigit b = true) : isDigit 10 b = true := by
  rw [isDigit, digit?_digit h, Option.isSome_some]

theorem isDigitOrGroup_digit (h : Lexeme.isDigit b = true) : isDigitOrGroup 10 b = true := by
  rw [isDigitOrGroup, isDigit_digit h, Bool.true_or]

private theorem wellGrouped_of_forall {s : Bytes} (h : '_'.toUInt8 ∉ s) (base : Nat)
    (grouped : Bool) :
    wellGrouped base grouped s = true := by
  induction s generalizing grouped with
  | nil => rfl
  | cons b s ih =>
    have hb : (b == '_'.toUInt8) = false := by
      simpa using fun he : b = '_' => h (by simp [he])
    simp only [wellGrouped, hb, Bool.false_eq_true, if_false]
    exact ih (fun hmem => h (List.mem_cons_of_mem b hmem)) _

private theorem mantissa_digits (hds : ∀ b ∈ ds, Lexeme.isDigit b = true) :
    mantissa 10 ds = (ds, [], []) := by
  have hall : ∀ b ∈ ds, isDigitOrGroup 10 b = true := fun b hb => isDigitOrGroup_digit (hds b hb)
  have hdrop : ds.dropWhile (isDigitOrGroup 10) = [] := List.dropWhile_eq_nil_iff.mpr hall
  simp only [mantissa, List.takeWhile_eq_self_iff.mpr hall, hdrop]

private theorem mantissa_fraction (hds : ∀ b ∈ ds, Lexeme.isDigit b = true)
    (hfs : ∀ b ∈ fs, Lexeme.isDigit b = true) :
    mantissa 10 (ds ++ '.'.toUInt8 :: fs) = (ds, fs, []) := by
  have hall : ∀ b ∈ ds, isDigitOrGroup 10 b = true := fun b hb => isDigitOrGroup_digit (hds b hb)
  have hrest : ∀ b ∈ fs, isDigitOrGroup 10 b = true := fun b hb => isDigitOrGroup_digit (hfs b hb)
  have hpoint : isDigitOrGroup 10 '.'.toUInt8 = false := by decide
  have hdrop : fs.dropWhile (isDigitOrGroup 10) = [] := List.dropWhile_eq_nil_iff.mpr hrest
  simp only [mantissa, List.takeWhile_append_of_pos hall, List.dropWhile_append_of_pos hall,
    List.takeWhile_cons, List.dropWhile_cons, hpoint, Bool.false_eq_true, if_false, List.append_nil,
    beq_self_eq_true, if_true, List.takeWhile_eq_self_iff.mpr hrest, hdrop]

set_option maxRecDepth 2000 in
/-- A text that begins with a digit, and in which no letter and no underscore stands, is decimal. -/
theorem read?_eq_unsigned? {s : Bytes} (hb : Lexeme.isDigit b = true) (hgroup : '_'.toUInt8 ∉ s)
    (hx : ∀ c ∈ s.head?, lower c ≠ 'x'.toUInt8) :
    read? (b :: s) = unsigned? false 10 'e' (b :: s) := by
  have hbounds := isDigit_bounds hb
  have hne {c : UInt8} (hc : c.toNat < 48 ∨ 57 < c.toNat) : b ≠ c := by
    rintro rfl
    omega
  have hsign : sign (b :: s) = (false, b :: s) := by
    simp [sign, hne (c := '-') (by decide), hne (c := '+') (by decide)]
  have hword {w : Bytes} (hw : ∀ c ∈ w.head?, c.toNat < 48 ∨ 57 < c.toNat) :
      ((b :: s).map lower == w) = false := by
    cases w with
    | nil => rfl
    | cons c w => simp [lower_digit hb, hne (hw c (by simp))]
  have hgrouped : wellGrouped 10 false (b :: s) = true :=
    wellGrouped_of_forall (by simpa using ⟨(hne (by decide)).symm, hgroup⟩) _ _
  have hfinite : finite? false (b :: s) = unsigned? false 10 'e' (b :: s) := by
    cases s with
    | nil => simp only [finite?, hgrouped, if_true]
    | cons c s =>
      have hc : (lower c == 'x'.toUInt8) = false := by simpa using hx c (by simp)
      simp only [finite?, hc, Bool.and_false, Bool.false_and, Bool.false_eq_true, if_false,
        hgrouped, if_true]
  have hinf := hword (w := "inf") (by decide)
  have hinfinity := hword (w := "infinity") (by decide)
  have hnan := hword (w := "nan") (by decide)
  simp only [read?, hsign, hinf, hinfinity, hnan, Bool.or_self, Bool.false_eq_true, if_false,
    hfinite]

theorem unsigned?_of_mantissa {s : Bytes} (hs : mantissa 10 s = (ds, fs, [])) (hne : ds ≠ [])
    (hds : ∀ b ∈ ds, Lexeme.isDigit b = true) (hfs : ∀ b ∈ fs, Lexeme.isDigit b = true) :
    unsigned? false 10 'e' s = some (.finite false (value 10 (ds ++ fs)) 10 (-fs.length)) := by
  have hany : (ds ++ fs).any (isDigit 10) = true := by
    obtain ⟨b, ds, rfl⟩ := List.exists_cons_of_ne_nil hne
    simp [isDigit_digit (hds b (by simp))]
  have hplaces : fs.filter (isDigit 10) = fs :=
    List.filter_eq_self.mpr fun b hb => isDigit_digit (hfs b hb)
  simp only [unsigned?, hs, hany, if_true, hplaces]
  simp

theorem read?_whole (hne : ds ≠ []) (hds : ∀ b ∈ ds, Lexeme.isDigit b = true) :
    read? ds = some (.finite false (value 10 ds) 10 0) := by
  have hunsigned := unsigned?_of_mantissa (mantissa_digits hds) hne hds (List.forall_mem_nil _)
  obtain ⟨b, ds, rfl⟩ := List.exists_cons_of_ne_nil hne
  rw [List.forall_mem_cons] at hds
  rw [read?_eq_unsigned? hds.1, hunsigned, List.append_nil]
  · rfl
  · intro hmem
    exact absurd (hds.2 _ hmem) (by decide)
  · intro c hc hx
    rw [lower_digit (hds.2 c (List.mem_of_head? hc))] at hx
    exact absurd (hds.2 c (List.mem_of_head? hc)) (by rw [hx]; decide)

theorem read?_fraction (hne : ds ≠ []) (hds : ∀ b ∈ ds, Lexeme.isDigit b = true)
    (hfs : ∀ b ∈ fs, Lexeme.isDigit b = true) :
    read? (ds ++ '.'.toUInt8 :: fs) =
      some (.finite false (value 10 (ds ++ fs)) 10 (-fs.length)) := by
  have hunsigned := unsigned?_of_mantissa (mantissa_fraction hds hfs) hne hds hfs
  obtain ⟨b, ds, rfl⟩ := List.exists_cons_of_ne_nil hne
  rw [List.forall_mem_cons] at hds
  rw [← hunsigned, List.cons_append]
  have hdigit : ∀ c ∈ ds ++ '.'.toUInt8 :: fs, c = '.' ∨ Lexeme.isDigit c = true := by
    intro c hc
    simp only [List.mem_append, List.mem_cons] at hc
    rcases hc with hc | rfl | hc
    · exact .inr (hds.2 c hc)
    · exact .inl rfl
    · exact .inr (hfs c hc)
  refine read?_eq_unsigned? hds.1 (fun hmem => absurd (hdigit _ hmem) (by decide)) ?_
  intro c hc hx
  rcases hdigit c (List.mem_of_head? hc) with rfl | hd
  · exact absurd hx (by decide)
  · rw [lower_digit hd] at hx
    exact absurd hd (by rw [hx]; decide)

/-- No number lexeme is refused. -/
theorem read?_isNumber {s : Bytes} (h : Lexeme.IsNumber s) :
    ∃ digits places : Nat, read? s = some (.finite false digits 10 (-places)) := by
  cases h with
  | whole hne hds => exact ⟨_, 0, read?_whole hne hds⟩
  | fraction hne hds hfne hfs => exact ⟨_, _, read?_fraction hne hds hfs⟩

private theorem scaledOrdinal_le (digits base : Nat) (exponent : Int) :
    scaledOrdinal digits base exponent ≤ Double.infinity := by
  have hnearest (num den : Nat) : Double.nearestOrdinal num den ≤ Double.infinity :=
    Nat.min_le_right _ _
  unfold scaledOrdinal
  dsimp only
  split
  · exact Nat.zero_le _
  split
  · exact Nat.le_refl _
  split
  · exact Nat.zero_le _
  split
  · exact hnearest _ _
  · exact hnearest _ _

end Numeral

/-- The number that a lexeme denotes is positive or zero, and a number or infinite. -/
theorem Double.read?_isNumber {s : Bytes} (h : Lexeme.IsNumber s) :
    ∃ k ≤ Double.infinity, Double.read? s = some (.ofOrdinal false k) := by
  obtain ⟨digits, places, hread⟩ := Numeral.read?_isNumber h
  refine ⟨_, Numeral.scaledOrdinal_le digits 10 (-places), ?_⟩
  rw [Double.read?, hread]
  rfl

end PipeCompiler
