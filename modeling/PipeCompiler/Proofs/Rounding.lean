import Mathlib.Tactic.Linarith
import Mathlib.Tactic.Ring
import PipeCompiler.Number

/-! Rounding to the nearest number.

From each ordinal to the next the magnitude grows by a power of two that depends on the binade. So
the ordinals whose magnitudes lie around a fraction are neighbours, and `nearestOrdinal` gives the
one on the same side of the midpoint between them. -/
namespace PipeCompiler.Double

theorem shift_of_lt {k : Nat} (h : k < 2 ^ 53) : shift k = 0 := by
  simp only [shift, Nat.pow_eq]
  omega

theorem shift_binade (s : Nat) {r : Nat} (h : r < 2 ^ 52) :
    shift ((s + 1) * 2 ^ 52 + r) = s := by
  simp only [shift, Nat.pow_eq]
  omega

theorem units_of_lt {k : Nat} (h : k < 2 ^ 53) : units k = k := by
  simp only [units, shift_of_lt h, Nat.pow_eq]
  split <;> omega

theorem units_binade (s : Nat) {r : Nat} (h : r < 2 ^ 52) :
    units ((s + 1) * 2 ^ 52 + r) = (2 ^ 52 + r) * 2 ^ s := by
  have hnormal : ¬(s + 1) * 2 ^ 52 + r < 2 ^ 52 := by omega
  have hrest : ((s + 1) * 2 ^ 52 + r) % 2 ^ 52 = r := by omega
  simp only [units, shift_binade s h, Nat.pow_eq, hnormal, if_false, hrest]

/-- An ordinal is small, or it has a place in a binade. -/
theorem cases_binade (k : Nat) : k < 2 ^ 52 ∨ ∃ s r, r < 2 ^ 52 ∧ k = (s + 1) * 2 ^ 52 + r := by
  by_cases h : k < 2 ^ 52
  · exact .inl h
  · refine .inr ⟨k / 2 ^ 52 - 1, k % 2 ^ 52, Nat.mod_lt _ (by decide), ?_⟩
    omega

theorem units_succ (k : Nat) : units (k + 1) = units k + 2 ^ shift k := by
  rcases cases_binade k with h | ⟨s, r, hr, rfl⟩
  · rw [units_of_lt (by omega), units_of_lt (by omega), shift_of_lt (by omega), Nat.pow_zero]
  · rw [units_binade s hr, shift_binade s hr]
    by_cases hlast : r + 1 < 2 ^ 52
    · rw [Nat.add_assoc, units_binade s hlast]
      ring
    · -- The next ordinal is the first one of the next binade.
      have hnext : (s + 1) * 2 ^ 52 + r + 1 = (s + 1 + 1) * 2 ^ 52 + 0 := by omega
      have hr : r = 2 ^ 52 - 1 := by omega
      rw [hnext, units_binade (s + 1) (by decide), hr]
      ring

theorem units_strictMono : StrictMono units := by
  apply strictMono_nat_of_lt_succ
  intro k
  rw [units_succ]
  exact Nat.lt_add_of_pos_right (Nat.two_pow_pos _)

theorem shift_mono {j k : Nat} (h : j ≤ k) : shift j ≤ shift k :=
  Nat.sub_le_sub_right (Nat.div_le_div_right h) 1

/-- A magnitude has at most 53 significant bits. -/
theorem units_lt (k : Nat) : units k < 2 ^ 53 * 2 ^ shift k := by
  rcases cases_binade k with h | ⟨s, r, hr, rfl⟩
  · rw [units_of_lt (by omega), shift_of_lt (by omega)]
    omega
  · rw [units_binade s hr, shift_binade s hr]
    exact Nat.mul_lt_mul_of_pos_right (by omega) (Nat.two_pow_pos s)

theorem floorOrdinal_bounds (n : Nat) :
    units (floorOrdinal n) ≤ n ∧ n < units (floorOrdinal n + 1) := by
  by_cases hsmall : n < 2 ^ 53
  · have hlog : n.log2 - 52 = 0 := by
      by_cases hn : n = 0
      · rw [hn]
        rfl
      · have := (Nat.log2_lt hn).mpr hsmall
        omega
    have hfloor : floorOrdinal n = n := by simp [floorOrdinal, hlog, Nat.pow_eq]
    rw [hfloor, units_succ, units_of_lt hsmall, shift_of_lt hsmall]
    omega
  · have hn : n ≠ 0 := by omega
    have hlog : 53 ≤ n.log2 := (Nat.le_log2 hn).mpr (by omega)
    obtain ⟨s, hs⟩ : ∃ s, n.log2 - 52 = s := ⟨_, rfl⟩
    have hpow : n.log2 = 52 + s := by omega
    have hlow : 2 ^ 52 * 2 ^ s ≤ n := by
      rw [← Nat.pow_add, ← hpow]
      exact Nat.log2_self_le hn
    have hhigh : n < 2 ^ 53 * 2 ^ s := by
      rw [← Nat.pow_add, ← Nat.log2_lt hn]
      omega
    have hpos : 0 < 2 ^ s := Nat.two_pow_pos s
    have hquot : 2 ^ 52 ≤ n / 2 ^ s := (Nat.le_div_iff_mul_le hpos).mpr hlow
    have hquot' : n / 2 ^ s < 2 ^ 53 := (Nat.div_lt_iff_lt_mul hpos).mpr hhigh
    obtain ⟨r, hr⟩ : ∃ r, n / 2 ^ s = 2 ^ 52 + r := ⟨_, (Nat.add_sub_cancel' hquot).symm⟩
    have hr52 : r < 2 ^ 52 := by omega
    have hfloor : floorOrdinal n = (s + 1) * 2 ^ 52 + r := by
      simp only [floorOrdinal, hs, Nat.pow_eq, hr]
      ring
    rw [hfloor, units_succ, units_binade s hr52, shift_binade s hr52, ← hr]
    have hdiv := Nat.div_mul_le_self n (2 ^ s)
    have hlt := Nat.lt_mul_div_succ n hpos
    constructor
    · exact hdiv
    · linarith

/-- The fraction `scaled / den` of a unit lies between the midpoints on both sides of the magnitude
of `k`, and on one of them only if `k` is even. -/
structure IsNearest (k scaled den : Nat) : Prop where
  lower : (units (k - 1) + units k) * den ≤ 2 * scaled
  upper : 2 * scaled ≤ (units k + units (k + 1)) * den
  even : (units (k - 1) + units k) * den = 2 * scaled ∨
    2 * scaled = (units k + units (k + 1)) * den → k % 2 = 0

variable {k scaled den : Nat}

theorem IsNearest.of_mul_right {c : Nat} (hc : 0 < c) (h : IsNearest k (scaled * c) (den * c)) :
    IsNearest k scaled den := by
  obtain ⟨hlower, hupper, heven⟩ := h
  rw [← Nat.mul_assoc, ← Nat.mul_assoc] at hlower hupper
  refine ⟨Nat.le_of_mul_le_mul_right hlower hc, Nat.le_of_mul_le_mul_right hupper hc, ?_⟩
  intro h
  apply heven
  rw [← Nat.mul_assoc, ← Nat.mul_assoc, ← Nat.mul_assoc]
  exact h.imp (congrArg (· * c)) (congrArg (· * c))

/-- A fraction between two ordinals can only be nearest to one of these. -/
theorem IsNearest.eq_or_eq {f : Nat} (h : IsNearest k scaled den)
    (hfloor : units f * den ≤ scaled) (hnext : scaled < units (f + 1) * den) :
    k = f ∨ k = f + 1 := by
  have hlower := h.lower
  have hupper := h.upper
  have hle : k ≤ f + 1 := by
    by_contra hlt
    have hbefore := units_strictMono.monotone (show f + 1 ≤ k - 1 by omega)
    have hat := units_strictMono.monotone (show f + 1 ≤ k by omega)
    have hmid := Nat.mul_le_mul_right den (Nat.add_le_add hbefore hat)
    linarith
  have hge : f ≤ k := by
    by_contra hlt
    have hat := units_strictMono (show k < f by omega)
    have hafter := units_strictMono.monotone (show k + 1 ≤ f by omega)
    have hden : 0 < den := Nat.pos_of_mul_pos_left (Nat.zero_lt_of_lt hnext)
    have hmid := Nat.mul_lt_mul_of_pos_right (Nat.add_lt_add_of_lt_of_le hat hafter) hden
    linarith
  omega

theorem nearestOrdinal_eq {num : Nat} (hden : 0 < den) (hk : k ≤ infinity)
    (h : IsNearest k (num * Nat.pow 2 1074) den) : nearestOrdinal num den = k := by
  unfold nearestOrdinal
  generalize num * Nat.pow 2 1074 = scaled at h
  obtain ⟨f, hf⟩ : ∃ f, floorOrdinal (scaled / den) = f := ⟨_, rfl⟩
  have hbounds := floorOrdinal_bounds (scaled / den)
  rw [hf] at hbounds
  have hfloor : units f * den ≤ scaled := (Nat.le_div_iff_mul_le hden).mp hbounds.1
  have hnext : scaled < units (f + 1) * den := (Nat.div_lt_iff_lt_mul hden).mp hbounds.2
  simp only [hf]
  rcases h.eq_or_eq hfloor hnext with rfl | rfl
  · rcases Nat.lt_or_eq_of_le h.upper with hlt | heq
    · rw [Nat.compare_eq_lt.mpr hlt]
      exact Nat.min_eq_left hk
    · rw [Nat.compare_eq_eq.mpr heq]
      simp only [h.even (.inr heq), Nat.add_zero]
      exact Nat.min_eq_left hk
  · have hlower := h.lower
    rw [Nat.add_sub_cancel] at hlower
    rcases Nat.lt_or_eq_of_le hlower with hlt | heq
    · rw [Nat.compare_eq_gt.mpr hlt]
      exact Nat.min_eq_left hk
    · have heven := h.even (.inl heq)
      have hodd : f % 2 = 1 := by omega
      rw [Nat.compare_eq_eq.mpr heq.symm]
      simp only [hodd]
      exact Nat.min_eq_left hk

end PipeCompiler.Double
