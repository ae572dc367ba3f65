import Mathlib.Algebra.Order.Field.Basic
import Mathlib.Data.Rat.Cast.Order
import Mathlib.Tactic.FieldSimp
import Mathlib.Tactic.Linarith
import Mathlib.Tactic.Ring
import PipeCompiler.Proofs.NumberLiterals

/-! Correct rounding.

What rounding to the nearest number means is said here with rational numbers and the fields of the
binary format: no other number is nearer, and of two that are as near the even one is taken. A
numeral is rounded correctly, whatever the number of its digits. -/
namespace PipeCompiler.Double

/-- The magnitude that the exponent and the fraction of a number give. The formula goes on to
infinity, which stands for the power of two behind all finite numbers. -/
def magnitude (k : Nat) : ℚ :=
  if k / 2 ^ 52 = 0 then (k % 2 ^ 52 : Nat) * (2 : ℚ) ^ (-1074 : ℤ)
  else (2 ^ 52 + k % 2 ^ 52 : Nat) * (2 : ℚ) ^ ((k / 2 ^ 52 : Nat) - 1075 : ℤ)

/-- The number `k` is nearest to `x` among all numbers up to infinity, and even if another one is as
near. -/
structure IsRounded (x : ℚ) (k : Nat) : Prop where
  le : k ≤ infinity
  nearest : ∀ j ≤ infinity, |x - magnitude k| ≤ |x - magnitude j|
  even : ∀ j ≤ infinity, j ≠ k → |x - magnitude k| = |x - magnitude j| → k % 2 = 0

theorem magnitude_eq (k : Nat) : magnitude k = units k * (2 : ℚ) ^ (-1074 : ℤ) := by
  have htwo : (2 : ℚ) ≠ 0 := two_ne_zero
  unfold magnitude
  rcases cases_binade k with h | ⟨s, r, hr, rfl⟩
  · rw [if_pos (by omega), units_of_lt (by omega), Nat.mod_eq_of_lt h]
  · have hdiv : ((s + 1) * 2 ^ 52 + r) / 2 ^ 52 = s + 1 := by omega
    have hmod : ((s + 1) * 2 ^ 52 + r) % 2 ^ 52 = r := by omega
    have hexp : ((s + 1 : Nat) - 1075 : ℤ) = (s : ℤ) + -1074 := by omega
    rw [units_binade s hr, hdiv, hmod, if_neg (by omega), hexp, zpow_add₀ htwo, zpow_natCast]
    generalize (2 : ℚ) ^ (-1074 : ℤ) = unit
    push_cast
    ring

theorem magnitude_strictMono : StrictMono magnitude := by
  intro j k h
  rw [magnitude_eq, magnitude_eq]
  have hunits : (units j : ℚ) < units k := by exact_mod_cast units_strictMono h
  exact mul_lt_mul_of_pos_right hunits (zpow_pos two_pos _)

/-- Of two numbers the larger one is nearer from the middle on. -/
theorem abs_sub_le_iff_middle_le {a b x : ℚ} (h : a < b) : |x - b| ≤ |x - a| ↔ a + b ≤ 2 * x := by
  have hfactor : (x - a) ^ 2 - (x - b) ^ 2 = (b - a) * (2 * x - (a + b)) := by ring
  rw [← sq_le_sq, ← sub_nonneg, hfactor, mul_nonneg_iff_of_pos_left (sub_pos.mpr h), sub_nonneg]

theorem abs_sub_le_iff_le_middle {a b x : ℚ} (h : a < b) : |x - a| ≤ |x - b| ↔ 2 * x ≤ a + b := by
  have hfactor : (x - b) ^ 2 - (x - a) ^ 2 = (b - a) * (a + b - 2 * x) := by ring
  rw [← sq_le_sq, ← sub_nonneg, hfactor, mul_nonneg_iff_of_pos_left (sub_pos.mpr h), sub_nonneg]

theorem IsRounded.not_lt {x : ℚ} {j k : Nat} (hj : IsRounded x j) (hk : IsRounded x k) :
    ¬j < k := by
  intro hlt
  have hle := hj.nearest k hk.le
  have hge := hk.nearest j hj.le
  have hmiddle := (abs_sub_le_iff_middle_le (magnitude_strictMono hlt)).mp hge
  -- Both are even, so there is a number between them, which is nearer.
  have hevenj := hj.even k hk.le (Nat.ne_of_gt hlt) (hle.antisymm hge)
  have hevenk := hk.even j hj.le (Nat.ne_of_lt hlt) (hge.antisymm hle)
  have hnext := hj.nearest (j + 1) (by have := hk.le; omega)
  rw [abs_sub_le_iff_le_middle (magnitude_strictMono (Nat.lt_succ_self j))] at hnext
  have hbetween := magnitude_strictMono (show j + 1 < k by omega)
  linarith

theorem IsRounded.unique {x : ℚ} {j k : Nat} (hj : IsRounded x j) (hk : IsRounded x k) : j = k :=
  Nat.le_antisymm (Nat.not_lt.mp (hk.not_lt hj)) (Nat.not_lt.mp (hj.not_lt hk))

variable {j k num den scaled : Nat}

theorem unit_pos (e : Nat) : 0 < Nat.pow 2 e := Nat.two_pow_pos e

private theorem two_zpow_neg (e : Nat) : (2 : ℚ) ^ (-e : ℤ) = ((Nat.pow 2 e : Nat) : ℚ)⁻¹ := by
  rw [zpow_neg, zpow_natCast, Nat.pow_eq]
  push_cast
  rfl

/-- A fraction is compared with a midpoint over a common denominator. -/
theorem middle_eq (hden : 0 < den) :
    magnitude j + magnitude k =
      ((units j + units k) * den : Nat) / ((Nat.pow 2 1074 * den : Nat) : ℚ) := by
  have hpow : (2 : ℚ) ^ (-1074 : ℤ) = ((Nat.pow 2 1074 : Nat) : ℚ)⁻¹ := two_zpow_neg 1074
  have hpos := unit_pos 1074
  rw [magnitude_eq, magnitude_eq, hpow]
  generalize Nat.pow 2 1074 = unit at hpos
  have hunit : (unit : ℚ) ≠ 0 := by exact_mod_cast hpos.ne'
  have hd : (den : ℚ) ≠ 0 := by exact_mod_cast hden.ne'
  push_cast
  field_simp

theorem double_eq {unit : Nat} (hpos : 0 < unit) (hden : 0 < den) :
    2 * (num / den : ℚ) = (2 * (num * unit) : Nat) / ((unit * den : Nat) : ℚ) := by
  have hunit : (unit : ℚ) ≠ 0 := by exact_mod_cast hpos.ne'
  have hd : (den : ℚ) ≠ 0 := by exact_mod_cast hden.ne'
  push_cast
  field_simp

private theorem middle_le_iff (hden : 0 < den) :
    magnitude j + magnitude k ≤ 2 * (num / den : ℚ) ↔
      (units j + units k) * den ≤ 2 * (num * Nat.pow 2 1074) := by
  have hpos : (0 : ℚ) < (Nat.pow 2 1074 * den : Nat) :=
    Nat.cast_pos.mpr (Nat.mul_pos (unit_pos 1074) hden)
  rw [middle_eq hden, double_eq (unit_pos 1074) hden, div_le_div_iff_of_pos_right hpos, Nat.cast_le]

private theorem le_middle_iff (hden : 0 < den) :
    2 * (num / den : ℚ) ≤ magnitude j + magnitude k ↔
      2 * (num * Nat.pow 2 1074) ≤ (units j + units k) * den := by
  have hpos : (0 : ℚ) < (Nat.pow 2 1074 * den : Nat) :=
    Nat.cast_pos.mpr (Nat.mul_pos (unit_pos 1074) hden)
  rw [middle_eq hden, double_eq (unit_pos 1074) hden, div_le_div_iff_of_pos_right hpos, Nat.cast_le]

/-- Up to infinity, the fraction `scaled / den` of a unit lies between the midpoints on both sides
of the magnitude of `k`, and on one of them only if `k` is even. -/
structure Rounds (k scaled den : Nat) : Prop where
  le : k ≤ infinity
  lower : (units (k - 1) + units k) * den ≤ 2 * scaled
  upper : k < infinity → 2 * scaled ≤ (units k + units (k + 1)) * den
  even : (units (k - 1) + units k) * den = 2 * scaled ∨
    k < infinity ∧ 2 * scaled = (units k + units (k + 1)) * den → k % 2 = 0

theorem Rounds.isRounded (hden : 0 < den) (h : Rounds k (num * Nat.pow 2 1074) den) :
    IsRounded (num / den) k := by
  have hlower := (middle_le_iff hden).mpr h.lower
  have hupper (hk : k < infinity) := (le_middle_iff hden).mpr (h.upper hk)
  have hbelow {j : Nat} (hlt : j < k) : magnitude j ≤ magnitude (k - 1) :=
    magnitude_strictMono.monotone (Nat.le_sub_one_of_lt hlt)
  have habove {j : Nat} (hlt : k < j) : magnitude (k + 1) ≤ magnitude j :=
    magnitude_strictMono.monotone hlt
  refine ⟨h.le, fun j hj => ?_, fun j hj hne heq => ?_⟩
  · rcases Nat.lt_trichotomy j k with hlt | rfl | hlt
    · rw [abs_sub_le_iff_middle_le (magnitude_strictMono hlt)]
      linarith [hbelow hlt]
    · exact le_refl _
    · rw [abs_sub_le_iff_le_middle (magnitude_strictMono hlt)]
      linarith [hupper (hlt.trans_le hj), habove hlt]
  · apply h.even
    rcases Nat.lt_or_gt_of_ne hne with hlt | hlt
    · have hmiddle := (abs_sub_le_iff_le_middle (magnitude_strictMono hlt)).mp heq.ge
      refine .inl (Nat.le_antisymm h.lower ((le_middle_iff hden).mp ?_))
      linarith [hbelow hlt]
    · have hmiddle := (abs_sub_le_iff_middle_le (magnitude_strictMono hlt)).mp heq.ge
      have hk := hlt.trans_le hj
      refine .inr ⟨hk, Nat.le_antisymm (h.upper hk) ((middle_le_iff hden).mp ?_)⟩
      linarith [habove hlt]

theorem IsNearest.rounds (h : IsNearest k scaled den) : Rounds (min k infinity) scaled den := by
  rcases Nat.le_total k infinity with hk | hk
  · rw [Nat.min_eq_left hk]
    exact ⟨hk, h.lower, fun _ => h.upper, fun heq => h.even (heq.imp_right And.right)⟩
  · rw [Nat.min_eq_right hk]
    have hat := units_strictMono.monotone hk
    have hbefore := units_strictMono.monotone (Nat.sub_le_sub_right hk 1)
    refine ⟨Nat.le_refl _, ?_, fun hlt => absurd hlt (Nat.lt_irrefl _), fun _ => by decide⟩
    exact (Nat.mul_le_mul_right den (Nat.add_le_add hbefore hat)).trans h.lower

/-- Up to the midpoint the lower one of two neighbours is nearest. -/
theorem isNearest_floor {f : Nat} (hden : 0 < den) (hfloor : units f * den ≤ scaled)
    (hupper : 2 * scaled ≤ (units f + units (f + 1)) * den)
    (heven : 2 * scaled = (units f + units (f + 1)) * den → f % 2 = 0) :
    IsNearest f scaled den := by
  have hbefore := units_strictMono.monotone (Nat.sub_le f 1)
  have hlower := Nat.mul_le_mul_right den hbefore
  refine ⟨by linarith, hupper, ?_⟩
  rintro (heq | heq)
  · -- Only zero is not above its predecessor.
    have hsame : units f * den ≤ units (f - 1) * den := by linarith
    have hle := units_strictMono.le_iff_le.mp (Nat.le_of_mul_le_mul_right hsame hden)
    omega
  · exact heven heq

/-- From the midpoint on it is the upper one. -/
theorem isNearest_next {f : Nat} (hnext : scaled < units (f + 1) * den)
    (hlower : (units f + units (f + 1)) * den ≤ 2 * scaled)
    (heven : (units f + units (f + 1)) * den = 2 * scaled → (f + 1) % 2 = 0) :
    IsNearest (f + 1) scaled den := by
  have hafter := units_strictMono.monotone (Nat.le_succ (f + 1))
  have hupper := Nat.mul_le_mul_right den hafter
  refine ⟨hlower, by linarith, ?_⟩
  rintro (heq | heq)
  · exact heven heq
  · exact absurd heq (by linarith)

private theorem nearestOrdinal_rounds (num : Nat) (hden : 0 < den) :
    Rounds (nearestOrdinal num den) (num * Nat.pow 2 1074) den := by
  unfold nearestOrdinal
  generalize num * Nat.pow 2 1074 = scaled
  apply IsNearest.rounds
  obtain ⟨f, hf⟩ : ∃ f, floorOrdinal (scaled / den) = f := ⟨_, rfl⟩
  have hbounds := floorOrdinal_bounds (scaled / den)
  rw [hf] at hbounds
  have hfloor : units f * den ≤ scaled := (Nat.le_div_iff_mul_le hden).mp hbounds.1
  have hnext : scaled < units (f + 1) * den := (Nat.div_lt_iff_lt_mul hden).mp hbounds.2
  simp only [hf]
  split
  · rename_i hcompare
    have hlt := Nat.compare_eq_lt.mp hcompare
    exact isNearest_floor hden hfloor hlt.le fun heq => absurd heq hlt.ne
  · rename_i hcompare
    have hlt := Nat.compare_eq_gt.mp hcompare
    exact isNearest_next hnext hlt.le fun heq => absurd heq hlt.ne
  · rename_i hcompare
    have heq := Nat.compare_eq_eq.mp hcompare
    rcases Nat.mod_two_eq_zero_or_one f with hf | hf
    · rw [hf]
      exact isNearest_floor hden hfloor heq.le fun _ => hf
    · rw [hf]
      exact isNearest_next hnext heq.ge fun _ => by omega

/-- Half a unit and less is nearest to zero. -/
theorem rounds_zero (h : 2 * scaled ≤ den) : Rounds 0 scaled den := by
  have hzero : units 0 = 0 := units_of_lt (by decide)
  have hone : units 1 = 1 := units_of_lt (by decide)
  refine ⟨Nat.zero_le _, ?_, fun _ => ?_, fun _ => rfl⟩
  · simp [hzero]
  · simpa [hzero, hone] using h

/-- What is above all magnitudes is nearest to infinity. -/
theorem rounds_infinity (h : den * units infinity ≤ scaled) : Rounds infinity scaled den := by
  have hbefore := Nat.mul_le_mul_right den (units_strictMono.monotone (Nat.sub_le infinity 1))
  refine ⟨Nat.le_refl _, ?_, fun hlt => absurd hlt (Nat.lt_irrefl _), fun _ => by decide⟩
  linarith

/-- Numerals with a point are rounded correctly. Those that are cut off because of their length come
to zero or to infinity in any case. -/
theorem scaledOrdinal_rounds (n p : Nat) :
    Rounds (Numeral.scaledOrdinal n 10 (-p)) (n * Nat.pow 2 1074) (10 ^ p) := by
  unfold Numeral.scaledOrdinal
  dsimp only
  split
  · rename_i hn
    rw [hn, Nat.zero_mul]
    exact rounds_zero (Nat.zero_le _)
  rename_i hn
  split
  · have hscaled := lt_scaled_of_long (e := 1074) 2046 1100 (Nat.pos_of_ne_zero hn) (by decide)
      (by decide) (show p + 1100 < (Nat.toDigits 10 n).length by omega)
    exact rounds_infinity hscaled.le
  split
  · have hscaled := scaled_lt_of_short (e := 1074) 1100 (by decide)
      (show (Nat.toDigits 10 n).length + 1100 < p by omega)
    exact rounds_zero hscaled.le
  cases p with
  | zero =>
    have hplain : n * Nat.pow 10 (-((0 : Nat) : Int)).toNat = n := Nat.mul_one n
    rw [if_pos (by decide), hplain, Nat.pow_zero]
    exact nearestOrdinal_rounds n Nat.one_pos
  | succ p =>
    rw [if_neg (by omega), Int.neg_neg, Int.toNat_natCast]
    exact nearestOrdinal_rounds n (Nat.pow_pos (by decide))

end PipeCompiler.Double
