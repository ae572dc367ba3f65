import PipeCompiler.Number
import PipeCompiler.Proofs.Rounding

/-! Seventeen digits are enough.

The shortest decimal of an ordinal rounds to it. On the grid with seventeen significant digits two
neighbours are nearer to each other than the two midpoints around an ordinal, so one of the two
multiples around its magnitude lies between these. -/
namespace PipeCompiler

/-- A decimal is the fraction `num / den`. -/
def Decimal.num (d : Decimal) : Nat :=
  d.digits * (Double.powerOfTen d.place).1

def Decimal.den (d : Decimal) : Nat :=
  (Double.powerOfTen d.place).2

namespace Double

theorem powerOfTen_natCast (n : Nat) : powerOfTen n = (10 ^ n, 1) := by
  simp [powerOfTen]

theorem powerOfTen_neg (n : Nat) : powerOfTen (-n) = (1, 10 ^ n) := by
  cases n with
  | zero => rfl
  | succ n =>
    have hneg : ¬0 ≤ -((n + 1 : Nat) : Int) := by omega
    simp only [powerOfTen, hneg, if_false, Int.neg_neg, Int.toNat_natCast, Nat.pow_eq]

theorem powerOfTen_pos (place : Int) : 0 < (powerOfTen place).1 ∧ 0 < (powerOfTen place).2 := by
  unfold powerOfTen
  split
  · exact ⟨Nat.pow_pos (by decide), Nat.one_pos⟩
  · exact ⟨Nat.one_pos, Nat.pow_pos (by decide)⟩

/-- Going down by `n` places divides by `10 ^ n`. -/
theorem powerOfTen_sub (place : Int) (n : Nat) :
    (powerOfTen (place - n)).1 * (powerOfTen place).2 * 10 ^ n =
      (powerOfTen place).1 * (powerOfTen (place - n)).2 := by
  rcases Int.le_total 0 place with hplace | hplace
  · obtain ⟨p, rfl⟩ := Int.eq_ofNat_of_zero_le hplace
    rcases Nat.le_total n p with hle | hle
    · have hsub : (p : Int) - n = ((p - n : Nat) : Int) := by omega
      simp only [hsub, powerOfTen_natCast, Nat.mul_one]
      rw [← Nat.pow_add, Nat.sub_add_cancel hle]
    · have hsub : (p : Int) - n = -((n - p : Nat) : Int) := by omega
      simp only [hsub, powerOfTen_natCast, powerOfTen_neg, Nat.mul_one, Nat.one_mul]
      rw [← Nat.pow_add, Nat.add_sub_cancel' hle]
  · obtain ⟨p, rfl⟩ : ∃ p : Nat, place = -p := ⟨(-place).toNat, by omega⟩
    have hsub : -(p : Int) - n = -((p + n : Nat) : Int) := by omega
    simp only [hsub, powerOfTen_neg, Nat.one_mul, Nat.pow_add]

theorem compareHalfUnits_eq (d : Decimal) (n : Nat) :
    compareHalfUnits d n = compare (2 * (d.num * Nat.pow 2 1074)) (n * d.den) := rfl

variable {k : Nat} {d : Decimal}

private theorem midpoints_lt (hk : 0 < k) : units (k - 1) + units k < units k + units (k + 1) := by
  have hbefore := units_strictMono (show k - 1 < k by omega)
  have hafter := units_strictMono (show k < k + 1 by omega)
  exact Nat.add_lt_add hbefore hafter

private theorem roundsTo_of_lt
    (hlower : (units (k - 1) + units k) * d.den < 2 * (d.num * Nat.pow 2 1074))
    (hupper : 2 * (d.num * Nat.pow 2 1074) < (units k + units (k + 1)) * d.den) :
    roundsTo k d = true := by
  simp only [roundsTo, compareHalfUnits_eq, Nat.compare_eq_gt.mpr hlower,
    Nat.compare_eq_lt.mpr hupper]
  rfl

theorem isNearest_of_roundsTo (hk : 0 < k) (h : roundsTo k d = true) :
    IsNearest k (d.num * Nat.pow 2 1074) d.den := by
  have hmid : (units (k - 1) + units k) * d.den < (units k + units (k + 1)) * d.den :=
    Nat.mul_lt_mul_of_pos_right (midpoints_lt hk) (powerOfTen_pos _).2
  simp only [roundsTo, compareHalfUnits_eq, Bool.or_eq_true, Bool.and_eq_true, beq_iff_eq,
    Nat.compare_eq_gt, Nat.compare_eq_lt, Nat.compare_eq_eq] at h
  generalize d.num * Nat.pow 2 1074 = scaled at h
  rcases h with ⟨hlower, hupper⟩ | ⟨heven, heq | heq⟩
  · refine ⟨hlower.le, hupper.le, fun htie => ?_⟩
    rcases htie with heq | heq
    · exact absurd heq hlower.ne
    · exact absurd heq hupper.ne
  · exact ⟨heq.ge, heq ▸ hmid.le, fun _ => heven⟩
  · exact ⟨heq ▸ hmid.le, heq.le, fun _ => heven⟩

private theorem roundsTo_of_onGrid? {place : Int} (h : onGrid? k place = some d) :
    roundsTo k d = true := by
  unfold onGrid? at h
  exact List.find?_some h

/-- If one of the two multiples of `10 ^ place` around a magnitude rounds to it, one is found. -/
theorem onGrid?_isSome {place : Int} {below : Nat}
    (hbelow : units k * (powerOfTen place).2 / ((powerOfTen place).1 * Nat.pow 2 1074) = below)
    (h : roundsTo k ⟨below, place⟩ = true ∨ roundsTo k ⟨below + 1, place⟩ = true) :
    (onGrid? k place).isSome = true := by
  simp only [onGrid?, hbelow, List.find?_isSome]
  generalize (2 * below + 1) * (powerOfTen place).1 * Nat.pow 2 1074 = middle
  split
  · simpa using h
  · simpa using h.symm

theorem le_of_toDigits {n : Nat} (hn : 0 < n) : 10 ^ ((Nat.toDigits 10 n).length - 1) ≤ n := by
  by_contra hlt
  have hpos : 0 < (Nat.toDigits 10 n).length := Nat.length_toDigits_pos
  by_cases hone : (Nat.toDigits 10 n).length = 1
  · rw [hone] at hlt
    omega
  · have hle := (Nat.length_toDigits_le_iff (by decide) (by omega)).mpr (Nat.not_le.mp hlt)
    omega

theorem lt_of_toDigits (n : Nat) : n < 10 ^ (Nat.toDigits 10 n).length :=
  (Nat.length_toDigits_le_iff (by decide) Nat.length_toDigits_pos).mp (Nat.le_refl _)

/-- The leading digit of a magnitude stands at its leading place. -/
theorem leadingPlace_le (hk : 0 < k) :
    (powerOfTen (leadingPlace k - 1)).1 * Nat.pow 2 1074 ≤
      units k * (powerOfTen (leadingPlace k - 1)).2 := by
  have hunits : 0 < units k := Nat.zero_lt_of_lt (units_strictMono hk)
  have hpow (e : Nat) : 0 < Nat.pow 2 e := Nat.two_pow_pos e
  have hpos := hpow 1074
  unfold leadingPlace
  generalize Nat.pow 2 1074 = one at hpos
  split
  · rename_i hle
    have hquot : 0 < units k / one := Nat.div_pos hle hpos
    have hbound := (Nat.le_div_iff_mul_le hpos).mp (le_of_toDigits hquot)
    have hdigits : 0 < (Nat.toDigits 10 (units k / one)).length := Nat.length_toDigits_pos
    generalize (Nat.toDigits 10 (units k / one)).length = count at hbound hdigits
    rw [show (count : Int) - 1 = ((count - 1 : Nat) : Int) by omega, powerOfTen_natCast]
    simpa using hbound
  · have hlt := (Nat.div_lt_iff_lt_mul hunits).mp (lt_of_toDigits ((one - 1) / units k))
    generalize (Nat.toDigits 10 ((one - 1) / units k)).length = count at hlt
    rw [show 1 - (count : Int) - 1 = -(count : Int) by omega, powerOfTen_neg]
    simp only [Nat.one_mul, Nat.mul_comm (units k)]
    generalize 10 ^ count * units k = bound at hlt
    omega

/-- The midpoints around a magnitude are further apart than its seventeenth digit. -/
theorem units_lt_gap (hk : 0 < k) : 2 * units k < 10 ^ 16 * (units (k + 1) - units (k - 1)) := by
  obtain ⟨j, rfl⟩ : ∃ j, k = j + 1 := ⟨k - 1, by omega⟩
  have hbits := units_lt j
  have hshift : 2 ^ shift j ≤ 2 ^ shift (j + 1) :=
    Nat.pow_le_pow_right (by decide) (shift_mono (Nat.le_succ j))
  rw [Nat.add_sub_cancel, units_succ (j + 1), units_succ j]
  generalize 2 ^ shift (j + 1) = after at hshift ⊢
  generalize 2 ^ shift j = before at hbits hshift ⊢
  omega

/-- Steps that are narrower than the midpoints around `u` have a multiple between these. -/
theorem exists_between_midpoints {before u after den step below : Nat} (hbefore : before < u)
    (hafter : u < after) (hden : 0 < den) (hbelow : below * step ≤ u * den)
    (habove : u * den < (below + 1) * step) (hstep : 2 * step < (after - before) * den) :
    ((before + u) * den < 2 * (below * step) ∧ 2 * (below * step) < (u + after) * den) ∨
      (before + u) * den < 2 * ((below + 1) * step) ∧
        2 * ((below + 1) * step) < (u + after) * den := by
  have hu : before * den < u * den := Nat.mul_lt_mul_of_pos_right hbefore hden
  have hu' : u * den < after * den := Nat.mul_lt_mul_of_pos_right hafter hden
  simp only [Nat.add_mul, Nat.one_mul, Nat.sub_mul] at *
  generalize below * step = low at *
  generalize before * den = lower at *
  generalize u * den = middle at *
  generalize after * den = upper at *
  omega

/-- One of the two multiples with seventeen digits around a magnitude rounds to it. -/
theorem onGrid?_seventeen (hk : 0 < k) :
    (onGrid? k (leadingPlace k - 1 - (16 : Nat))).isSome = true := by
  have hlead := leadingPlace_le hk
  have hsub := powerOfTen_sub (leadingPlace k - 1) 16
  have hpos := powerOfTen_pos (leadingPlace k - 1)
  generalize leadingPlace k - 1 - (16 : Nat) = place at hsub ⊢
  have hpos' := powerOfTen_pos place
  have hpow (e : Nat) : 0 < Nat.pow 2 e := Nat.two_pow_pos e
  have hone := hpow 1074
  generalize hstep : (powerOfTen place).1 * Nat.pow 2 1074 = step
  have hsteps : 0 < step := by
    rw [← hstep]
    exact Nat.mul_pos hpos'.1 hone
  -- `10 ^ 16` steps of the grid fit below the magnitude.
  have hfine : 10 ^ 16 * step ≤ units k * (powerOfTen place).2 := by
    generalize Nat.pow 2 1074 = one at hlead hstep
    refine Nat.le_of_mul_le_mul_right ?_ hpos.2
    calc 10 ^ 16 * step * (powerOfTen (leadingPlace k - 1)).2
        = (powerOfTen place).1 * (powerOfTen (leadingPlace k - 1)).2 * 10 ^ 16 * one := by
          rw [← hstep]
          ring
      _ = (powerOfTen (leadingPlace k - 1)).1 * one * (powerOfTen place).2 := by
          rw [hsub]
          ring
      _ ≤ units k * (powerOfTen (leadingPlace k - 1)).2 * (powerOfTen place).2 :=
          Nat.mul_le_mul_right _ hlead
      _ = units k * (powerOfTen place).2 * (powerOfTen (leadingPlace k - 1)).2 := by ring
  have hnarrow : 2 * step < (units (k + 1) - units (k - 1)) * (powerOfTen place).2 := by
    have hgap := Nat.mul_lt_mul_of_pos_right (units_lt_gap hk) hpos'.2
    refine Nat.lt_of_mul_lt_mul_left (a := 10 ^ 16) ?_
    calc 10 ^ 16 * (2 * step) = 2 * (10 ^ 16 * step) := by ring
      _ ≤ 2 * (units k * (powerOfTen place).2) := Nat.mul_le_mul_left 2 hfine
      _ = 2 * units k * (powerOfTen place).2 := by ring
      _ < 10 ^ 16 * (units (k + 1) - units (k - 1)) * (powerOfTen place).2 := hgap
      _ = 10 ^ 16 * ((units (k + 1) - units (k - 1)) * (powerOfTen place).2) := by ring
  have hbetween := exists_between_midpoints (units_strictMono (show k - 1 < k by omega))
    (units_strictMono (show k < k + 1 by omega)) hpos'.2
    (Nat.div_mul_le_self (units k * (powerOfTen place).2) step)
    (Nat.lt_mul_of_div_lt (Nat.lt_succ_self _) hsteps) hnarrow
  have hscaled (n : Nat) :
      (⟨n, place⟩ : Decimal).num * Nat.pow 2 1074 = n * step := by
    rw [← hstep, ← Nat.mul_assoc]
    rfl
  refine onGrid?_isSome rfl ?_
  rw [hstep]
  rcases hbetween with ⟨hlower, hupper⟩ | ⟨hlower, hupper⟩
  · exact .inl (roundsTo_of_lt (by rwa [hscaled]) (by rwa [hscaled]))
  · exact .inr (roundsTo_of_lt (by rwa [hscaled]) (by rwa [hscaled]))

theorem roundsTo_shortest (hk : 0 < k) : roundsTo k (shortest k) = true := by
  have hsome : ((List.range 17).findSome? fun n : Nat =>
      onGrid? k (leadingPlace k - 1 - n)).isSome = true := by
    rw [List.findSome?_isSome_iff]
    exact ⟨16, by decide, onGrid?_seventeen hk⟩
  obtain ⟨d, hd⟩ := Option.isSome_iff_exists.mp hsome
  obtain ⟨n, -, hgrid⟩ := List.exists_of_findSome?_eq_some hd
  have hshortest : shortest k = d := by
    simp only [shortest, Nat.ne_of_gt hk, if_false, hd, Option.getD_some]
  rw [hshortest]
  exact roundsTo_of_onGrid? hgrid

end Double
end PipeCompiler
