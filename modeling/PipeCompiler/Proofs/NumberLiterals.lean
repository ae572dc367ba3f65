import PipeCompiler.Proofs.Numerals
import PipeCompiler.Proofs.ShortestDecimals
import PipeCompiler.Target

/-! Numbers in generated code.

The literal of a finite number is a number for the lexer too, and it denotes the number that it was
made from. -/
namespace PipeCompiler

open Numeral (value digit?)

section

variable {s t : Bytes}

private theorem foldl_digits (digits : List Nat) (n : Nat) :
    digits.foldl (fun n d => n * 10 + d) n =
      n * 10 ^ digits.length + digits.foldl (fun n d => n * 10 + d) 0 := by
  induction digits generalizing n with
  | nil => simp
  | cons d digits ih =>
    rw [List.foldl_cons, List.foldl_cons, ih (n * 10 + d), ih (0 * 10 + d), List.length_cons]
    ring

private theorem length_digits (ht : ∀ b ∈ t, Lexeme.isDigit b = true) :
    (t.filterMap (digit? 10)).length = t.length := by
  induction t with
  | nil => rfl
  | cons b t ih =>
    rw [List.forall_mem_cons] at ht
    simp [Numeral.digit?_digit ht.1, ih ht.2]

theorem value_append (ht : ∀ b ∈ t, Lexeme.isDigit b = true) :
    value 10 (s ++ t) = value 10 s * 10 ^ t.length + value 10 t := by
  rw [value, List.filterMap_append, List.foldl_append, foldl_digits, length_digits ht]
  rfl

theorem value_replicate (n : Nat) : value 10 (List.replicate n '0'.toUInt8) = 0 := by
  induction n with
  | zero => rfl
  | succ n ih =>
    have hzero : ∀ b ∈ List.replicate n '0'.toUInt8, Lexeme.isDigit b = true := by
      intro b hb
      rw [List.eq_of_mem_replicate hb]
      decide
    have hone : value 10 ['0'.toUInt8] = 0 := by decide
    rw [List.replicate_succ, ← List.singleton_append, value_append hzero, ih, hone]
    simp

theorem isDigit_toUInt8 {c : Char} (h : c.isDigit = true) :
    Lexeme.isDigit c.toUInt8 = true ∧ digit? 10 c.toUInt8 = some (c.toNat - 48) := by
  simp only [Char.isDigit, Bool.and_eq_true, decide_eq_true_eq, ge_iff_le,
    UInt32.le_iff_toNat_le] at h
  have hc : 48 ≤ c.toNat ∧ c.toNat ≤ 57 := h
  have hbyte : c.toUInt8.toNat = c.toNat := by
    have hlt : c.toNat < 256 := by omega
    rw [Char.toUInt8, UInt32.toNat_toUInt8]
    exact Nat.mod_eq_of_lt hlt
  have hdigit : Lexeme.isDigit c.toUInt8 = true := by
    simp only [Lexeme.isDigit, Bool.and_eq_true, decide_eq_true_eq, UInt8.le_iff_toNat_le, hbyte]
    exact hc
  exact ⟨hdigit, by rw [Numeral.digit?_digit hdigit, hbyte]⟩

theorem isDigit_ofNat (n : Nat) : ∀ b ∈ Bytes.ofNat n, Lexeme.isDigit b = true := by
  intro b hb
  obtain ⟨c, hc, rfl⟩ := List.mem_map.mp hb
  exact (isDigit_toUInt8 (Nat.isDigit_of_mem_toDigits (by decide) (by decide) hc)).1

theorem ofNat_ne_nil (n : Nat) : Bytes.ofNat n ≠ [] := by
  simp [Bytes.ofNat, Nat.toDigits_ne_nil]

theorem value_ofNat (n : Nat) : value 10 (Bytes.ofNat n) = n := by
  have hdigits : ∀ cs : List Char, (∀ c ∈ cs, c.isDigit = true) →
      (cs.map Char.toUInt8).filterMap (digit? 10) = cs.map fun c => c.toNat - 48 := by
    intro cs hcs
    induction cs with
    | nil => rfl
    | cons c cs ih =>
      rw [List.forall_mem_cons] at hcs
      simp [(isDigit_toUInt8 hcs.1).2, ih hcs.2]
  have hread := Nat.ofDigitChars_ten_toDigits (n := n)
  rw [Nat.ofDigitChars_eq_foldl] at hread
  rw [value, Bytes.ofNat, hdigits _ fun c hc =>
    Nat.isDigit_of_mem_toDigits (by decide) (by decide) hc, List.foldl_map]
  simpa [Nat.mul_comm] using hread

end

/-- A text without its zeros at the end. -/
theorem dropTrailing_append (s : Bytes) :
    ∃ n, s = Bytes.dropTrailing '0' s ++ List.replicate n '0'.toUInt8 := by
  refine ⟨(s.reverse.takeWhile (· == '0'.toUInt8)).length, ?_⟩
  have hzeros : s.reverse.takeWhile (· == '0'.toUInt8) =
      List.replicate (s.reverse.takeWhile (· == '0'.toUInt8)).length '0'.toUInt8 := by
    rw [List.eq_replicate_iff]
    refine ⟨rfl, fun b hb => ?_⟩
    simpa using List.all_eq_true.mp List.all_takeWhile b hb
  have hsplit := List.takeWhile_append_dropWhile (p := (· == '0'.toUInt8)) (l := s.reverse)
  have hreverse := congrArg List.reverse hsplit
  rw [List.reverse_append, List.reverse_reverse, hzeros, List.reverse_replicate] at hreverse
  exact hreverse.symm

/-- The digits behind the point before zeros are dropped: as many as there are places. -/
theorem padded_fraction {n places : Nat} (hplaces : 0 < places) (hn : n < 10 ^ places)
    {padded : Bytes} (h : padded = List.replicate (places - (Bytes.ofNat n).length) '0'.toUInt8 ++
      Bytes.ofNat n) :
    padded.length = places ∧ value 10 padded = n ∧ ∀ b ∈ padded, Lexeme.isDigit b = true := by
  have hlength : (Bytes.ofNat n).length ≤ places := by
    rw [Bytes.ofNat, List.length_map]
    exact (Nat.length_toDigits_le_iff (by decide) hplaces).mpr hn
  refine ⟨?_, ?_, ?_⟩
  · rw [h, List.length_append, List.length_replicate]
    omega
  · rw [h, value_append (isDigit_ofNat n), value_replicate, value_ofNat, Nat.zero_mul, Nat.zero_add]
  · intro b hb
    rw [h, List.mem_append] at hb
    rcases hb with hb | hb
    · rw [List.eq_of_mem_replicate hb]
      decide
    · exact isDigit_ofNat n b hb

/-- The text of a decimal is a number of the lexer, and it denotes the decimal. -/
theorem Decimal.positional_read (d : Decimal) :
    Lexeme.IsNumber d.positional ∧ ∃ n p c : Nat, 0 < c ∧
      Numeral.read? d.positional = some (.finite false n 10 (-p)) ∧
      d.num = n * c ∧ d.den = 10 ^ p * c := by
  obtain ⟨digits, place⟩ := d
  rcases Int.lt_or_le place 0 with hplace | hplace
  · obtain ⟨places, rfl⟩ : ∃ places : Nat, place = -places := ⟨(-place).toNat, by omega⟩
    have hneg : ¬0 ≤ -(places : Int) := by omega
    have hpow : 0 < 10 ^ places := Nat.pow_pos (by decide)
    simp only [positional, hneg, if_false, Int.neg_neg, Int.toNat_natCast, Nat.pow_eq]
    generalize hpadded : List.replicate _ '0'.toUInt8 ++ Bytes.ofNat (digits % 10 ^ places) = padded
    obtain ⟨hlength, hvalue, hdigits⟩ :=
      padded_fraction (by omega) (Nat.mod_lt digits hpow) hpadded.symm
    obtain ⟨zeros, hzeros⟩ := dropTrailing_append padded
    generalize Bytes.dropTrailing '0' padded = shown at hzeros
    have hwhole := isDigit_ofNat (digits / 10 ^ places)
    have hne := ofNat_ne_nil (digits / 10 ^ places)
    have hall : value 10 (Bytes.ofNat (digits / 10 ^ places) ++ padded) = digits := by
      rw [value_append hdigits, value_ofNat, hlength, hvalue, Nat.div_add_mod']
    rw [hzeros, List.forall_mem_append] at hdigits
    rw [hzeros, List.length_append, List.length_replicate] at hlength
    rw [hzeros, ← List.append_assoc, value_append hdigits.2, value_replicate,
      List.length_replicate, Nat.add_zero] at hall
    have hden : (⟨digits, -places⟩ : Decimal).den = 10 ^ shown.length * 10 ^ zeros := by
      rw [den, Double.powerOfTen_neg, ← Nat.pow_add, hlength]
    have hnum : (⟨digits, -places⟩ : Decimal).num =
        value 10 (Bytes.ofNat (digits / 10 ^ places) ++ shown) * 10 ^ zeros := by
      rw [num, Double.powerOfTen_neg, Nat.mul_one, hall]
    cases shown with
    | nil =>
      rw [List.append_nil] at hnum
      exact ⟨.whole hne hwhole, _, 0, 10 ^ zeros, Nat.pow_pos (by decide),
        Numeral.read?_whole hne hwhole, hnum, hden⟩
    | cons b shown =>
      have hpoint (t : Bytes) : Bytes.ofString "." ++ t = '.'.toUInt8 :: t := rfl
      simp only [List.isEmpty_cons, Bool.false_eq_true, if_false, List.append_assoc, hpoint]
      exact ⟨.fraction hne hwhole (List.cons_ne_nil _ _) hdigits.1, _, _, 10 ^ zeros,
        Nat.pow_pos (by decide), Numeral.read?_fraction hne hwhole hdigits.1, hnum, hden⟩
  · obtain ⟨places, rfl⟩ := Int.eq_ofNat_of_zero_le hplace
    have hwhole := isDigit_ofNat (digits * 10 ^ places)
    have hne := ofNat_ne_nil (digits * 10 ^ places)
    simp only [positional, hplace, if_true, Int.toNat_natCast, Nat.pow_eq]
    refine ⟨.whole hne hwhole, _, 0, 1, Nat.one_pos, Numeral.read?_whole hne hwhole, ?_, ?_⟩
    · rw [num, Double.powerOfTen_natCast, value_ofNat, Nat.mul_one]
    · rw [den, Double.powerOfTen_natCast]
      rfl

section

variable {b : UInt8}

theorem Lexeme.IsNumber.notMem {s : Bytes} (h : IsNumber s) (hdigit : isDigit b = false)
    (hpoint : b ≠ '.') : b ∉ s := by
  have hdigits {ds : Bytes} (hds : ∀ c ∈ ds, isDigit c = true) : b ∉ ds := by
    intro hmem
    rw [hds b hmem] at hdigit
    cases hdigit
  cases h with
  | whole hne hds => exact hdigits hds
  | fraction hne hds hfne hfs =>
    simp only [List.mem_append, List.mem_cons, not_or]
    exact ⟨hdigits hds, hpoint, hdigits hfs⟩

set_option maxRecDepth 2000 in
/-- Letters, digits, the point and the sign are all that a literal is made of. -/
theorem Target.notMem_numberLiteral (hname : Lexeme.isNamePart b = false) (hsign : b ≠ '-')
    (hpoint : b ≠ '.') (x : Double) : b ∉ numberLiteral x := by
  have hword {s : Bytes} (hs : ∀ c ∈ s, Lexeme.isNamePart c = true ∨ c = '-') : b ∉ s := by
    intro hmem
    rcases hs b hmem with hb | hb
    · rw [hb] at hname
      cases hname
    · exact hsign hb
  have hdigit : Lexeme.isDigit b = false := (Bool.or_eq_false_iff.mp hname).2
  have hnumber := (Decimal.positional_read (Double.shortest x.ordinal)).1.notMem hdigit hpoint
  simp only [numberLiteral]
  split
  · exact hword (by decide)
  split
  · split <;> exact hword (by decide)
  · rw [List.mem_append, not_or]
    refine ⟨?_, hnumber⟩
    split
    · exact hword (by decide)
    · exact List.not_mem_nil

end

namespace Double

variable {k n p : Nat}

theorem IsNearest.le_scaled {scaled den : Nat} (h : IsNearest k scaled den) (hk : 0 < k) :
    den ≤ 2 * scaled := by
  have hunits : 0 < units k := Nat.zero_lt_of_lt (units_strictMono hk)
  calc den = 1 * den := (Nat.one_mul den).symm
    _ ≤ (units (k - 1) + units k) * den :=
        Nat.mul_le_mul_right den (hunits.trans_le (Nat.le_add_left _ _))
    _ ≤ 2 * scaled := h.lower

/-- A number with `limit` digits more before the point than it has places behind it is too large if
one has `2 ^ e` units and infinity begins the binade `s`. -/
theorem lt_scaled_of_long {e : Nat} (s limit : Nat) (hn : 0 < n)
    (hs : infinity = (s + 1) * 2 ^ 52 + 0) (hlarge : 52 + s < e + limit)
    (hlong : p + limit < (Nat.toDigits 10 n).length) : 10 ^ p * units infinity < n * 2 ^ e := by
  have hdigits : 10 ^ p * 10 ^ limit ≤ n := by
    rw [← Nat.pow_add]
    exact (Nat.pow_le_pow_right (by decide) (by omega)).trans (le_of_toDigits hn)
  have hunits : units infinity < 10 ^ limit * 2 ^ e := by
    calc units infinity = 2 ^ (52 + s) := by
          rw [hs, units_binade s (by decide), Nat.add_zero, ← Nat.pow_add]
      _ < 2 ^ (limit + e) := Nat.pow_lt_pow_right (by decide) (by omega)
      _ = 2 ^ limit * 2 ^ e := Nat.pow_add _ _ _
      _ ≤ 10 ^ limit * 2 ^ e := Nat.mul_le_mul_right _ (Nat.pow_le_pow_left (by decide) _)
  calc 10 ^ p * units infinity < 10 ^ p * (10 ^ limit * 2 ^ e) :=
        Nat.mul_lt_mul_of_pos_left hunits (Nat.pow_pos (by decide))
    _ = 10 ^ p * 10 ^ limit * 2 ^ e := (Nat.mul_assoc _ _ _).symm
    _ ≤ n * 2 ^ e := Nat.mul_le_mul_right _ hdigits

/-- With `limit` zeros behind the point a number has less than half a unit. -/
theorem scaled_lt_of_short {e : Nat} (limit : Nat) (hsmall : e ≤ limit)
    (hshort : (Nat.toDigits 10 n).length + limit < p) : 2 * (n * 2 ^ e) < 10 ^ p :=
  calc 2 * (n * 2 ^ e) = n * 2 ^ (e + 1) := by ring
    _ ≤ n * 10 ^ (limit + 1) := Nat.mul_le_mul_left n
        ((Nat.pow_le_pow_left (by decide) _).trans (Nat.pow_le_pow_right (by decide) (by omega)))
    _ < 10 ^ (Nat.toDigits 10 n).length * 10 ^ (limit + 1) :=
        Nat.mul_lt_mul_of_pos_right (lt_of_toDigits n) (Nat.pow_pos (by decide))
    _ = 10 ^ ((Nat.toDigits 10 n).length + (limit + 1)) := (Nat.pow_add _ _ _).symm
    _ ≤ 10 ^ p := Nat.pow_le_pow_right (by decide) (by omega)

/-- What rounds to a finite number that is not zero has its leading digit near the point. -/
theorem IsNearest.leading_digit {e : Nat} (s limit : Nat)
    (h : IsNearest k (n * Nat.pow 2 e) (10 ^ p))
    (hk : 0 < k) (hfinite : k < infinity) (hn : 0 < n) (hs : infinity = (s + 1) * 2 ^ 52 + 0)
    (hlarge : 52 + s < e + limit) (hsmall : e ≤ limit) :
    (Nat.toDigits 10 n).length ≤ p + limit ∧ p ≤ (Nat.toDigits 10 n).length + limit := by
  rw [Nat.pow_eq] at h
  constructor
  · by_contra hlong
    have hscaled := lt_scaled_of_long s limit hn hs hlarge (Nat.not_le.mp hlong)
    have hat := units_strictMono.monotone hfinite.le
    have hafter := units_strictMono.monotone (Nat.succ_le_of_lt hfinite)
    have hupper := h.upper.trans (Nat.mul_le_mul_right _ (Nat.add_le_add hat hafter))
    rw [Nat.add_mul, Nat.mul_comm (units infinity)] at hupper
    omega
  · by_contra hshort
    have hupper := scaled_lt_of_short limit hsmall (Nat.not_le.mp hshort)
    exact absurd (h.le_scaled hk) (Nat.not_le.mpr hupper)

private theorem scaledOrdinal_eq (hk : 0 < k) (hfinite : k < infinity)
    (h : IsNearest k (n * Nat.pow 2 1074) (10 ^ p)) :
    Numeral.scaledOrdinal n 10 (-p) = k := by
  have hpow : 0 < 10 ^ p := Nat.pow_pos (by decide)
  have hn : 0 < n := by
    by_contra hzero
    have hpos := h.le_scaled hk
    rw [show n = 0 by omega, Nat.zero_mul] at hpos
    omega
  obtain ⟨hlong, hshort⟩ :=
    h.leading_digit 2046 1100 hk hfinite hn (by decide) (by decide) (by decide)
  have hhigh : ¬1100 < -(p : Int) + (Nat.toDigits 10 n).length := by omega
  have hlow : ¬-(p : Int) + (Nat.toDigits 10 n).length < -1100 := by omega
  unfold Numeral.scaledOrdinal
  simp only [Nat.ne_of_gt hn, if_false, hhigh, hlow]
  cases p with
  | zero =>
    rw [if_pos (by decide)]
    refine nearestOrdinal_eq Nat.one_pos hfinite.le ?_
    simpa using h
  | succ p =>
    rw [if_neg (by omega), Int.neg_neg, Int.toNat_natCast]
    exact nearestOrdinal_eq hpow hfinite.le h

theorem ofOrdinal_parts (hk : k < 2 ^ 63) :
    (ofOrdinal false k).ordinal = k ∧ (ofOrdinal false k).isNegative = false := by
  have hbits : (ofOrdinal false k).bits.toNat = k := by
    have hsmall : k < 2 ^ 64 := Nat.lt_trans hk (by decide)
    simpa [ofOrdinal] using hsmall
  rw [ordinal, isNegative, hbits]
  exact ⟨Nat.mod_eq_of_lt hk, decide_eq_false (Nat.not_le.mpr hk)⟩

theorem numberLiteral_infinity :
    Target.numberLiteral (.ofOrdinal false infinity) = Bytes.ofString "Infinity" := by
  obtain ⟨hordinal, hsign⟩ := ofOrdinal_parts (k := infinity) (by decide)
  simp [Target.numberLiteral, hordinal, hsign]

theorem numberLiteral_finite (hk : k < infinity) :
    Target.numberLiteral (.ofOrdinal false k) = (shortest k).positional := by
  obtain ⟨hordinal, hsign⟩ := ofOrdinal_parts (k := k) (Nat.lt_trans hk (by decide))
  simp only [Target.numberLiteral, hordinal, hsign, Nat.not_lt.mpr hk.le, Nat.ne_of_lt hk, if_false,
    Bool.false_eq_true, List.nil_append]

/-- The literal of a finite number that is not negative is a number of the lexer and denotes this
number. -/
theorem read?_numberLiteral (hk : k < infinity) :
    Lexeme.IsNumber (Target.numberLiteral (.ofOrdinal false k)) ∧
      Double.read? (Target.numberLiteral (.ofOrdinal false k)) = some (.ofOrdinal false k) := by
  rw [numberLiteral_finite hk]
  obtain ⟨hnumber, n, p, c, hc, hread, hnum, hden⟩ := (shortest k).positional_read
  refine ⟨hnumber, ?_⟩
  rw [Double.read?, hread, Option.map_some, Numeral.toDouble]
  have hscaled : Numeral.scaledOrdinal n 10 (-p) = k := by
    rcases Nat.eq_zero_or_pos k with rfl | hpos
    · have hzero : n = 0 := by
        have hprod : n * c = 0 := hnum.symm
        rcases Nat.mul_eq_zero.mp hprod with hn | hc'
        · exact hn
        · omega
      simp [Numeral.scaledOrdinal, hzero]
    · have hnearest := isNearest_of_roundsTo hpos (roundsTo_shortest hpos)
      rw [hnum, hden, Nat.mul_right_comm] at hnearest
      exact scaledOrdinal_eq hpos hk (hnearest.of_mul_right hc)
  rw [hscaled]

end Double
end PipeCompiler
