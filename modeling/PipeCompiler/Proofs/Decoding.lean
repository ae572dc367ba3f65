import Mathlib.Data.List.Induction
import PipeCompiler.Text.Utf8

/-! Where a text can be cut.

Decoding goes from the left to the right, so the units of a text are those of its parts only if no
encoded character lies across the cut. None does where an ASCII byte stands on either side of it. -/
namespace PipeCompiler

namespace Utf8

variable {count bits least : Nat} {s t : Bytes}

theorem continue?_append {n : Nat} {rest : Bytes} (h : continue? count bits s = some (n, rest)) :
    continue? count bits (s ++ t) = some (n, rest ++ t) := by
  induction count generalizing bits s with
  | zero =>
    simp only [continue?, Option.some.injEq, Prod.mk.injEq] at h ⊢
    exact ⟨h.1, by rw [h.2]⟩
  | succ count ih =>
    cases s with
    | nil => simp [continue?] at h
    | cons b s =>
      simp only [continue?, List.cons_append] at h ⊢
      split at h
      · rename_i hb
        rw [if_pos hb]
        exact ih h
      · cases h

/-- A sequence that is not complete is not completed by a text that starts with another byte. -/
theorem continue?_append_none (ht : ∀ b ∈ t.head?, isContinuation b = false)
    (h : continue? count bits s = none) : continue? count bits (s ++ t) = none := by
  induction count generalizing bits s with
  | zero => simp [continue?] at h
  | succ count ih =>
    cases s with
    | nil =>
      cases t with
      | nil => rfl
      | cons b t => simp [continue?, ht b (by simp)]
    | cons b s =>
      simp only [continue?, List.cons_append] at h ⊢
      split at h
      · rename_i hb
        rw [if_pos hb]
        exact ih h
      · rename_i hb
        rw [if_neg hb]

private theorem scalar?_append {c : Char} {rest : Bytes}
    (h : scalar? least count bits s = some (c, rest)) :
    scalar? least count bits (s ++ t) = some (c, rest ++ t) := by
  unfold scalar? at h ⊢
  split at h
  · cases h
  · rename_i n r hc
    rw [continue?_append hc]
    split at h
    · rename_i hn
      cases h
      simp only [if_pos hn]
    · cases h

private theorem scalar?_append_none (ht : ∀ b ∈ t.head?, isContinuation b = false)
    (h : scalar? least count bits s = none) : scalar? least count bits (s ++ t) = none := by
  unfold scalar? at h ⊢
  split at h
  · rename_i hc
    rw [continue?_append_none ht hc]
  · rename_i n r hc
    rw [continue?_append hc]
    split at h
    · cases h
    · rename_i hn
      simp only [if_neg hn]

/-- The first byte alone says whether it is a character, whether it is stray, or which sequences of
more than one byte it can start. Those encode no ASCII character. -/
theorem char?_cases (b : UInt8) :
    (b < 0x80 ∧ ∀ s, char? b s = some (Char.ofNat b.toNat, s)) ∨ (∀ s, char? b s = none) ∨
      ∃ least count bits, 0x80 ≤ least ∧ ∀ s, char? b s = scalar? least count bits s := by
  unfold char?
  by_cases h₁ : b < 0x80
  · exact .inl ⟨h₁, fun s => if_pos h₁⟩
  by_cases h₂ : b < 0xC0
  · exact .inr (.inl fun s => by rw [if_neg h₁, if_pos h₂])
  by_cases h₃ : b < 0xE0
  · exact .inr (.inr ⟨0x80, 1, _, by decide, fun s => by rw [if_neg h₁, if_neg h₂, if_pos h₃]⟩)
  by_cases h₄ : b < 0xF0
  · exact .inr (.inr ⟨0x800, 2, _, by decide, fun s => by
      rw [if_neg h₁, if_neg h₂, if_neg h₃, if_pos h₄]⟩)
  by_cases h₅ : b < 0xF8
  · exact .inr (.inr ⟨0x10000, 3, _, by decide, fun s => by
      rw [if_neg h₁, if_neg h₂, if_neg h₃, if_neg h₄, if_pos h₅]⟩)
  · exact .inr (.inl fun s => by
      rw [if_neg h₁, if_neg h₂, if_neg h₃, if_neg h₄, if_neg h₅])

theorem char?_append {b : UInt8} {c : Char} {rest : Bytes} (h : char? b s = some (c, rest)) :
    char? b (s ++ t) = some (c, rest ++ t) := by
  rcases char?_cases b with ⟨-, hb⟩ | hb | ⟨least, count, bits, -, hb⟩
  · rw [hb] at h ⊢
    cases h
    rfl
  · rw [hb] at h
    cases h
  · rw [hb] at h ⊢
    exact scalar?_append h

theorem char?_append_none {b : UInt8} (ht : ∀ b ∈ t.head?, isContinuation b = false)
    (h : char? b s = none) : char? b (s ++ t) = none := by
  rcases char?_cases b with ⟨-, hb⟩ | hb | ⟨least, count, bits, -, hb⟩
  · rw [hb] at h
    cases h
  · exact hb _
  · rw [hb] at h ⊢
    exact scalar?_append_none ht h

theorem toNat_ofNat {n : Nat} (h : n.isValidChar) : (Char.ofNat n).toNat = n := by
  rw [Char.ofNat, dif_pos h]
  rfl

private theorem continue?_suffix {count bits n : Nat} {s rest : Bytes}
    (h : continue? count bits s = some (n, rest)) : rest <:+ s := by
  induction count generalizing bits s with
  | zero =>
    cases h
    exact List.suffix_refl _
  | succ count ih =>
    cases s with
    | nil => cases h
    | cons b s =>
      simp only [continue?] at h
      split at h
      · exact (ih h).trans (List.suffix_cons b s)
      · cases h

theorem scalar?_cases {least count bits : Nat} {s rest : Bytes} {c : Char}
    (h : scalar? least count bits s = some (c, rest)) : least ≤ c.toNat ∧ rest <:+ s := by
  unfold scalar? at h
  split at h
  · cases h
  · rename_i n r hc
    split at h
    · rename_i hn
      cases h
      rw [toNat_ofNat hn.2]
      exact ⟨hn.1, continue?_suffix hc⟩
    · cases h

private theorem char?_suffix {b : UInt8} {s rest : Bytes} {c : Char}
    (h : char? b s = some (c, rest)) :
    rest <:+ s := by
  rcases char?_cases b with ⟨-, hb⟩ | hb | ⟨least, count, bits, -, hb⟩
  · rw [hb] at h
    cases h
    exact List.suffix_refl _
  · rw [hb] at h
    cases h
  · rw [hb] at h
    exact (scalar?_cases h).2

theorem char?_lineBreak {b : UInt8} {s rest : Bytes} (h : char? b s = some ('\n', rest)) :
    b = '\n' := by
  rcases char?_cases b with ⟨hlt, hb⟩ | hb | ⟨least, count, bits, hleast, hb⟩
  · rw [hb] at h
    simp only [Option.some.injEq, Prod.mk.injEq] at h
    have hvalid : b.toNat.isValidChar := .inl (Nat.lt_trans b.toNat_lt (by decide))
    have hnat := toNat_ofNat hvalid
    rw [h.1] at hnat
    exact UInt8.toNat_inj.mp hnat.symm
  · rw [hb] at h
    cases h
  · rw [hb] at h
    have hle := (scalar?_cases h).1
    have hnat : '\n'.toNat = 10 := rfl
    omega

theorem char?_ascii {b : UInt8} (hb : b < 0x80) : char? b s = some (Char.ofNat b.toNat, s) := by
  rw [char?, if_pos hb]

private theorem isContinuation_ascii {b : UInt8} (hb : b < 0x80) : isContinuation b = false := by
  simp [isContinuation, UInt8.not_le.mpr hb]

end Utf8

theorem glyphs_ascii {b : UInt8} (hb : b < 0x80) (s : Bytes) :
    glyphs (b :: s) = .char (Char.ofNat b.toNat) :: glyphs s := by
  rw [glyphs]
  split
  · rename_i heq
    rw [Utf8.char?_ascii hb] at heq
    cases heq
    rfl
  · rename_i heq
    rw [Utf8.char?_ascii hb] at heq
    cases heq

theorem Glyph.first_append {b : UInt8} {s t : Bytes}
    (ht : ∀ b ∈ t.head?, Utf8.isContinuation b = false) : first b (s ++ t) = first b s := by
  unfold first
  cases h : Utf8.char? b s with
  | none => rw [Utf8.char?_append_none ht h]
  | some r => rw [Utf8.char?_append h]

private theorem glyphs_append_of_head {t : Bytes}
    (ht : ∀ b ∈ t.head?, Utf8.isContinuation b = false) (s : Bytes) :
    glyphs (s ++ t) = glyphs s ++ glyphs t := by
  fun_induction glyphs s with
  | case1 => rfl
  | case2 b s c rest h ih =>
    rw [List.cons_append, glyphs]
    split
    · rename_i heq
      rw [Utf8.char?_append h] at heq
      cases heq
      rw [ih, List.cons_append]
    · rename_i heq
      rw [Utf8.char?_append h] at heq
      cases heq
  | case3 b s h ih =>
    rw [List.cons_append, glyphs]
    split
    · rename_i heq
      rw [Utf8.char?_append_none ht h] at heq
      cases heq
    · rw [ih, List.cons_append]

theorem lineBreak_notMem_glyphs {s : Bytes} (h : '\n'.toUInt8 ∉ s) : .char '\n' ∉ glyphs s := by
  fun_induction glyphs s with
  | case1 => simp
  | case2 b s c rest hc ih =>
    have hb : b ≠ '\n' := fun he => h (by simp [he])
    have hrest := ih fun hmem => h (List.mem_cons_of_mem b ((Utf8.char?_suffix hc).mem hmem))
    have hne : c ≠ '\n' := by
      rintro rfl
      exact hb (Utf8.char?_lineBreak hc)
    simp [hrest, hne.symm]
  | case3 b s hc ih =>
    have hrest := ih fun hmem => h (List.mem_cons_of_mem b hmem)
    simp [hrest]

/-- An ASCII byte stands on one side of the cut, or there is nothing on one side of it. -/
def Bytes.Seam (s t : Bytes) : Prop :=
  ∀ b ∈ s.getLast?, ∀ c ∈ t.head?, b < 0x80 ∨ c < 0x80

namespace Bytes.Seam

variable {s t u : Bytes}

theorem nil_left : Seam [] t := by
  simp [Seam]

theorem nil_right : Seam s [] := by
  simp [Seam]

theorem of_forall (hs : ∀ b ∈ s, b < 0x80) : Seam s t := by
  intro b hb c _
  exact .inl (hs b (List.mem_of_getLast? hb))

theorem of_head {c : UInt8} (hc : c < 0x80) : Seam s (c :: t) := by
  simp [Seam, hc]

theorem of_getLast {b : UInt8} (hb : b < 0x80) : Seam (s ++ [b]) t := by
  simp [Seam, hb]

theorem left (h : Seam s (t ++ u)) : Seam s t := by
  cases t with
  | nil => exact nil_right
  | cons c t => exact h

/-- Behind the text `t`, the cut before it does not matter unless `t` is empty. -/
theorem append (hst : Seam s (t ++ u)) (htu : Seam t u) : Seam (s ++ t) u := by
  cases t using List.reverseRecOn with
  | nil => simpa using hst
  | append_singleton t b => simpa [Seam] using htu

end Bytes.Seam

/-- The units of a text that is cut at a seam are those of its two parts. -/
theorem glyphs_append {s t : Bytes} (h : Bytes.Seam s t) :
    glyphs (s ++ t) = glyphs s ++ glyphs t := by
  cases s using List.reverseRecOn with
  | nil => simp [glyphs]
  | append_singleton s b =>
    by_cases hb : b < 0x80
    · have hhead (t : Bytes) : ∀ c ∈ (b :: t).head?, Utf8.isContinuation c = false := by
        simp [Utf8.isContinuation_ascii hb]
      rw [List.append_assoc, List.singleton_append, glyphs_append_of_head (hhead t),
        glyphs_append_of_head (hhead []), glyphs_ascii hb, glyphs_ascii hb]
      simp [glyphs]
    · refine glyphs_append_of_head (fun c hc => Utf8.isContinuation_ascii ?_) _
      exact (h b (by simp) c hc).resolve_left hb

end PipeCompiler
