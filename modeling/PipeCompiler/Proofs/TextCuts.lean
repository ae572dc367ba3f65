import PipeCompiler.Text.Bytes

/-! Texts cut at a byte.

Cutting a text at every occurrence of a byte undoes putting pieces without that byte together. -/
namespace PipeCompiler.Bytes

variable {b : UInt8}

theorem cutAt_ne_nil (b : UInt8) (s : Bytes) : cutAt b s ≠ [] := by
  cases s with
  | nil => simp [cutAt]
  | cons c s =>
    simp only [cutAt]
    split
    · simp
    · split <;> simp

theorem cutAt_cons_self (b : UInt8) (s : Bytes) : cutAt b (b :: s) = [] :: cutAt b s := by
  obtain ⟨line, lines, hs⟩ := List.exists_cons_of_ne_nil (cutAt_ne_nil b s)
  simp [cutAt, hs]

theorem cutAt_cons_of_ne {c : UInt8} (hc : c ≠ b) {s line : Bytes} {lines : List Bytes}
    (hs : cutAt b s = line :: lines) : cutAt b (c :: s) = (c :: line) :: lines := by
  simp [cutAt, hs, hc]

theorem cutAt_append (s t : Bytes) : cutAt b (s ++ b :: t) = cutAt b s ++ cutAt b t := by
  induction s with
  | nil => exact cutAt_cons_self b t
  | cons c s ih =>
    obtain ⟨line, lines, hs⟩ := List.exists_cons_of_ne_nil (cutAt_ne_nil b s)
    rw [hs, List.cons_append] at ih
    by_cases hc : c = b
    · rw [hc, List.cons_append, cutAt_cons_self, cutAt_cons_self, ih, hs]
      rfl
    · rw [List.cons_append, cutAt_cons_of_ne hc ih, cutAt_cons_of_ne hc hs]
      rfl

theorem cutAt_of_notMem {s : Bytes} (h : b ∉ s) : cutAt b s = [s] := by
  induction s with
  | nil => rfl
  | cons c s ih =>
    rw [List.mem_cons, not_or] at h
    exact cutAt_cons_of_ne (Ne.symm h.1) (ih h.2)

/-- A piece without the byte, up to its first occurrence. -/
theorem cutAt_append_of_notMem {s : Bytes} (h : b ∉ s) (t : Bytes) :
    cutAt b (s ++ b :: t) = s :: cutAt b t := by
  rw [cutAt_append, cutAt_of_notMem h]
  rfl

theorem notMem_of_mem_cutAt {s line : Bytes} (h : line ∈ cutAt b s) : b ∉ line := by
  induction s generalizing line with
  | nil =>
    rw [List.mem_singleton.mp h]
    exact List.not_mem_nil
  | cons c s ih =>
    obtain ⟨first, lines, hs⟩ := List.exists_cons_of_ne_nil (cutAt_ne_nil b s)
    by_cases hc : c = b
    · rw [hc, cutAt_cons_self] at h
      rcases List.mem_cons.mp h with rfl | h
      · exact List.not_mem_nil
      · exact ih h
    · rw [cutAt_cons_of_ne hc hs] at h
      rw [hs] at ih
      rcases List.mem_cons.mp h with rfl | h
      · rw [List.mem_cons, not_or]
        exact ⟨Ne.symm hc, ih List.mem_cons_self⟩
      · exact ih (List.mem_cons_of_mem first h)

theorem length_cutAt (b : UInt8) (s : Bytes) : (cutAt b s).length = s.count b + 1 := by
  induction s with
  | nil => rfl
  | cons c s ih =>
    by_cases hc : c = b
    · rw [hc, cutAt_cons_self, List.length_cons, ih, List.count_cons_self]
    · obtain ⟨line, lines, hs⟩ := List.exists_cons_of_ne_nil (cutAt_ne_nil b s)
      rw [cutAt_cons_of_ne hc hs, List.count_cons_of_ne hc, ← ih, hs]
      rfl

theorem cutAt_intercalate {pieces : List Bytes} (hne : pieces ≠ []) (h : ∀ s ∈ pieces, b ∉ s) :
    cutAt b (List.intercalate [b] pieces) = pieces := by
  induction pieces with
  | nil => exact absurd rfl hne
  | cons s pieces ih =>
    rw [List.forall_mem_cons] at h
    cases pieces with
    | nil => simpa using cutAt_of_notMem h.1
    | cons t pieces =>
      rw [List.intercalate_cons_cons, List.append_assoc, List.singleton_append,
        cutAt_append_of_notMem h.1, ih (List.cons_ne_nil t pieces) h.2]

theorem notMem_intercalate {separator : Bytes} {pieces : List Bytes} (h : b ∉ separator)
    (hpieces : ∀ s ∈ pieces, b ∉ s) : b ∉ List.intercalate separator pieces := by
  induction pieces with
  | nil => simp
  | cons s pieces ih =>
    rw [List.forall_mem_cons] at hpieces
    cases pieces with
    | nil => simpa using hpieces.1
    | cons t pieces =>
      rw [List.intercalate_cons_cons]
      simp only [List.mem_append, not_or]
      exact ⟨⟨hpieces.1, h⟩, ih hpieces.2⟩

theorem intercalate_concat (separator : Bytes) {pieces : List Bytes} (hne : pieces ≠ [])
    (s : Bytes) :
    List.intercalate separator (pieces ++ [s]) =
      List.intercalate separator pieces ++ (separator ++ s) := by
  induction pieces with
  | nil => exact absurd rfl hne
  | cons t pieces ih =>
    cases pieces with
    | nil => simp
    | cons u pieces =>
      rw [List.cons_append, List.cons_append, List.intercalate_cons_cons, ← List.cons_append,
        ih (List.cons_ne_nil u pieces), List.intercalate_cons_cons, List.append_assoc _ _ (_ ++ s)]

end PipeCompiler.Bytes
