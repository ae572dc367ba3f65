import PipeCompiler.Files
import PipeCompiler.Proofs.TextCuts

/-! The names in a joined path.

A file joined to a directory is the last name of the path; the names before it come from the
directory alone. -/
namespace PipeCompiler.Path

variable {dir file : Bytes}

theorem mem_names {path name : Bytes} (h : name ∈ names path) : name ≠ [] ∧ slash ∉ name := by
  obtain ⟨hcut, hne⟩ := List.mem_filter.mp h
  exact ⟨by simpa using hne, Bytes.notMem_of_mem_cutAt hcut⟩

theorem names_append_slash (s t : Bytes) : names (s ++ slash :: t) = names s ++ names t := by
  rw [names, Bytes.cutAt_append, List.filter_append]
  rfl

/-- Names that were put together with slashes are found again. -/
theorem names_intercalate {ns : List Bytes} (h : ∀ name ∈ ns, name ≠ [] ∧ slash ∉ name) :
    names (List.intercalate [slash] ns) = ns := by
  by_cases hns : ns = []
  · rw [hns]
    rfl
  · rw [names, Bytes.cutAt_intercalate hns fun name hn => (h name hn).2]
    apply List.filter_eq_self.mpr
    intro name hn
    simpa using (h name hn).1

/-- A name that leads to an entry of the directory it is looked up in. -/
structure IsFile (file : Bytes) : Prop where
  ne_nil : file ≠ []
  slash : slash ∉ file
  here : file ≠ "."
  up : file ≠ ".."

theorem IsFile.names (h : IsFile file) : names file = [file] := by
  rw [Path.names, Bytes.cutAt_of_notMem h.slash]
  simp [h.ne_nil]

/-- The names that remain of a directory when it is cleaned. -/
def kept (dir : Bytes) : List Bytes :=
  (names dir).foldl (cleanStep (isAbsolute dir)) []

private theorem mem_cleanStep {absolute : Bool} {ns : List Bytes} {name n : Bytes}
    (h : n ∈ cleanStep absolute ns name) : n ∈ ns ∨ n = name := by
  unfold cleanStep at h
  split at h
  · exact .inl h
  split at h
  · split at h
    · split at h
      · cases h
      · exact .inr (List.mem_singleton.mp h)
    · split at h
      · simpa using h
      · exact .inl ((List.dropLast_sublist ns).subset h)
  · simpa using h

private theorem mem_kept {name : Bytes} (h : name ∈ kept dir) : name ∈ names dir := by
  have hfold : ∀ (more ns : List Bytes), name ∈ more.foldl (cleanStep (isAbsolute dir)) ns →
      name ∈ ns ∨ name ∈ more := by
    intro more
    induction more with
    | nil => exact fun ns h => .inl h
    | cons n more ih =>
      intro ns h
      rcases ih _ h with h | h
      · rcases mem_cleanStep h with h | rfl
        · exact .inl h
        · exact .inr List.mem_cons_self
      · exact .inr (List.mem_cons_of_mem n h)
  exact (hfold _ _ h).resolve_left List.not_mem_nil

/-- What a file is cleaned to below a directory. -/
def below (dir file : Bytes) : Bytes :=
  let body := List.intercalate [slash] (kept dir ++ [file])
  if isAbsolute dir then slash :: body else body

private theorem cleanStep_file (h : IsFile file) (absolute : Bool) (ns : List Bytes) :
    cleanStep absolute ns file = ns ++ [file] := by
  simp [cleanStep, h.here, h.up]

private theorem clean_eq_below (h : IsFile file) {path : Bytes}
    (hnames : names path = names dir ++ [file])
    (habs : isAbsolute path = isAbsolute dir) : clean path = below dir file := by
  have hkept : (names path).foldl (cleanStep (isAbsolute dir)) [] = kept dir ++ [file] := by
    rw [hnames, List.foldl_append, List.foldl_cons, List.foldl_nil, cleanStep_file h]
    rfl
  simp [clean, habs, hkept, below]

theorem join_file (h : IsFile file) (dir : Bytes) : join dir file = below dir file := by
  unfold join
  split
  · rename_i hdir
    rw [List.isEmpty_iff.mp hdir, if_neg (by simpa using h.ne_nil)]
    apply clean_eq_below h h.names
    obtain ⟨b, s, rfl⟩ := List.exists_cons_of_ne_nil h.ne_nil
    have hb : b ≠ slash := fun hb => h.slash (hb ▸ List.mem_cons_self)
    simp [isAbsolute, hb]
  · rename_i hdir
    apply clean_eq_below h
    · rw [List.append_assoc, List.singleton_append, names_append_slash, h.names]
    · obtain ⟨b, s, rfl⟩ := List.exists_cons_of_ne_nil (by simpa using hdir)
      rfl

theorem isFile_names (h : IsFile file) (dir : Bytes) :
    ∀ name ∈ kept dir ++ [file], name ≠ [] ∧ slash ∉ name := by
  rw [List.forall_mem_append, List.forall_mem_singleton]
  exact ⟨fun name hn => mem_names (mem_kept hn), h.ne_nil, h.slash⟩

theorem names_join (h : IsFile file) (dir : Bytes) :
    names (join dir file) = kept dir ++ [file] := by
  have hbody := names_intercalate (isFile_names h dir)
  rw [join_file h, below]
  split
  · rw [← List.nil_append (slash :: _), names_append_slash, hbody]
    rfl
  · exact hbody

theorem isAbsolute_join (h : IsFile file) (dir : Bytes) :
    isAbsolute (join dir file) = isAbsolute dir := by
  rw [join_file h, below]
  split
  · rename_i habs
    rw [habs]
    rfl
  · rename_i habs
    -- The path begins with its first name, and no name begins with a slash.
    obtain ⟨name, ns, hns⟩ := List.exists_cons_of_ne_nil
      (List.append_ne_nil_of_right_ne_nil (kept dir) (List.cons_ne_nil file []))
    obtain ⟨hne, hslash⟩ := isFile_names h dir name (hns ▸ List.mem_cons_self)
    obtain ⟨b, s, rfl⟩ := List.exists_cons_of_ne_nil hne
    have hb : b ≠ slash := fun hb => hslash (hb ▸ List.mem_cons_self)
    have hhead : (List.intercalate [slash] ((b :: s) :: ns)).head? = some b := by
      cases ns <;> rfl
    rw [hns, isAbsolute, hhead]
    simpa [hb] using habs

private theorem suffix_intercalate (ns : List Bytes) (file : Bytes) :
    file <:+ List.intercalate [slash] (ns ++ [file]) := by
  by_cases hns : ns = []
  · simp [hns]
  · rw [Bytes.intercalate_concat _ hns, ← List.append_assoc]
    exact List.suffix_append _ _

/-- The path ends with the file, so it does not lead into a directory. -/
theorem getLast?_join (h : IsFile file) (dir : Bytes) :
    (join dir file).getLast? ≠ some slash := by
  have hsuffix : file <:+ join dir file := by
    rw [join_file h, below]
    split
    · exact (suffix_intercalate _ _).trans (List.suffix_cons _ _)
    · exact suffix_intercalate _ _
  obtain ⟨before, hbefore⟩ := hsuffix
  obtain ⟨b, hb⟩ := Option.isSome_iff_exists.mp (List.getLast?_isSome.mpr h.ne_nil)
  rw [← hbefore, List.getLast?_append, hb, Option.some_or]
  intro hlast
  exact h.slash (Option.some.inj hlast ▸ List.mem_of_getLast? hb)

end PipeCompiler.Path
