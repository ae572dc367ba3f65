import PipeCompiler.Files
import PipeCompiler.Proofs.FilePaths

/-! What commands change on a disk.

Making directories takes nothing away, and writing a file changes that file only. Either keeps all
directories, so a path that led somewhere before still leads there. -/
namespace PipeCompiler

theorem lookup_cons_ite {α β : Type} [BEq α] [LawfulBEq α] [DecidableEq α] (a k : α)
    (b : β) (pairs : List (α × β)) :
    ((a, b) :: pairs).lookup k = if k = a then some b else pairs.lookup k := by
  by_cases h : k = a
  · simp [h]
  · rw [List.lookup_cons, beq_false_of_ne h, if_neg h]

namespace Disk

variable {d d' d'' : Disk} {path content : Bytes}

private theorem lookup_putEntry (l k : Location) (e : Entry) (entries : List (Location × Entry)) :
    (putEntry l e entries).lookup k = if k = l then some e else entries.lookup k := by
  induction entries with
  | nil => exact lookup_cons_ite l k e []
  | cons entry entries ih =>
    obtain ⟨l', e'⟩ := entry
    rw [putEntry]
    split
    · rename_i hl
      rw [hl, lookup_cons_ite, lookup_cons_ite]
      by_cases h : k = l <;> simp [h]
    · rename_i hl
      rw [lookup_cons_ite, lookup_cons_ite, ih]
      by_cases h : k = l'
      · simp [h, hl]
      · simp [h]

private theorem putEntry_of_lookup_eq_none {l : Location} {entries : List (Location × Entry)}
    (h : entries.lookup l = none) (e : Entry) : putEntry l e entries = entries ++ [(l, e)] := by
  induction entries with
  | nil => rfl
  | cons entry entries ih =>
    obtain ⟨l', e'⟩ := entry
    rw [lookup_cons_ite] at h
    split at h
    · cases h
    · rename_i hl
      rw [putEntry, if_neg (Ne.symm hl), ih h]
      rfl

theorem get?_root (d : Disk) : d.get? [] = some .directory := rfl

theorem ne_root {l : Location} (h : d.get? l ≠ some .directory) : l ≠ [] := by
  rintro rfl
  exact h d.get?_root

theorem get?_put {l : Location} (hl : l ≠ []) (e : Entry) (k : Location) :
    (d.put l e).get? k = if k = l then some e else d.get? k := by
  by_cases hk : k = []
  · rw [hk, get?_root, get?_root, if_neg (Ne.symm hl)]
  · rw [get?, get?, if_neg hk, if_neg hk]
    exact lookup_putEntry l k e d.entries

/-- Every directory of the first disk is one of the second. -/
structure KeepsDirectories (d d' : Disk) : Prop where
  cwd : d'.cwd = d.cwd
  directory : ∀ l, d.get? l = some .directory → d'.get? l = some .directory

theorem step_eq_ok {l k : Location} {name : Bytes} (h : d.step l name = .ok k) :
    d.get? l = some .directory := by
  unfold step at h
  split at h
  · assumption
  · cases h
  · cases h

theorem KeepsDirectories.step (h : d.KeepsDirectories d') {l k : Location} {name : Bytes}
    (hstep : d.step l name = .ok k) : d'.step l name = .ok k := by
  have hdir := step_eq_ok hstep
  rw [Disk.step, hdir] at hstep
  rw [Disk.step, h.directory l hdir]
  exact hstep

theorem follow_cons {l k : Location} {name : Bytes} {names : List Bytes} :
    d.follow l (name :: names) = .ok k ↔
      ∃ l', d.step l name = .ok l' ∧ d.follow l' names = .ok k := by
  rw [follow]
  cases d.step l name with
  | error e => simp [bind, Except.bind]
  | ok l' => simp [bind, Except.bind]

private theorem follow_append {l k : Location} {names more : List Bytes} :
    d.follow l (names ++ more) = .ok k ↔
      ∃ l', d.follow l names = .ok l' ∧ d.follow l' more = .ok k := by
  induction names generalizing l with
  | nil => simp [follow]
  | cons name names ih =>
    rw [List.cons_append, follow_cons]
    constructor
    · rintro ⟨l₁, hstep, hmore⟩
      obtain ⟨l₂, hnames, hmore⟩ := ih.mp hmore
      exact ⟨l₂, follow_cons.mpr ⟨l₁, hstep, hnames⟩, hmore⟩
    · rintro ⟨l₂, hnames, hmore⟩
      obtain ⟨l₁, hstep, hnames⟩ := follow_cons.mp hnames
      exact ⟨l₁, hstep, ih.mpr ⟨l₂, hnames, hmore⟩⟩

theorem KeepsDirectories.follow (h : d.KeepsDirectories d') {names : List Bytes} {l k : Location}
    (hfollow : d.follow l names = .ok k) : d'.follow l names = .ok k := by
  induction names generalizing l with
  | nil => exact hfollow
  | cons name names ih =>
    obtain ⟨l', hstep, hnames⟩ := follow_cons.mp hfollow
    exact follow_cons.mpr ⟨l', h.step hstep, ih hnames⟩

theorem KeepsDirectories.locate (h : d.KeepsDirectories d') {l : Location}
    (hlocate : d.locate path = .ok l) : d'.locate path = .ok l := by
  unfold Disk.locate at hlocate ⊢
  split at hlocate
  · cases hlocate
  · rw [h.cwd]
    exact h.follow hlocate

/-- A file below a directory is where the directory is, whatever else the directory holds. -/
theorem locate_join {dir file : Bytes} (hfile : Path.IsFile file) {l : Location}
    (h : d.locate (Path.join dir file) = .ok l) :
    ∃ k, d.follow (if Path.isAbsolute dir then [] else d.cwd) (Path.kept dir) = .ok k ∧
      l = k ++ [file] := by
  unfold locate at h
  split at h
  · cases h
  · dsimp only at h
    rw [if_neg (Path.getLast?_join hfile dir), Path.names_join hfile, Path.isAbsolute_join hfile,
      follow_append] at h
    obtain ⟨k, hk, hlast⟩ := h
    obtain ⟨l', hstep, hend⟩ := follow_cons.mp hlast
    cases hend
    refine ⟨k, hk, ?_⟩
    rw [step, step_eq_ok hstep] at hstep
    simp only [hfile.here, hfile.up, beq_iff_eq, if_false] at hstep
    split at hstep
    · cases hstep
    · cases hstep
      rfl

/-- Two files of one directory are not in the same place. -/
theorem locate_join_ne {dir file other : Bytes} (hfile : Path.IsFile file)
    (hother : Path.IsFile other) (hne : other ≠ file) {l k : Location}
    (hl : d.locate (Path.join dir file) = .ok l) (hk : d.locate (Path.join dir other) = .ok k) :
    k ≠ l := by
  obtain ⟨base, hbase, rfl⟩ := locate_join hfile hl
  obtain ⟨base', hbase', rfl⟩ := locate_join hother hk
  rw [hbase] at hbase'
  cases hbase'
  simpa using hne

theorem has_iff : d.has path = true ↔ ∃ l e, d.locate path = .ok l ∧ d.get? l = some e := by
  unfold has stat
  cases d.locate path with
  | error fault => simp [bind, Except.bind, Except.toOption]
  | ok l =>
    simp only [bind, Except.bind]
    cases hentry : d.get? l <;> simp [hentry, Except.toOption]

theorem read_eq_ok :
    d.read path = .ok content ↔
      ∃ l executable, d.locate path = .ok l ∧ d.get? l = some (.file content executable) := by
  unfold read stat
  cases d.locate path with
  | error fault => simp [bind, Except.bind]
  | ok l =>
    simp only [bind, Except.bind]
    cases hentry : d.get? l with
    | none => simp [hentry]
    | some e =>
      cases e with
      | directory => simp [hentry]
      | file text executable => cases executable <;> simp [hentry]

theorem write_cases (h : d.write path content = .ok d') :
    ∃ l executable, d.locate path = .ok l ∧ d.get? l ≠ some .directory ∧
      d' = d.put l (.file content executable) := by
  unfold write at h
  split at h
  · cases h
  · rename_i l hl
    split at h
    · cases h
    · rename_i old executable hfile
      cases h
      exact ⟨l, executable, hl, by simp [hfile], rfl⟩
    · rename_i hnone
      cases h
      exact ⟨l, false, hl, by simp [hnone], rfl⟩

theorem keepsDirectories_put {l : Location} (hl : d.get? l ≠ some .directory) (e : Entry) :
    d.KeepsDirectories (d.put l e) := by
  refine ⟨rfl, fun k hk => ?_⟩
  have hne : k ≠ l := by
    rintro rfl
    exact hl hk
  rw [get?_put (ne_root hl), if_neg hne]
  exact hk

theorem read_write (h : d.write path content = .ok d') : d'.read path = .ok content := by
  obtain ⟨l, executable, hl, hdir, rfl⟩ := write_cases h
  apply read_eq_ok.mpr
  refine ⟨l, executable, (keepsDirectories_put hdir _).locate hl, ?_⟩
  rw [get?_put (ne_root hdir), if_pos rfl]

/-- Another file of the same directory keeps its content. -/
theorem read_write_of_ne {dir file other text : Bytes} (hfile : Path.IsFile file)
    (hother : Path.IsFile other) (hne : other ≠ file)
    (h : d.write (Path.join dir file) content = .ok d')
    (hread : d.read (Path.join dir other) = .ok text) :
    d'.read (Path.join dir other) = .ok text := by
  obtain ⟨l, executable, hl, hdir, rfl⟩ := write_cases h
  obtain ⟨k, mode, hk, hentry⟩ := read_eq_ok.mp hread
  apply read_eq_ok.mpr
  refine ⟨k, mode, (keepsDirectories_put hdir _).locate hk, ?_⟩
  rw [get?_put (ne_root hdir), if_neg (locate_join_ne hfile hother hne hl hk)]
  exact hentry

/-- Another file of the same directory is there if it was before. -/
theorem has_write_of_ne {dir file other : Bytes} (hfile : Path.IsFile file)
    (hother : Path.IsFile other) (hne : other ≠ file)
    (h : d.write (Path.join dir file) content = .ok d') :
    d'.has (Path.join dir other) = d.has (Path.join dir other) := by
  obtain ⟨l, executable, hl, hdir, rfl⟩ := write_cases h
  -- What is written is no directory, so it is not on the way to any file either.
  have hback : (d.put l (.file content executable)).KeepsDirectories d := by
    refine ⟨rfl, fun k hk => ?_⟩
    rw [get?_put (ne_root hdir)] at hk
    split at hk
    · cases hk
    · exact hk
  have hget {k : Location} (hk : d.locate (Path.join dir other) = .ok k) :
      (d.put l (.file content executable)).get? k = d.get? k := by
    rw [get?_put (ne_root hdir), if_neg (locate_join_ne hfile hother hne hl hk)]
  rw [Bool.eq_iff_iff, has_iff, has_iff]
  constructor
  · rintro ⟨k, e, hk, hentry⟩
    have hk := hback.locate hk
    exact ⟨k, e, hk, (hget hk).symm.trans hentry⟩
  · rintro ⟨k, e, hk, hentry⟩
    exact ⟨k, e, (keepsDirectories_put hdir _).locate hk, (hget hk).trans hentry⟩

/-- A file that was not there stands behind all entries. -/
theorem write_of_has_eq_false (hnew : d.has path = false) (h : d.write path content = .ok d') :
    ∃ l, d.locate path = .ok l ∧
      d' = { d with entries := d.entries ++ [(l, .file content false)] } := by
  unfold write at h
  split at h
  · cases h
  · rename_i l hl
    have hnone : d.get? l = none := by
      cases hentry : d.get? l with
      | none => rfl
      | some e =>
        rw [has_iff.mpr ⟨l, e, hl, hentry⟩] at hnew
        cases hnew
    rw [hnone] at h
    cases h
    have hroot : l ≠ [] := ne_root (d := d) (by simp [hnone])
    rw [get?, if_neg hroot] at hnone
    exact ⟨l, hl, by rw [put, putEntry_of_lookup_eq_none hnone]⟩

/-- The second disk has all the entries of the first. -/
structure Grows (d d' : Disk) : Prop where
  cwd : d'.cwd = d.cwd
  get? : ∀ l e, d.get? l = some e → d'.get? l = some e

theorem Grows.refl (d : Disk) : d.Grows d := ⟨rfl, fun _ _ h => h⟩

theorem Grows.trans (h : d.Grows d') (h' : d'.Grows d'') : d.Grows d'' :=
  ⟨h'.cwd.trans h.cwd, fun l e hl => h'.get? l e (h.get? l e hl)⟩

theorem Grows.read (h : d.Grows d') (hread : d.read path = .ok content) :
    d'.read path = .ok content := by
  have hkeeps : d.KeepsDirectories d' := ⟨h.cwd, fun l => h.get? l .directory⟩
  obtain ⟨l, executable, hl, hentry⟩ := read_eq_ok.mp hread
  exact read_eq_ok.mpr ⟨l, executable, hkeeps.locate hl, h.get? l _ hentry⟩

private theorem grows_makeDirectory (h : d.makeDirectory path = .ok d') : d.Grows d' := by
  unfold makeDirectory at h
  dsimp only at h
  split at h
  · cases h
  · cases h
  · rename_i l _ _
    split at h
    · cases h
    · rename_i hnone
      cases h
      have hl : d.get? l ≠ some .directory := by simp [hnone]
      refine ⟨rfl, fun k e hk => ?_⟩
      have hkl : k ≠ l := by
        rintro rfl
        rw [hk] at hnone
        cases hnone
      rw [get?_put (ne_root hl), if_neg hkl]
      exact hk

theorem grows_makeDirectories (d : Disk) (path : Bytes) : d.Grows (d.makeDirectories path).2 := by
  have hparent {p : Prop} [Decidable p] {m made : Except FileError Unit × Disk}
      (h : ¬p → d.Grows m.2) (hmade : (if p then (.ok (), d) else m) = made) : d.Grows made.2 := by
    split at hmade
    · exact hmade ▸ .refl d
    · rename_i hp
      exact hmade ▸ h hp
  fun_induction makeDirectories d path with
  | case1 => exact .refl d
  | case2 => exact .refl d
  | case3 path fault hstat made e d₁ hmade ih => exact hparent ih hmade
  | case4 path fault hstat made d₁ hmade d₂ hmake ih =>
    exact (hparent ih hmade).trans (grows_makeDirectory hmake)
  | case5 path fault hstat made d₁ hmade e hmake ih =>
    have hgrows : d.Grows d₁ := hparent ih hmade
    exact hgrows

end Disk
end PipeCompiler
