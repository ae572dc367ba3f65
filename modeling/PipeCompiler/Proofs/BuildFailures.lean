import PipeCompiler.Command.Build
import PipeCompiler.Proofs.DiskWrites
import PipeCompiler.Proofs.Outcomes

/-! A build that fails leaves the disk alone.

The compilations of a build are done in any order, each filling its own slot. What is in the slots
in the end depends on the sources alone, and so does the failure that is reported. Nothing is
written before all slots are known to hold code. -/
namespace PipeCompiler

variable {d : Disk} {sources : List Bytes}

theorem collision?_eq_none {seen : List (Bytes × Bytes)} (h : collision? seen sources = none) :
    (sources.map moduleName).Nodup ∧ ∀ s ∈ sources, seen.lookup (moduleName s) = none := by
  induction sources generalizing seen with
  | nil => simp
  | cons source sources ih =>
    rw [collision?] at h
    split at h
    · cases h
    · rename_i hseen
      obtain ⟨hnodup, hrest⟩ := ih h
      simp only [lookup_cons_ite] at hrest
      rw [List.map_cons, List.nodup_cons, List.forall_mem_cons]
      refine ⟨⟨fun hmem => ?_, hnodup⟩, hseen, fun s hs => ?_⟩
      · obtain ⟨s, hs, hname⟩ := List.mem_map.mp hmem
        have hnone := hrest s hs
        rw [if_pos hname] at hnone
        cases hnone
      · have hnone := hrest s hs
        split at hnone
        · cases hnone
        · exact hnone

/-- The source that is found is the first to repeat a name, of one that was seen or of one before
it. -/
theorem collision?_eq_some {seen : List (Bytes × Bytes)} {first second name : Bytes}
    (h : collision? seen sources = some (first, second, name)) :
    name = moduleName second ∧ ∃ before after, sources = before ++ second :: after ∧
      (before.map moduleName).Nodup ∧ (∀ s ∈ before, seen.lookup (moduleName s) = none) ∧
      (seen.lookup name = some first ∨ first ∈ before ∧ moduleName first = name) := by
  induction sources generalizing seen with
  | nil => cases h
  | cons source sources ih =>
    rw [collision?] at h
    split at h
    · rename_i hseen
      cases h
      exact ⟨rfl, [], sources, rfl, by simp, by simp, .inl hseen⟩
    · rename_i hseen
      obtain ⟨hname, before, after, rfl, hnodup, hnone, hfirst⟩ := ih h
      simp only [lookup_cons_ite] at hnone hfirst
      have hapart : ∀ s ∈ before, moduleName s ≠ moduleName source ∧
          seen.lookup (moduleName s) = none := by
        intro s hs
        have hs := hnone s hs
        split at hs
        · cases hs
        · exact ⟨‹_›, hs⟩
      refine ⟨hname, source :: before, after, rfl, ?_, ?_, ?_⟩
      · rw [List.map_cons, List.nodup_cons]
        refine ⟨fun hmem => ?_, hnodup⟩
        obtain ⟨s, hs, hsame⟩ := List.mem_map.mp hmem
        exact (hapart s hs).1 hsame
      · rw [List.forall_mem_cons]
        exact ⟨hseen, fun s hs => (hapart s hs).2⟩
      · rcases hfirst with hfirst | ⟨hmem, hfirst⟩
        · split at hfirst
          · rename_i hsame
            cases hfirst
            exact .inr ⟨List.mem_cons_self, hsame.symm⟩
          · exact .inl hfirst
        · exact .inr ⟨List.mem_cons_of_mem source hmem, hfirst⟩

/-- The source with this index does not compile. -/
def FailsAt (d : Disk) (sources : List Bytes) (i : Nat) : Prop :=
  ∃ source e, sources[i]? = some source ∧ compileFile d source = .error e

namespace Batch

/-- The compilations with the indices `done` are done, and no others. -/
structure Tracks (d : Disk) (sources : List Bytes) (done : List Nat) (b : Batch) : Prop where
  slots : ∀ i, b.slots[i]? =
    sources[i]?.map fun source => if i ∈ done then some (compileFile d source) else none
  failure : b.failure.isSome ↔ ∃ i ∈ done, FailsAt d sources i

theorem failure?_eq_some {r : Except Failure Compiled} {e : Failure} :
    failure? r = some e ↔ r = .error e := by
  cases r <;> simp [failure?]

theorem failure?_eq_none {r : Except Failure Compiled} :
    failure? r = none ↔ ∃ c, r = .ok c := by
  cases r <;> simp [failure?]

private theorem tracks_pending (d : Disk) (sources : List Bytes) :
    Tracks d sources [] (pending sources.length) := by
  constructor
  · intro i
    rw [pending, List.getElem?_replicate]
    by_cases hi : i < sources.length
    · simp [hi]
    · simp [hi]
  · simp [pending]

private theorem finish_failure {d : Disk} {b : Batch} {i : Nat} {source : Bytes}
    (hsource : sources[i]? = some source) :
    (b.finish i (compileFile d source)).failure.isSome ↔
      b.failure.isSome ∨ FailsAt d sources i := by
  have hnow : FailsAt d sources i ↔ (failure? (compileFile d source)).isSome := by
    simp [FailsAt, hsource, Option.isSome_iff_exists, failure?_eq_some]
  rw [hnow, finish]
  cases b.failure <;> simp

theorem Tracks.next {done : List Nat} {b : Batch} (h : Tracks d sources done b) (i : Nat) :
    Tracks d sources (done ++ [i]) (compileNext d sources b i) := by
  have hdone : (∃ j ∈ done ++ [i], FailsAt d sources j) ↔
      (∃ j ∈ done, FailsAt d sources j) ∨ FailsAt d sources i := by
    simp [or_and_right, exists_or]
  unfold compileNext
  split
  · rename_i source hsource
    constructor
    · intro j
      rw [finish, List.getElem?_set]
      by_cases hij : i = j
      · have hslot := h.slots i
        rw [hsource] at hslot
        have hi : i < b.slots.length := (List.getElem?_eq_some_iff.mp hslot).1
        subst hij
        simp [hi, hsource]
      · simp [hij, Ne.symm hij, h.slots j]
    · rw [finish_failure hsource, h.failure, hdone]
  · rename_i hnone
    have hfails : ¬FailsAt d sources i := by simp [FailsAt, hnone]
    constructor
    · intro j
      rw [h.slots j]
      by_cases hij : j = i
      · simp [hij, hnone]
      · simp [hij]
    · rw [h.failure, hdone, or_iff_left hfails]

theorem tracks_compileAll (d : Disk) (sources : List Bytes) (order : List Nat) :
    Tracks d sources order (compileAll d sources order) := by
  suffices hrun : ∀ done b, Tracks d sources done b →
      Tracks d sources (done ++ order) (order.foldl (compileNext d sources) b) from
    hrun [] _ (tracks_pending d sources)
  induction order with
  | nil => simp
  | cons i order ih =>
    intro done b h
    have hrest := ih _ _ (h.next i)
    rwa [List.append_assoc, List.singleton_append] at hrest

/-- Once all compilations are done, the slots hold what the sources come to, in their order. -/
theorem slots_compileAll {order : List Nat} (h : order.Perm (List.range sources.length)) :
    (compileAll d sources order).slots = sources.map fun source => some (compileFile d source) := by
  apply List.ext_getElem?
  intro i
  rw [(tracks_compileAll d sources order).slots, List.getElem?_map]
  by_cases hi : i < sources.length
  · have hmem : i ∈ order := h.mem_iff.mpr (List.mem_range.mpr hi)
    simp [hmem]
  · simp [List.getElem?_eq_none (Nat.le_of_not_lt hi)]

theorem reported?_compileAll {order : List Nat} (h : order.Perm (List.range sources.length)) :
    (compileAll d sources order).reported? =
      sources.findSome? fun source => failure? (compileFile d source) := by
  unfold reported?
  rw [slots_compileAll h, List.findSome?_map]
  split
  · rfl
  · rename_i hnone
    -- Nothing has failed, so there is nothing to be found either.
    rw [(tracks_compileAll d sources order).failure] at hnone
    apply Eq.symm
    rw [List.findSome?_eq_none_iff]
    intro source hsource
    obtain ⟨i, hi⟩ := List.mem_iff_getElem?.mp hsource
    have hmem : i ∈ order :=
      h.mem_iff.mpr (List.mem_range.mpr (List.getElem?_eq_some_iff.mp hi).1)
    rw [Option.eq_none_iff_forall_ne_some]
    intro e he
    exact hnone ⟨i, hmem, source, e, hi, failure?_eq_some.mp he⟩

theorem compiled_compileAll {order : List Nat} (h : order.Perm (List.range sources.length)) :
    (compileAll d sources order).compiled =
      sources.filterMap fun source => (compileFile d source).toOption := by
  rw [compiled, slots_compileAll h, List.filterMap_map]
  rfl

end Batch

namespace Command

/-- The world once a build has announced itself. -/
def announced (o : CommandLine.Options) (sources : List Bytes) (w : World) : World :=
  if o.quiet then w
  else { w with out := w.out ++ ("↪ building " ++ List.intercalate ", " sources ++ " → " ++
    Quoted.text (o.out ++ "/") ++ " ..." ++ "\n") }

theorem announced_disk (o : CommandLine.Options) (sources : List Bytes) (w : World) :
    (announced o sources w).disk = w.disk := by
  unfold announced
  split <;> rfl

theorem build_eq (o : CommandLine.Options) (sources : List Bytes) (order : List Nat) (w : World) :
    build o sources order w =
      match collision? [] sources with
      | some (first, second, name) => .error (.collision first second name) w
      | none =>
        match (compileAll w.disk sources order).reported? with
        | some e => .error e (announced o sources w)
        | none =>
          writeAll o (sources.zip (compileAll w.disk sources order).compiled)
            (announced o sources w) := by
  unfold build
  cases collision? [] sources with
  | some c => rfl
  | none =>
    have hreport : report o ("↪ building " ++ List.intercalate ", " sources ++ " → " ++
        Quoted.text (o.out ++ "/") ++ " ...") w = .ok () (announced o sources w) := by
      unfold report announced
      split <;> rfl
    refine (run_bind_of_ok hreport).trans ?_
    change (match (compileAll (announced o sources w).disk sources order).reported? with
      | some e => throw e
      | none => writeAll o (sources.zip
          (compileAll (announced o sources w).disk sources order).compiled) : Command Unit)
      (announced o sources w) = _
    rw [announced_disk]
    cases (compileAll w.disk sources order).reported? <;> rfl

end Command

/-- The failure that a build reports, by what is wrong with its sources: the first source to repeat
the name of an earlier one, or else the first source that does not compile. -/
inductive BuildFault (d : Disk) (sources : List Bytes) : Failure → Prop
  | collision {before after : List Bytes} {first second : Bytes}
      (hsources : sources = before ++ second :: after) (hbefore : (before.map moduleName).Nodup)
      (hfirst : first ∈ before) (hname : moduleName first = moduleName second) :
      BuildFault d sources (.collision first second (moduleName second))
  | compilation {before after : List Bytes} {source : Bytes} {e : Failure}
      (hnames : (sources.map moduleName).Nodup) (hsources : sources = before ++ source :: after)
      (hbefore : ∀ s ∈ before, ∃ c, compileFile d s = .ok c)
      (hsource : compileFile d source = .error e) : BuildFault d sources e

/-- Where two sources have the same name or one does not compile, a build reports the same failure
in whatever order the compilations are done, and the disk is as it was before. -/
theorem build_fails_atomically (o : CommandLine.Options) (sources : List Bytes) (w : World)
    (h : ¬(sources.map moduleName).Nodup ∨
      ∃ source ∈ sources, ∃ e, compileFile w.disk source = .error e) :
    ∃ e, BuildFault w.disk sources e ∧
      ∀ order : List Nat, order.Perm (List.range sources.length) →
        ∃ w', Command.build o sources order w = .error e w' ∧ w'.disk = w.disk := by
  cases hcollision : collision? [] sources with
  | some c =>
    obtain ⟨first, second, name⟩ := c
    obtain ⟨rfl, before, after, hsources, hnodup, -, hfirst⟩ := collision?_eq_some hcollision
    obtain ⟨hmem, hname⟩ := hfirst.resolve_left nofun
    refine ⟨_, .collision hsources hnodup hmem hname, fun order _ => ⟨w, ?_, rfl⟩⟩
    rw [Command.build_eq, hcollision]
  | none =>
    have hnames := (collision?_eq_none hcollision).1
    obtain ⟨source, hsource, e, he⟩ := h.resolve_left (not_not_intro hnames)
    have hfound : (sources.findSome? fun s => Batch.failure? (compileFile w.disk s)).isSome := by
      rw [List.findSome?_isSome_iff]
      exact ⟨source, hsource, by rw [he]; rfl⟩
    obtain ⟨e', he'⟩ := Option.isSome_iff_exists.mp hfound
    obtain ⟨before, first, after, hsources, hfirst, hbefore⟩ := List.findSome?_eq_some_iff.mp he'
    have hcompile : ∀ s ∈ before, ∃ c, compileFile w.disk s = .ok c := fun s hs =>
      Batch.failure?_eq_none.mp (hbefore s hs)
    refine ⟨e', .compilation hnames hsources hcompile (Batch.failure?_eq_some.mp hfirst), ?_⟩
    intro order horder
    refine ⟨Command.announced o sources w, ?_, Command.announced_disk o sources w⟩
    rw [Command.build_eq, hcollision, Batch.reported?_compileAll horder, he']

/-- A source that compiles, one with a bracket out of place and one with a stray character. -/
def Disk.faultySources : Disk where
  entries := [([Bytes.ofString "a.pipe"], .file "print(1)" false),
    ([Bytes.ofString "b.pipe"], .file ")" false), ([Bytes.ofString "c.pipe"], .file "@" false)]
  cwd := []

/-- The last compilation is done first, and still it is the second source that is reported. -/
theorem build_fails_atomically_lastFirst :
    (∃ e, compileFile .faultySources "b.pipe" = .error e) ∧
      ∃ e, BuildFault .faultySources ["a.pipe", "b.pipe", "c.pipe"] e ∧
        ∃ w', Command.build ⟨"out", false, false, "node", ⟨0⟩⟩ ["a.pipe", "b.pipe", "c.pipe"]
          [2, 1, 0] ⟨.faultySources, [], [], []⟩ = .error e w' ∧ w'.disk = .faultySources := by
  have hfails : (compileFile .faultySources "b.pipe").toOption.isNone = true := by decide +kernel
  have herror : ∃ e, compileFile .faultySources "b.pipe" = .error e := by
    cases h : compileFile .faultySources "b.pipe" with
    | error e => exact ⟨e, rfl⟩
    | ok c => simp [h, Except.toOption] at hfails
  obtain ⟨e, hfault, hrun⟩ := build_fails_atomically ⟨"out", false, false, "node", ⟨0⟩⟩
    ["a.pipe", "b.pipe", "c.pipe"] ⟨.faultySources, [], [], []⟩ (.inr ⟨"b.pipe", by simp, herror⟩)
  exact ⟨herror, e, hfault, hrun [2, 1, 0] (by decide)⟩

end PipeCompiler
