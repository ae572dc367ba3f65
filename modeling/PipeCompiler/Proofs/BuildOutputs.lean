import PipeCompiler.Proofs.BuildFailures
import PipeCompiler.Proofs.StatementSequences

/-! What a build leaves on the disk.

Every source has a file of its own in the output directory, and so has the library. A build that
succeeds leaves the code of a source in its file, unless the two files are the same: the library is
written after the module, and what a source named like the library is compiled to is lost. -/
namespace PipeCompiler

variable {d : Disk} {source : Bytes}

/-- The file of a module in the output directory. -/
def moduleFile (source : Bytes) : Bytes :=
  moduleName source ++ moduleExtension

theorem isFile_append {name : Bytes} (h : Path.slash ∉ name) :
    Path.IsFile (name ++ moduleExtension) := by
  have hlength : 4 ≤ (name ++ moduleExtension).length := by
    rw [List.length_append]
    exact Nat.le_add_left 4 name.length
  have hlong {file : Bytes} (hfile : file.length < 4) : name ++ moduleExtension ≠ file := by
    rintro rfl
    omega
  refine ⟨hlong (by decide), ?_, hlong (by decide), hlong (by decide)⟩
  rw [List.mem_append, not_or]
  exact ⟨h, by decide⟩

theorem isFile_library : Path.IsFile Library.fileName :=
  isFile_append (show Path.slash ∉ Library.namespaceName by decide)

private theorem moduleFile_inj {source other : Bytes} :
    moduleFile source = moduleFile other ↔ moduleName source = moduleName other :=
  List.append_left_inj moduleExtension

theorem moduleFile_eq_library :
    moduleFile source = Library.fileName ↔ moduleName source = Library.namespaceName := by
  have hlibrary : Library.fileName = Library.namespaceName ++ moduleExtension := by decide
  rw [hlibrary]
  exact List.append_left_inj moduleExtension

/-- A path with an extension ends with a name. -/
theorem slash_notMem_base (h : Path.extension source = sourceExtension) :
    Path.slash ∉ Path.base source := by
  unfold Path.base
  split
  · decide
  · cases hlast : (Path.names source).getLast? with
    | some name => exact (Path.mem_names (List.mem_of_getLast? hlast)).2
    | none =>
      -- Without any name the path has nothing but slashes, and so no extension.
      have hempty : ∀ name ∈ Bytes.cutAt Path.slash source, name = [] := by
        have hnames : Path.names source = [] := List.getLast?_eq_none_iff.mp hlast
        simpa [Path.names, List.filter_eq_nil_iff] using hnames
      have hcut : (Bytes.cutAt Path.slash source).getLast?.getD [] = [] := by
        cases hcut : (Bytes.cutAt Path.slash source).getLast? with
        | none => rfl
        | some name => exact hempty name (List.mem_of_getLast? hcut)
      have hnone : Path.extension source = [] := by simp [Path.extension, hcut]
      exact absurd (hnone.symm.trans h) (by decide)

private theorem isFile_moduleFile (h : Path.extension source = sourceExtension) :
    Path.IsFile (moduleFile source) := by
  apply isFile_append
  unfold moduleName Path.dropEnding
  have hbase := slash_notMem_base h
  split
  · exact fun hmem => hbase (List.mem_of_mem_take hmem)
  · exact hbase

theorem compileFile_eq_ok {c : Compiled} (h : compileFile d source = .ok c) :
    Path.extension source = sourceExtension ∧
      ∃ content, d.read source = .ok content ∧ compile content = .ok c := by
  unfold compileFile at h
  split at h
  · cases h
  · rename_i hext
    refine ⟨not_not.mp hext, ?_⟩
    obtain ⟨content, hread, hcompile⟩ := bind_eq_ok.mp h
    exact ⟨content, mapError_eq_ok.mp hread, mapError_eq_ok.mp hcompile⟩

namespace Command

variable {o : CommandLine.Options} {w w' : World} {c : Compiled} {dir path : Bytes}

theorem report_disk {line : Bytes} (h : report o line w = .ok () w') : w'.disk = w.disk := by
  unfold report at h
  split at h
  · cases h
    rfl
  · cases h
    rfl

theorem change_disk {f : Disk → Except FileError Disk} (h : change f w = .ok () w') :
    f w.disk = .ok w'.disk := by
  unfold change at h
  obtain ⟨w₁, w₂, hget, h⟩ := run_bind_eq_ok.mp h
  cases hget
  cases hf : f w.disk with
  | error e =>
    rw [hf] at h
    cases h
  | ok disk =>
    rw [hf] at h
    cases h
    rfl

private theorem makeDirectories_disk (h : makeDirectories path w = .ok () w') :
    w.disk.Grows w'.disk := by
  have hgrows := Disk.grows_makeDirectories w.disk path
  unfold makeDirectories at h
  obtain ⟨w₁, w₂, hget, h⟩ := run_bind_eq_ok.mp h
  cases hget
  obtain ⟨_, w₃, hset, h⟩ := run_bind_eq_ok.mp h
  cases hset
  cases hmade : (w.disk.makeDirectories path).1 with
  | error e =>
    rw [hmade] at h
    cases h
  | ok _ =>
    rw [hmade] at h
    cases h
    exact hgrows

/-- A module is written, and then the library. -/
theorem writeModule_disk (h : writeModule c dir source w = .ok path w') :
    ∃ d₁ d₂ : Disk, w.disk.Grows d₁ ∧
      d₁.write (Path.join dir (moduleFile source)) c.code = .ok d₂ ∧
      d₂.write (Path.join dir Library.fileName) Library.source = .ok w'.disk := by
  unfold writeModule at h
  obtain ⟨_, w₁, hmake, h⟩ := run_bind_eq_ok.mp h
  obtain ⟨_, w₂, hmodule, h⟩ := run_bind_eq_ok.mp h
  obtain ⟨_, w₃, hlibrary, h⟩ := run_bind_eq_ok.mp h
  cases h
  exact ⟨w₁.disk, w₂.disk, makeDirectories_disk hmake, change_disk hmodule, change_disk hlibrary⟩

private theorem writeModule_library (h : writeModule c dir source w = .ok path w') :
    w'.disk.read (Path.join dir Library.fileName) = .ok Library.source := by
  obtain ⟨d₁, d₂, -, -, hwrite⟩ := writeModule_disk h
  exact Disk.read_write hwrite

private theorem writeModule_module (h : writeModule c dir source w = .ok path w')
    (hsource : Path.IsFile (moduleFile source))
    (hname : moduleName source ≠ Library.namespaceName) :
    w'.disk.read (Path.join dir (moduleFile source)) = .ok c.code := by
  obtain ⟨d₁, d₂, -, hwrite₁, hwrite₂⟩ := writeModule_disk h
  have hne : moduleFile source ≠ Library.fileName := fun he => hname (moduleFile_eq_library.mp he)
  exact Disk.read_write_of_ne isFile_library hsource hne hwrite₂ (Disk.read_write hwrite₁)

/-- The other files of the directory keep their content. -/
theorem writeModule_keeps (h : writeModule c dir source w = .ok path w')
    (hsource : Path.IsFile (moduleFile source)) {file text : Bytes} (hfile : Path.IsFile file)
    (hmodule : file ≠ moduleFile source) (hlibrary : file ≠ Library.fileName)
    (hread : w.disk.read (Path.join dir file) = .ok text) :
    w'.disk.read (Path.join dir file) = .ok text := by
  obtain ⟨d₁, d₂, hgrows, hwrite₁, hwrite₂⟩ := writeModule_disk h
  have hread₁ := Disk.read_write_of_ne hsource hfile hmodule hwrite₁ (hgrows.read hread)
  exact Disk.read_write_of_ne isFile_library hfile hlibrary hwrite₂ hread₁

theorem writeAll_cons {rest : List (Bytes × Compiled)}
    (h : writeAll o ((source, c) :: rest) w = .ok () w') :
    ∃ path w₁ w₂, writeModule c o.out source w = .ok path w₁ ∧ w₂.disk = w₁.disk ∧
      writeAll o rest w₂ = .ok () w' := by
  unfold writeAll at h
  obtain ⟨path, w₁, hmodule, h⟩ := run_bind_eq_ok.mp h
  dsimp only at h
  split at h
  · obtain ⟨_, w₂, hcalls, h⟩ := run_bind_eq_ok.mp h
    obtain ⟨_, w₃, hdone, h⟩ := run_bind_eq_ok.mp h
    exact ⟨path, w₁, w₃, hmodule, (report_disk hdone).trans (report_disk hcalls), h⟩
  · obtain ⟨_, w₂, hdone, h⟩ := run_bind_eq_ok.mp h
    exact ⟨path, w₁, w₂, hmodule, report_disk hdone, h⟩

theorem writeAll_library {pairs : List (Bytes × Compiled)} (h : writeAll o pairs w = .ok () w')
    (hbefore : pairs = [] →
      w.disk.read (Path.join o.out Library.fileName) = .ok Library.source) :
    w'.disk.read (Path.join o.out Library.fileName) = .ok Library.source := by
  induction pairs generalizing w with
  | nil =>
    cases h
    exact hbefore rfl
  | cons pair rest ih =>
    obtain ⟨path, w₁, w₂, hmodule, hdisk, hrest⟩ := writeAll_cons h
    apply ih hrest
    intro _
    rw [hdisk]
    exact writeModule_library hmodule

private theorem writeAll_keeps {pairs : List (Bytes × Compiled)}
    (h : writeAll o pairs w = .ok () w')
    (hpairs : ∀ pair ∈ pairs, Path.IsFile (moduleFile pair.1)) {file text : Bytes}
    (hfile : Path.IsFile file) (hmodules : ∀ pair ∈ pairs, file ≠ moduleFile pair.1)
    (hlibrary : file ≠ Library.fileName)
    (hread : w.disk.read (Path.join o.out file) = .ok text) :
    w'.disk.read (Path.join o.out file) = .ok text := by
  induction pairs generalizing w with
  | nil =>
    cases h
    exact hread
  | cons pair rest ih =>
    rw [List.forall_mem_cons] at hpairs hmodules
    obtain ⟨path, w₁, w₂, hmodule, hdisk, hrest⟩ := writeAll_cons h
    have hkept := writeModule_keeps hmodule hpairs.1 hfile hmodules.1 hlibrary hread
    rw [← hdisk] at hkept
    exact ih hrest hpairs.2 hmodules.2 hkept

/-- Modules with different names do not overwrite each other. -/
theorem writeAll_modules {pairs : List (Bytes × Compiled)} (h : writeAll o pairs w = .ok () w')
    (hpairs : ∀ pair ∈ pairs, Path.IsFile (moduleFile pair.1))
    (hnames : (pairs.map fun pair => moduleName pair.1).Nodup) :
    ∀ pair ∈ pairs, moduleName pair.1 ≠ Library.namespaceName →
      w'.disk.read (Path.join o.out (moduleFile pair.1)) = .ok pair.2.code := by
  induction pairs generalizing w with
  | nil => simp
  | cons pair rest ih =>
    rw [List.forall_mem_cons] at hpairs
    rw [List.map_cons, List.nodup_cons] at hnames
    obtain ⟨path, w₁, w₂, hmodule, hdisk, hrest⟩ := writeAll_cons h
    rw [List.forall_mem_cons]
    refine ⟨fun hname => ?_, ih hrest hpairs.2 hnames.2⟩
    have hwritten := writeModule_module hmodule hpairs.1 hname
    rw [← hdisk] at hwritten
    apply writeAll_keeps hrest hpairs.2 hpairs.1 _ _ hwritten
    · intro other hother hsame
      have hmem := List.mem_map_of_mem (f := fun pair => moduleName pair.1) hother
      rw [← moduleFile_inj.mp hsame] at hmem
      exact hnames.1 hmem
    · exact fun he => hname (moduleFile_eq_library.mp he)

end Command

/-- Sources that all compile are paired with what they are compiled to. -/
theorem zip_compiled {sources : List Bytes} (h : ∀ s ∈ sources, ∃ c, compileFile d s = .ok c) :
    (sources.zip (sources.filterMap fun s => (compileFile d s).toOption)).map Prod.fst = sources ∧
      ∀ pair ∈ sources.zip (sources.filterMap fun s => (compileFile d s).toOption),
        compileFile d pair.1 = .ok pair.2 := by
  induction sources with
  | nil => simp
  | cons source sources ih =>
    rw [List.forall_mem_cons] at h
    obtain ⟨⟨c, hc⟩, hrest⟩ := h
    obtain ⟨hfst, hall⟩ := ih hrest
    have hcons : ((source :: sources).filterMap fun s => (compileFile d s).toOption) =
        c :: sources.filterMap fun s => (compileFile d s).toOption := by
      rw [List.filterMap_cons, hc]
      rfl
    rw [hcons, List.zip_cons_cons, List.map_cons, hfst, List.forall_mem_cons]
    exact ⟨rfl, hc, hall⟩

theorem code_ne_library {content : Bytes} {c : Compiled} (h : compile content = .ok c) :
    c.code ≠ Library.source := by
  obtain ⟨-, hcode⟩ := compile_eq_ok.mp h
  obtain ⟨body, -, hbody⟩ := Program.code_eq_ok.mp hcode
  intro hsame
  have hhead : (Target.preamble ++ Target.Stmt.prints 0 body).head? = Library.source.head? := by
    rw [← hbody, hsame]
  -- A module begins with an import, the library with a comment.
  have hmodule : (Target.preamble ++ Target.Stmt.prints 0 body).head? = some 'i'.toUInt8 := rfl
  have hlibrary : Library.source.head? = some '/'.toUInt8 := rfl
  rw [hmodule, hlibrary] at hhead
  exact absurd hhead (by decide)

/-- A build that succeeds has compiled all its sources, under different names, and writes what they
are compiled to. -/
theorem Command.build_eq_ok {o : CommandLine.Options} {sources : List Bytes} {order : List Nat}
    {w w' : World} (horder : order.Perm (List.range sources.length))
    (h : build o sources order w = .ok () w') :
    ∃ pairs, pairs.map Prod.fst = sources ∧
      (∀ pair ∈ pairs, compileFile w.disk pair.1 = .ok pair.2) ∧
      (pairs.map fun pair => moduleName pair.1).Nodup ∧
      writeAll o pairs (announced o sources w) = .ok () w' := by
  rw [build_eq] at h
  split at h
  · cases h
  rename_i hcollision
  rw [Batch.reported?_compileAll horder, Batch.compiled_compileAll horder] at h
  split at h
  · cases h
  rename_i hnone
  have hall : ∀ s ∈ sources, ∃ c, compileFile w.disk s = .ok c := fun s hs =>
    Batch.failure?_eq_none.mp (List.findSome?_eq_none_iff.mp hnone s hs)
  obtain ⟨hfst, hpairs⟩ := zip_compiled hall
  refine ⟨_, hfst, hpairs, ?_, h⟩
  have hnodup := (collision?_eq_none hcollision).1
  rwa [← hfst, List.map_map] at hnodup

/-- A build that succeeds leaves the library in the output directory, and the code of each source in
the file of its module, unless that is the file of the library. -/
theorem build_writes_modules {o : CommandLine.Options} {sources : List Bytes} {order : List Nat}
    {w w' : World} (hsources : sources ≠ []) (horder : order.Perm (List.range sources.length))
    (h : Command.build o sources order w = .ok () w') :
    w'.disk.read (Path.join o.out Library.fileName) = .ok Library.source ∧
      ∀ source ∈ sources, ∃ content c, w.disk.read source = .ok content ∧
        compile content = .ok c ∧
        (w'.disk.read (modulePath o.out source) = .ok c.code ↔
          moduleName source ≠ Library.namespaceName) := by
  obtain ⟨pairs, rfl, hpairs, hnames, hwrite⟩ := Command.build_eq_ok horder h
  have hlibrary := Command.writeAll_library hwrite fun hnil => absurd (hnil ▸ rfl) hsources
  have hfiles : ∀ pair ∈ pairs, Path.IsFile (moduleFile pair.1) := fun pair hpair =>
    isFile_moduleFile (compileFile_eq_ok (hpairs pair hpair)).1
  refine ⟨hlibrary, fun source hsource => ?_⟩
  obtain ⟨⟨source, c⟩, hpair, rfl⟩ := List.mem_map.mp hsource
  obtain ⟨-, content, hread, hcompile⟩ := compileFile_eq_ok (hpairs _ hpair)
  refine ⟨content, c, hread, hcompile, ?_, Command.writeAll_modules hwrite hfiles hnames _ hpair⟩
  -- The file of the library cannot hold a module.
  intro hmodule hname
  have hfile : modulePath o.out source = Path.join o.out Library.fileName :=
    congrArg (Path.join o.out) (moduleFile_eq_library.mpr hname)
  rw [hfile, hlibrary] at hmodule
  exact code_ne_library hcompile (Except.ok.inj hmodule).symm

/-- Two sources, one of them named like the library. -/
def Disk.namesake : Disk where
  entries := [([Bytes.ofString "a.pipe"], .file "print(1)" false),
    ([Bytes.ofString "runtime.pipe"], .file "print(3)" false)]
  cwd := []

/-- What a command comes to, if it succeeds. -/
def Command.world? (m : Command Unit) (w : World) : Option World :=
  match m w with
  | .ok () w' => some w'
  | .error _ _ => none

theorem Command.eq_ok_of_world? {m : Command Unit} {w : World} (h : (m.world? w).isSome = true) :
    ∃ w', m w = .ok () w' := by
  unfold world? at h
  split at h
  · rename_i w' hrun
    exact ⟨w', hrun⟩
  · cases h

theorem build_writes_modules_bothSources :
    ∃ w', Command.build ⟨"out", false, false, "node", ⟨0⟩⟩ ["a.pipe", "runtime.pipe"] [1, 0]
        ⟨.namesake, [], [], []⟩ = .ok () w' ∧
      w'.disk.read "out/runtime.mjs" = .ok Library.source ∧
      ∃ content c, Disk.namesake.read "a.pipe" = .ok content ∧ compile content = .ok c ∧
        w'.disk.read "out/a.mjs" = .ok c.code := by
  obtain ⟨w', hrun⟩ := Command.eq_ok_of_world? (w := ⟨.namesake, [], [], []⟩)
    (m := Command.build ⟨"out", false, false, "node", ⟨0⟩⟩ ["a.pipe", "runtime.pipe"] [1, 0])
    (by decide +kernel)
  obtain ⟨hlibrary, hmodules⟩ := build_writes_modules (by simp) (by decide) hrun
  obtain ⟨content, c, hread, hcompile, hmodule⟩ := hmodules "a.pipe" (by simp)
  exact ⟨w', hrun, hlibrary, content, c, hread, hcompile, hmodule.mpr (by decide)⟩

/-- The module of a source named like the library is lost, though the build succeeds. -/
theorem build_loses_namesake :
    ∃ w' content c, Command.build ⟨"out", false, false, "node", ⟨0⟩⟩ ["runtime.pipe"] [0]
        ⟨.namesake, [], [], []⟩ = .ok () w' ∧
      Disk.namesake.read "runtime.pipe" = .ok content ∧ compile content = .ok c ∧
      w'.disk.read (modulePath "out" "runtime.pipe") ≠ .ok c.code := by
  obtain ⟨w', hrun⟩ := Command.eq_ok_of_world? (w := ⟨.namesake, [], [], []⟩)
    (m := Command.build ⟨"out", false, false, "node", ⟨0⟩⟩ ["runtime.pipe"] [0]) (by decide +kernel)
  obtain ⟨pairs, hfst, hpairs, -, hwrite⟩ := Command.build_eq_ok (by decide) hrun
  have hmem : Bytes.ofString "runtime.pipe" ∈ pairs.map Prod.fst := hfst ▸ List.mem_singleton_self _
  obtain ⟨⟨source, c⟩, hpair, rfl⟩ := List.mem_map.mp hmem
  obtain ⟨-, content, hread, hcompile⟩ := compileFile_eq_ok (hpairs _ hpair)
  have hlibrary := Command.writeAll_library hwrite fun hnil => absurd hpair (by simp [hnil])
  refine ⟨w', content, c, hrun, hread, hcompile, fun hmodule => ?_⟩
  have hfile : modulePath "out" "runtime.pipe" = Path.join "out" Library.fileName := by decide
  rw [hfile, hlibrary] at hmodule
  exact code_ne_library hcompile (Except.ok.inj hmodule).symm

end PipeCompiler
