import PipeCompiler.Command.Scaffold
import PipeCompiler.Proofs.BuildOutputs

/-! Projects in a directory that is not empty.

Whether a file of a project is there already is only looked up before that file is written. If one
of them is there, those before it have been written by then, and they remain. -/
namespace PipeCompiler

open Scaffold (File)

namespace Scaffold

/-- The name of a project in the given directory, or else in the current one. -/
def projectName (d : Disk) : Option Bytes → Bytes
  | some directory => Path.base directory
  | none => d.cwd.getLast?.getD "/"

/-- A file of a project as an entry of the directory. -/
def File.entry (directory : Location) (project : Bytes) (file : File) : Location × Entry :=
  (directory ++ [file.name], .file (file.text project) false)

/-- The disk with files of a project added to the current directory. -/
def File.add (d : Disk) (project : Bytes) (files : List File) : Disk :=
  { d with entries := d.entries ++ files.map (File.entry d.cwd project) }

namespace File

variable {d d' : Disk} {project : Bytes} {file other : File}

theorem isFile_name (file : File) : Path.IsFile file.name := by
  cases file <;> exact ⟨by decide, by decide, by decide, by decide⟩

private theorem name_ne (h : other ≠ file) : other.name ≠ file.name := by
  revert h
  cases other <;> cases file <;> decide

theorem join_name (file : File) : Path.join "." file.name = file.name := by
  cases file <;> decide

theorem add_nil (d : Disk) (project : Bytes) : add d project [] = d := by
  rw [add, List.map_nil, List.append_nil]

theorem add_cons (d : Disk) (project : Bytes) (file : File) (files : List File) :
    add d project (file :: files) = add (add d project [file]) project files := by
  simp [add]

theorem add_eq_self_iff {files : List File} : add d project files = d ↔ files = [] := by
  constructor
  · intro h
    have hentries := congrArg Disk.entries h
    simpa [add] using hentries
  · rintro rfl
    exact add_nil d project

theorem has_write_name (hne : other ≠ file)
    (h : d.write file.name (file.text project) = .ok d') :
    d'.has other.name = d.has other.name := by
  rw [← join_name file] at h
  rw [← join_name other]
  exact Disk.has_write_of_ne file.isFile_name other.isFile_name (name_ne hne) h

theorem write_name (hnew : d.has file.name = false)
    (h : d.write file.name (file.text project) = .ok d') : d' = add d project [file] := by
  obtain ⟨l, hl, rfl⟩ := Disk.write_of_has_eq_false hnew h
  rw [← join_name file] at hl
  obtain ⟨k, hk, rfl⟩ := Disk.locate_join file.isFile_name hl
  -- A path that begins in the current directory and has no names left leads to it.
  cases hk
  rfl

end File
end Scaffold

namespace Command

variable {o : CommandLine.Options} {w w' : World} {project path : Bytes}

private theorem report_ne_error {line : Bytes} {e : Failure} : report o line w ≠ .error e w' := by
  intro h
  unfold report at h
  split at h <;> cases h

/-- Only the disk gives a reason to fail. -/
theorem change_eq_error {f : Disk → Except FileError Disk} {e : Failure}
    (h : change f w = .error e w') : ∃ fault, e = .file fault := by
  obtain hget | ⟨w₁, w₂, hget, h⟩ := run_bind_eq_error.mp h
  · cases hget
  cases hget
  cases hf : f w.disk with
  | error fault =>
    rw [hf] at h
    cases h
    exact ⟨fault, rfl⟩
  | ok disk =>
    rw [hf] at h
    cases h

private theorem writeFiles_cons (file : File) (files : List File) :
    writeFiles "." project (file :: files) w =
      if w.disk.has file.name then .error (.fileExists file.name) w
      else (do
        change (·.write file.name (file.text project))
        writeFiles "." project files : Command Unit) w := by
  rw [writeFiles, File.join_name]
  refine (run_bind_of_ok (show (get : Command World) w = .ok w w from rfl)).trans ?_
  dsimp only
  split <;> rfl

/-- What has happened when a file of the project turns out to be there. -/
theorem writeFiles_fileExists {files : List File} (hfiles : files.Nodup)
    (h : writeFiles "." project files w = .error (.fileExists path) w') :
    ∃ written file rest, files = written ++ file :: rest ∧ path = file.name ∧
      w.disk.has file.name = true ∧ (∀ f ∈ written, w.disk.has f.name = false) ∧
      w'.disk = File.add w.disk project written := by
  induction files generalizing w with
  | nil => cases h
  | cons first files ih =>
    rw [writeFiles_cons] at h
    split at h
    · rename_i hhas
      cases h
      exact ⟨[], first, files, rfl, rfl, hhas, by simp, (File.add_nil _ _).symm⟩
    · rename_i hnew
      have hnew := Bool.eq_false_iff.mpr hnew
      obtain ⟨hnotMem, hrest⟩ := List.nodup_cons.mp hfiles
      obtain hchange | ⟨_, w₁, hchange, h⟩ := run_bind_eq_error.mp h
      · obtain ⟨fault, hfault⟩ := change_eq_error hchange
        cases hfault
      have hwrite := change_disk hchange
      -- The files behind the first one are there now if they were there before it was written.
      have hsame {f : File} (hf : f ∈ files) : w₁.disk.has f.name = w.disk.has f.name :=
        File.has_write_name (ne_of_mem_of_not_mem hf hnotMem) hwrite
      obtain ⟨written, file, rest, rfl, rfl, hhas, hnone, hdisk⟩ := ih hrest h
      refine ⟨first :: written, file, rest, rfl, rfl, ?_, ?_, ?_⟩
      · rw [← hsame (by simp)]
        exact hhas
      · refine List.forall_mem_cons.mpr ⟨hnew, fun f hf => ?_⟩
        rw [← hsame (List.mem_append_left _ hf)]
        exact hnone f hf
      · rw [hdisk, File.write_name hnew hwrite, ← File.add_cons]

private theorem init_here {directory? : Option Bytes} (h : directory?.getD "." = ".")
    (o : CommandLine.Options) (order : List File) (w : World) :
    init o directory? order w = (do
      report o ("↪ scaffolding new project " ++
        Quoted.text (Scaffold.projectName w.disk directory?) ++ " ...")
      writeFiles "." (Scaffold.projectName w.disk directory?) order
      report o ("✓ project " ++ Quoted.text (Scaffold.projectName w.disk directory?) ++
        " initialized!") : Command Unit) w := by
  cases directory? with
  | none => rfl
  | some directory =>
    have hdot : directory = "." := h
    rw [hdot]
    rfl

end Command

/-- Making a project in the current directory stops at the first file, in the order in which they
are written, that is there. The files before it stay behind, and all else is as it was: so nothing
has changed exactly if the very first of them was there. -/
theorem init_leaves_earlier_files {o : CommandLine.Options} {directory? : Option Bytes}
    {order : List File} {w w' : World} {path : Bytes} (hhere : directory?.getD "." = ".")
    (horder : order.Nodup) (h : Command.init o directory? order w = .error (.fileExists path) w') :
    ∃ written file rest, order = written ++ file :: rest ∧ path = file.name ∧
      w.disk.has file.name = true ∧ (∀ f ∈ written, w.disk.has f.name = false) ∧
      w'.disk = File.add w.disk (Scaffold.projectName w.disk directory?) written ∧
      (w'.disk = w.disk ↔ ∀ f ∈ order.head?, w.disk.has f.name = true) := by
  rw [Command.init_here hhere] at h
  obtain hreport | ⟨_, w₁, hreport, h⟩ := run_bind_eq_error.mp h
  · exact absurd hreport Command.report_ne_error
  obtain hfiles | ⟨_, w₂, _, hlast⟩ := run_bind_eq_error.mp h
  · obtain ⟨written, file, rest, rfl, rfl, hhas, hnone, hdisk⟩ :=
      Command.writeFiles_fileExists horder hfiles
    rw [Command.report_disk hreport] at hhas hnone hdisk
    refine ⟨written, file, rest, rfl, rfl, hhas, hnone, hdisk, ?_⟩
    rw [hdisk, File.add_eq_self_iff]
    cases written with
    | nil => simpa using hhas
    | cons first written => simp [hnone first List.mem_cons_self]
  · exact absurd hlast Command.report_ne_error

/-- The file that is in the way of a command, and the disk that it leaves. -/
def Command.obstacle? (m : Command Unit) (w : World) : Option (Bytes × Disk) :=
  match m w with
  | .error (.fileExists path) w' => some (path, w'.disk)
  | _ => none

theorem Command.eq_error_of_obstacle? {m : Command Unit} {w : World} {path : Bytes} {d : Disk}
    (h : m.obstacle? w = some (path, d)) :
    ∃ w', m w = .error (.fileExists path) w' ∧ w'.disk = d := by
  unfold obstacle? at h
  split at h
  · rename_i path' w' hrun
    cases h
    exact ⟨w', hrun, rfl⟩
  · cases h

/-- A directory in which one of the files of a project is there. -/
def Disk.ignoring : Disk where
  entries := [([Bytes.ofString "work"], .directory),
    ([Bytes.ofString "work", Bytes.ofString ".gitignore"], .file "x" false)]
  cwd := [Bytes.ofString "work"]

/-- Nothing changes if that file comes first. -/
theorem init_leaves_earlier_files_ignoring :
    ∃ w', Command.init ⟨"out", false, false, "node", ⟨0⟩⟩ none [.ignore, .main]
        ⟨.ignoring, [], [], []⟩ = .error (.fileExists ".gitignore") w' ∧ w'.disk = .ignoring := by
  have hfails : (Command.init ⟨"out", false, false, "node", ⟨0⟩⟩ none [.ignore, .main]).obstacle?
      ⟨.ignoring, [], [], []⟩ = some ⟨".gitignore", .ignoring⟩ := by decide +kernel
  obtain ⟨w', hrun, -⟩ := Command.eq_error_of_obstacle? hfails
  obtain ⟨_, _, _, -, -, -, -, -, hsame⟩ := init_leaves_earlier_files rfl (by decide) hrun
  exact ⟨w', hrun, hsame.mpr (by decide +kernel)⟩

/-- If it comes last, the first program of the project is left behind. -/
theorem init_leaves_program :
    ∃ w', Command.init ⟨"out", false, false, "node", ⟨0⟩⟩ none [.main, .ignore]
        ⟨.ignoring, [], [], []⟩ = .error (.fileExists ".gitignore") w' ∧
      w'.disk = File.add .ignoring "work" [.main] ∧ w'.disk ≠ .ignoring := by
  have hfails : (Command.init ⟨"out", false, false, "node", ⟨0⟩⟩ none [.main, .ignore]).obstacle?
      ⟨.ignoring, [], [], []⟩ = some ⟨".gitignore", File.add .ignoring "work" [.main]⟩ := by
    decide +kernel
  obtain ⟨w', hrun, hdisk⟩ := Command.eq_error_of_obstacle? hfails
  refine ⟨w', hrun, hdisk, ?_⟩
  rw [hdisk, ne_eq, File.add_eq_self_iff]
  simp

end PipeCompiler
