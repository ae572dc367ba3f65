import PipeCompiler.Proofs.TextCuts
import PipeCompiler.Repl.Session

/-! The entries of a session.

Lines are gathered until they are an entry. The text gathered so far is empty only before the first
line, since an empty text is an entry already; so the lines of an entry are told by the line breaks
in it, also where some of them are empty, and no line is lost or read twice. -/
namespace PipeCompiler.Repl

/-- The text of some lines. -/
def joined (lines : List Bytes) : Bytes :=
  List.intercalate ['\n'.toUInt8] lines

/-- Lines that are no entry yet: they need more input, and are no command. -/
def IsOpen (lines : List Bytes) : Prop :=
  needsMore (joined lines) = true ∧ isCommand (joined lines) = false

/-- All that has been read when any of these lines ends is open. -/
def Unfinished (lines : List Bytes) : Prop :=
  ∀ read, read <+: lines → read ≠ [] → IsOpen read

/-- No line could be left out at the end: it is an entry, and what stands before each of its line
breaks is none. -/
structure IsMinimal (entry : Bytes) : Prop where
  ends : isCommand entry = true ∨ needsMore entry = false
  opens : ∀ read, read <+: Bytes.cutAt '\n' entry → read ≠ [] → read ≠ Bytes.cutAt '\n' entry →
    IsOpen read

/-- The entries that are read from some lines one after the other, and the lines behind them. -/
def entries (lines : List Bytes) : List Bytes × List Bytes :=
  match _h : readEntry [] lines with
  | none => ([], lines)
  | some (entry, rest) =>
    let (more, left) := entries rest
    (entry :: more, left)
termination_by lines.length
decreasing_by exact readEntry_length _h

section

variable {lines done : List Bytes} {line : Bytes}

private theorem isOpen_iff : IsOpen lines ↔ isEntry (joined lines) = false := by
  simp [IsOpen, isEntry, and_comm]

private theorem needsMore_nil : needsMore [] = false := by
  decide +kernel

theorem Unfinished.nil : Unfinished [] := by
  intro read hread hne
  exact absurd (List.prefix_nil.mp hread) hne

theorem Unfinished.joined_ne_nil (h : Unfinished done) (hne : done ≠ []) : joined done ≠ [] := by
  intro hempty
  have hopen := (h done (List.prefix_refl done) hne).1
  rw [hempty, needsMore_nil] at hopen
  cases hopen

theorem Unfinished.addLine (h : Unfinished done) (line : Bytes) :
    addLine (joined done) line = joined (done ++ [line]) := by
  cases done with
  | nil => simp [joined, Repl.addLine]
  | cons first done =>
    have hne : first :: done ≠ [] := by simp
    rw [Repl.addLine, if_neg (by simpa using h.joined_ne_nil hne), joined, joined,
      Bytes.intercalate_concat _ hne, List.append_assoc]
    rfl

theorem Unfinished.concat (h : Unfinished done) (hline : IsOpen (done ++ [line])) :
    Unfinished (done ++ [line]) := by
  intro read hread hne
  rcases List.prefix_concat_iff.mp hread with rfl | hread
  · exact hline
  · exact h read hread hne

end

/-- What can come of reading an entry of which some lines have been read: the lines end first, or
the entry ends with one of them. -/
theorem readEntry_cases {done : List Bytes} (h : Unfinished done) (lines : List Bytes) :
    (readEntry (joined done) lines = none ∧ Unfinished (done ++ lines)) ∨
    ∃ more last rest, lines = more ++ last :: rest ∧ Unfinished (done ++ more) ∧
      isEntry (joined (done ++ more ++ [last])) = true ∧
      readEntry (joined done) lines = some (joined (done ++ more ++ [last]), rest) := by
  induction lines generalizing done with
  | nil => exact .inl ⟨rfl, by rwa [List.append_nil]⟩
  | cons line lines ih =>
    rw [readEntry, h.addLine]
    by_cases hentry : isEntry (joined (done ++ [line])) = true
    · refine .inr ⟨[], line, lines, rfl, ?_, ?_, ?_⟩
      · rwa [List.append_nil]
      · rwa [List.append_nil]
      · rw [List.append_nil, if_pos hentry]
    · rw [if_neg hentry]
      have hopen := h.concat (isOpen_iff.mpr (Bool.eq_false_iff.mpr hentry))
      rcases ih hopen with ⟨hnone, hall⟩ | ⟨more, last, rest, rfl, hmore, hends, hsome⟩
      · exact .inl ⟨hnone, by rwa [List.append_assoc] at hall⟩
      · rw [List.append_assoc done] at hmore hends hsome
        exact .inr ⟨line :: more, last, rest, rfl, hmore, hends, hsome⟩

private theorem isMinimal_joined {more : List Bytes} {last : Bytes} (h : Unfinished more)
    (hends : isEntry (joined (more ++ [last])) = true)
    (hlines : Bytes.cutAt '\n' (joined (more ++ [last])) = more ++ [last]) :
    IsMinimal (joined (more ++ [last])) where
  ends := by simpa [isEntry] using hends
  opens := by
    rw [hlines]
    intro read hread hne hproper
    exact h read ((List.prefix_concat_iff.mp hread).resolve_left hproper) hne

/-- A session loses no line and repeats none. The lines of its entries, one entry after the other,
are the first lines of its input; the others are the beginning of one entry. No entry is longer than
it must be. -/
theorem entries_keep_lines {lines : List Bytes} (h : ∀ line ∈ lines, '\n'.toUInt8 ∉ line) :
    (entries lines).1.flatMap (Bytes.cutAt '\n') ++ (entries lines).2 = lines ∧
      (∀ entry ∈ (entries lines).1, IsMinimal entry) ∧
      readEntry [] (entries lines).2 = none ∧ Unfinished (entries lines).2 := by
  fun_induction entries lines with
  | case1 lines hnone =>
    rcases readEntry_cases .nil lines with ⟨-, hall⟩ | ⟨more, last, rest, -, -, -, hsome⟩
    · exact ⟨rfl, by simp, hnone, hall⟩
    · cases hnone.symm.trans hsome
  | case2 lines entry rest hsome more left hrest ih =>
    rw [hrest] at ih
    rcases readEntry_cases .nil lines with
      ⟨hnone, -⟩ | ⟨read, last, rest, rfl, hread, hends, hentry⟩
    · cases hsome.symm.trans hnone
    cases hsome.symm.trans hentry
    obtain ⟨hlines, hall, hleft⟩ := ih fun line hline => h line (by simp [hline])
    have hcut : Bytes.cutAt '\n' (joined ([] ++ read ++ [last])) = read ++ [last] := by
      refine Bytes.cutAt_intercalate (by simp) fun line hline => h line ?_
      rw [List.append_cons]
      exact List.mem_append_left rest hline
    refine ⟨?_, List.forall_mem_cons.mpr ⟨isMinimal_joined hread hends hcut, hall⟩, hleft⟩
    rw [List.flatMap_cons, hcut, List.append_assoc, hlines, List.append_assoc]
    rfl

/-- A command, an empty entry, a call with an empty line and a comment in it, another command, and
an array that is not closed. -/
def typedLines : List Bytes :=
  [":help", "", "f(", "", "// :", "1)", " :js", "[", "1,"]

theorem entries_keep_lines_typedLines :
    (∀ line ∈ typedLines, '\n'.toUInt8 ∉ line) ∧
      entries typedLines = ⟨[":help", "", "f(\n\n// :\n1)", " :js"], ["[", "1,"]⟩ ∧
      (∀ entry ∈ (entries typedLines).1, IsMinimal entry) ∧ Unfinished ["[", "1,"] := by
  have hbreaks : ∀ line ∈ typedLines, '\n'.toUInt8 ∉ line := by decide
  have hentries : entries typedLines = ⟨[":help", "", "f(\n\n// :\n1)", " :js"], ["[", "1,"]⟩ := by
    decide +kernel
  obtain ⟨-, hminimal, -, hleft⟩ := entries_keep_lines hbreaks
  rw [hentries] at hleft
  exact ⟨hbreaks, hentries, hminimal, hleft⟩

end PipeCompiler.Repl
