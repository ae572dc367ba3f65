import PipeCompiler.Proofs.NumberLiterals
import PipeCompiler.Proofs.Positions
import PipeCompiler.Proofs.TextCuts

/-! Reports show the line that they are about.

A report has five lines. The fourth is the line of the source text that the offset of the fault lies
on, and the caret in the fifth stands below the character there. -/
namespace PipeCompiler

namespace Bytes

/-- The line of a text that an offset lies on. A line break lies on the line that it ends. -/
def lineAt (s : Bytes) (offset : Nat) : Bytes :=
  lastLine (s.take offset) ++ (s.drop offset).takeWhile fun b : UInt8 => b != '\n'

variable {s t : Bytes}

private theorem lineBreak_notMem_takeWhile (t : Bytes) :
    '\n'.toUInt8 ∉ t.takeWhile fun b : UInt8 => b != '\n' := by
  intro hmem
  have hne := List.all_eq_true.mp List.all_takeWhile _ hmem
  simp at hne

/-- The first line, from a place on it. -/
theorem head?_lines (h : '\n'.toUInt8 ∉ s) (t : Bytes) :
    (lines (s ++ t)).head? = some (s ++ t.takeWhile fun b : UInt8 => b != '\n') := by
  have hsplit := List.takeWhile_append_dropWhile (p := fun b : UInt8 => b != '\n') (l := t)
  have hline : '\n'.toUInt8 ∉ s ++ t.takeWhile fun b : UInt8 => b != '\n' := by
    rw [List.mem_append, not_or]
    exact ⟨h, lineBreak_notMem_takeWhile t⟩
  have hhead := List.head?_dropWhile_not (fun b : UInt8 => b != '\n') t
  cases hrest : t.dropWhile fun b : UInt8 => b != '\n' with
  | nil =>
    rw [hrest, List.append_nil] at hsplit
    rw [hsplit] at hline ⊢
    rw [lines, cutAt_of_notMem hline]
    rfl
  | cons b rest =>
    rw [hrest] at hhead hsplit
    have hb : b = '\n'.toUInt8 := by simpa using hhead
    have hcut := cutAt_append_of_notMem hline rest
    rw [hb] at hsplit
    rw [List.append_assoc, hsplit] at hcut
    rw [lines, hcut]
    rfl

/-- As many lines come before a place as there are line breaks before it. -/
theorem lines_append_getElem? (s t : Bytes) :
    (lines (s ++ t))[s.count '\n'.toUInt8]? =
      some (lastLine s ++ t.takeWhile fun b : UInt8 => b != '\n') := by
  induction hn : s.length using Nat.strong_induction_on generalizing s with
  | _ n ih =>
    by_cases h : '\n'.toUInt8 ∈ s
    · obtain ⟨u, v, rfl, hu⟩ := List.eq_append_cons_of_mem h
      have hlt : v.length < n := by
        rw [← hn, List.length_append, List.length_cons]
        omega
      rw [List.append_assoc, List.cons_append, lines, cutAt_append_of_notMem hu, List.count_append,
        List.count_eq_zero.mpr hu, List.count_cons_self, Nat.zero_add, List.getElem?_cons_succ,
        lastLine_append]
      exact ih v.length hlt v rfl
    · rw [List.count_eq_zero.mpr h, lastLine_of_notMem h, ← List.head?_eq_getElem?]
      exact head?_lines h t

private theorem lines_getElem? (s : Bytes) (offset : Nat) :
    (lines s)[(s.take offset).count '\n'.toUInt8]? = some (lineAt s offset) := by
  have hlines := lines_append_getElem? (s.take offset) (s.drop offset)
  rwa [List.take_append_drop] at hlines

private theorem lastLine_suffix (s : Bytes) : s.lastLine <:+ s := by
  have hprefix := List.takeWhile_prefix (fun b : UInt8 => b != '\n') (l := s.reverse)
  rwa [← List.reverse_suffix, List.reverse_reverse] at hprefix

/-- A cut stays a seam when less of the text is left on either side. -/
theorem Seam.mono {u v : Bytes} (h : Seam s t) (hu : u <:+ s) (hv : v <+: t) : Seam u v := by
  obtain ⟨r, rfl⟩ := hu
  obtain ⟨w, rfl⟩ := hv
  cases u using List.reverseRecOn with
  | nil => exact .nil_left
  | append_singleton u b =>
    have hleft := h.left
    simpa [Seam, ← List.append_assoc] using hleft

private theorem notMem_dropTrailing {b c : UInt8} (h : b ∉ s) : b ∉ dropTrailing c s := by
  intro hmem
  rw [dropTrailing, List.mem_reverse] at hmem
  exact h (List.mem_reverse.mp ((List.dropWhile_suffix _).subset hmem))

theorem lineBreak_notMem_ofNat (n : Nat) : '\n'.toUInt8 ∉ ofNat n := by
  intro hmem
  have hdigit := isDigit_ofNat n _ hmem
  exact absurd hdigit (by decide)

private theorem lineBreak_notMem_ofInt (n : Int) : '\n'.toUInt8 ∉ ofInt n := by
  cases n with
  | ofNat n => exact lineBreak_notMem_ofNat n
  | negSucc n =>
    rw [ofInt, List.mem_cons, not_or]
    exact ⟨by decide, lineBreak_notMem_ofNat (n + 1)⟩

end Bytes

namespace Diagnostic

variable {d : Diagnostic} {offset : Nat}

/-- As many spaces as the line number has digits. -/
def gutter (d : Diagnostic) : Bytes :=
  List.replicate (Bytes.ofNat d.shownLine).length ' '.toUInt8

/-- The file name that a report shows. -/
def shownFile (d : Diagnostic) : Bytes :=
  if d.file.isEmpty then "<input>" else d.file

def reportLines (d : Diagnostic) : List Bytes :=
  ["error: " ++ d.message,
    d.gutter ++ "--> " ++ d.shownFile ++ ":" ++ Bytes.ofInt d.pos.line ++ ":" ++
      Bytes.ofInt d.pos.column,
    d.gutter ++ " |",
    Bytes.ofNat d.shownLine ++ " | " ++ d.shownText,
    d.gutter ++ " | " ++ List.replicate d.caretOffset ' '.toUInt8 ++ "^ " ++ d.message,
    []]

private theorem render_eq (d : Diagnostic) :
    d.render = List.intercalate ['\n'.toUInt8] d.reportLines := by
  have hbreak : Bytes.ofString "\n" = ['\n'.toUInt8] := rfl
  have hbar : Bytes.ofString " |\n" = Bytes.ofString " |" ++ ['\n'.toUInt8] := by decide
  unfold render reportLines gutter shownFile
  dsimp only
  rw [hbreak, hbar]
  simp only [List.intercalate_cons_cons, List.intercalate_singleton, List.append_assoc,
    List.append_nil]

private theorem lineBreak_notMem_shownText (d : Diagnostic) : '\n'.toUInt8 ∉ d.shownText := by
  apply Bytes.notMem_dropTrailing
  cases hline : (Bytes.lines d.source)[d.shownLine - 1]? with
  | none => exact List.not_mem_nil
  | some line => exact Bytes.notMem_of_mem_cutAt (List.mem_of_getElem? hline)

/-- A message and a file name without line breaks leave the report its five lines. -/
theorem lines_render (hm : '\n'.toUInt8 ∉ d.message) (hf : '\n'.toUInt8 ∉ d.file) :
    Bytes.lines d.render = d.reportLines := by
  rw [render_eq, Bytes.lines]
  have hspaces (n : Nat) : '\n'.toUInt8 ∉ List.replicate n ' '.toUInt8 := by
    intro hmem
    exact absurd (List.eq_of_mem_replicate hmem) (by decide)
  have hfile : '\n'.toUInt8 ∉ d.shownFile := by
    unfold shownFile
    split
    · decide
    · exact hf
  have hfixed : ∀ text ∈ ["error: ", "--> ", ":", " |", " | ", "^ "].map Bytes.ofString,
      '\n'.toUInt8 ∉ text := by decide
  simp only [List.map_cons, List.map_nil, List.forall_mem_cons] at hfixed
  apply Bytes.cutAt_intercalate (by simp [reportLines])
  simp [reportLines, gutter, hm, hfile, hspaces, hfixed, Bytes.lineBreak_notMem_ofInt,
    Bytes.lineBreak_notMem_ofNat, lineBreak_notMem_shownText]

private theorem shownLine_of_behind (h : d.pos = .behind (d.source.take offset)) :
    d.shownLine = 1 + (d.source.take offset).count '\n'.toUInt8 := by
  have hcount := (List.take_sublist offset d.source).count_le '\n'.toUInt8
  have hline : d.pos.line = 1 + (d.source.take offset).count '\n'.toUInt8 := by
    rw [h]
    rfl
  rw [shownLine, Bytes.lines, Bytes.length_cutAt, hline]
  omega

/-- A report on an offset shows the line that the offset lies on, and its caret below the character
there. -/
theorem lines_render_behind (h : d.pos = .behind (d.source.take offset))
    (hm : '\n'.toUInt8 ∉ d.message) (hf : d.file = []) :
    (Bytes.lines d.render)[3]? = some (Bytes.ofInt d.pos.line ++ " | " ++
      Bytes.dropTrailing '\r' (d.source.lineAt offset)) ∧
    (Bytes.lines d.render)[4]? = some (List.replicate (Bytes.ofInt d.pos.line).length ' '.toUInt8 ++
      " | " ++ List.replicate (d.pos.column - 1).toNat ' '.toUInt8 ++ "^ " ++ d.message) := by
  have hshown := shownLine_of_behind h
  have hnumber : Bytes.ofInt d.pos.line = Bytes.ofNat d.shownLine := by
    have hline : d.pos.line = Int.ofNat d.shownLine := by
      rw [hshown, h]
      rfl
    rw [hline]
    rfl
  have htext : d.shownText = Bytes.dropTrailing '\r' (d.source.lineAt offset) := by
    rw [shownText, hshown, Nat.add_sub_cancel_left, Bytes.lines_getElem?]
    rfl
  have hcaret : d.caretOffset = (d.pos.column - 1).toNat := by
    have hcolumn : 1 ≤ d.pos.column := by
      rw [h, Position.behind]
      exact Int.le_add_of_nonneg_right (Int.natCast_nonneg _)
    rw [caretOffset]
    omega
  rw [lines_render hm (by simp [hf]), hnumber, ← htext, ← hcaret]
  exact ⟨rfl, rfl⟩

end Diagnostic

/-- The column of a place in a text goes no further than one behind the characters of its line. -/
theorem Position.column_behind_le {s : Bytes} {offset : Nat}
    (h : Bytes.Seam (s.take offset) (s.drop offset)) :
    (behind (s.take offset)).column - 1 ≤ (glyphs (s.lineAt offset)).length := by
  have hseam : Bytes.Seam (Bytes.lastLine (s.take offset))
      ((s.drop offset).takeWhile fun b : UInt8 => b != '\n') :=
    h.mono (Bytes.lastLine_suffix _) (List.takeWhile_prefix _)
  have hglyphs := glyphs_append hseam
  rw [Bytes.lineAt, hglyphs, List.length_append, behind]
  simp only
  omega

end PipeCompiler
