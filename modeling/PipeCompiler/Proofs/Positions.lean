import Mathlib.Data.List.TakeWhile
import PipeCompiler.Diagnostic
import PipeCompiler.Proofs.Decoding
import PipeCompiler.Proofs.LosslessLexing

/-! Where tokens are.

The position of a place in a source text can be computed from the bytes before it: one line more
than there are line breaks, and one column more than there are characters behind the last of them.
The lexer keeps its position up to date step by step instead. Both agree whatever is asked of it,
and every token and every fault is reported where its text begins. -/
namespace PipeCompiler

namespace Bytes

/-- What follows the last line break. -/
def lastLine (s : Bytes) : Bytes :=
  (s.reverse.takeWhile fun b : UInt8 => b != '\n').reverse

theorem lastLine_of_notMem {s : Bytes} (h : '\n'.toUInt8 ∉ s) : s.lastLine = s := by
  have hall : ∀ b ∈ s.reverse, (b != '\n'.toUInt8) = true := by
    intro b hb
    have hne : b ≠ '\n' := fun he => h (he ▸ List.mem_reverse.mp hb)
    simpa using hne
  rw [lastLine, List.takeWhile_eq_self_iff.mpr hall, List.reverse_reverse]

theorem lastLine_append (s t : Bytes) : lastLine (s ++ '\n'.toUInt8 :: t) = lastLine t := by
  have hbreak : (['\n'.toUInt8] ++ s.reverse).takeWhile (fun b : UInt8 => b != '\n') = [] := by
    simp
  rw [lastLine, lastLine, List.reverse_append, List.reverse_cons, List.append_assoc,
    List.takeWhile_append, hbreak, List.append_nil]
  split
  · rename_i hall
    rw [(List.takeWhile_prefix _).eq_of_length hall]
  · rfl

end Bytes

namespace Position

/-- The position behind a text. -/
def behind (text : Bytes) : Position :=
  ⟨1 + text.count '\n'.toUInt8, 1 + (glyphs text.lastLine).length⟩

theorem advance_append {s t : Bytes} (h : Bytes.Seam s t) (pos : Position) :
    pos.advance (s ++ t) = (pos.advance s).advance t := by
  rw [advance, advance, advance, glyphs_append h, List.foldl_append]

theorem advance_lineBreak (pos : Position) (s : Bytes) :
    pos.advance ('\n'.toUInt8 :: s) = advance ⟨pos.line + 1, 1⟩ s := by
  rw [advance, glyphs_ascii (by decide)]
  rfl

private theorem foldl_step {gs : List Glyph} (h : .char '\n' ∉ gs) (pos : Position) :
    gs.foldl step pos = ⟨pos.line, pos.column + gs.length⟩ := by
  induction gs generalizing pos with
  | nil => simp
  | cons g gs ih =>
    have hg : g ≠ .char '\n' := fun he => h (by simp [he])
    rw [List.foldl_cons, ih fun hmem => h (List.mem_cons_of_mem g hmem), step, if_neg hg]
    simp only [List.length_cons, Position.mk.injEq, true_and]
    omega

private theorem advance_of_notMem {s : Bytes} (h : '\n'.toUInt8 ∉ s) (pos : Position) :
    pos.advance s = ⟨pos.line, pos.column + (glyphs s).length⟩ :=
  foldl_step (lineBreak_notMem_glyphs h) pos

private theorem advance_eq (pos : Position) (s : Bytes) :
    pos.advance s = ⟨pos.line + s.count '\n'.toUInt8,
      (if '\n'.toUInt8 ∈ s then 1 else pos.column) + (glyphs s.lastLine).length⟩ := by
  induction hn : s.length using Nat.strong_induction_on generalizing pos s with
  | _ n ih =>
    by_cases h : '\n'.toUInt8 ∈ s
    · obtain ⟨t, u, rfl, ht⟩ := List.eq_append_cons_of_mem h
      have hseam : Bytes.Seam t ('\n'.toUInt8 :: u) := .of_head (by decide)
      have hlt : u.length < n := by
        rw [← hn, List.length_append, List.length_cons]
        omega
      have hcount : (t ++ '\n'.toUInt8 :: u).count '\n'.toUInt8 = u.count '\n'.toUInt8 + 1 := by
        rw [List.count_append, List.count_eq_zero.mpr ht, List.count_cons_self, Nat.zero_add]
      rw [advance_append hseam, advance_of_notMem ht, advance_lineBreak, ih u.length hlt _ u rfl,
        hcount, if_pos h, Bytes.lastLine_append]
      simp only [ite_self, Position.mk.injEq, and_true]
      omega
    · rw [advance_of_notMem h, Bytes.lastLine_of_notMem h, List.count_eq_zero.mpr h, if_neg h]
      simp

/-- Advancing over a whole text leads to the position behind it. -/
theorem advance_start (s : Bytes) : Position.start.advance s = behind s := by
  rw [advance_eq, start, behind]
  simp

end Position

namespace Lexeme

private theorem isGap_ascii {b : UInt8} (h : isGap b = true) : b < 0x80 := by
  have hmem := mem_of_isGap h
  simp only [List.mem_cons, List.not_mem_nil, or_false] at hmem
  rcases hmem with rfl | rfl | rfl <;> decide

theorem isDigit_ascii {b : UInt8} (h : isDigit b = true) : b < 0x80 := by
  simp only [isDigit, Bool.and_eq_true, decide_eq_true_eq] at h
  exact UInt8.lt_of_le_of_lt h.2 (by decide)

theorem isLetter_ascii {b : UInt8} (h : isLetter b = true) : b < 0x80 := by
  simp only [isLetter, Bool.or_eq_true, Bool.and_eq_true, decide_eq_true_eq, beq_iff_eq] at h
  rcases h with (h | h) | rfl
  · exact UInt8.lt_of_le_of_lt h.2 (by decide)
  · exact UInt8.lt_of_le_of_lt h.2 (by decide)
  · decide

private theorem isNamePart_ascii {b : UInt8} (h : isNamePart b = true) : b < 0x80 := by
  rcases Bool.or_eq_true _ _ ▸ h with h | h
  · exact isLetter_ascii h
  · exact isDigit_ascii h

private theorem isQuote_ascii {b : UInt8} (h : isQuote b = true) : b < 0x80 := by
  simp only [isQuote, Bool.or_eq_true, beq_iff_eq] at h
  rcases h with rfl | rfl <;> decide

theorem takeWhile_ascii {p : UInt8 → Bool} (hp : ∀ b, p b = true → b < 0x80) (s : Bytes) :
    ∀ b ∈ s.takeWhile p, b < 0x80 := by
  intro b hb
  exact hp b (List.all_eq_true.mp List.all_takeWhile b hb)

theorem gap_seam (s : Bytes) : Bytes.Seam (gap s).1 (gap s).2 := by
  simp only [gap]
  split
  · -- A comment is followed by a line break, if by anything.
    have hhead := List.head?_dropWhile_not (!isLineBreak ·) (s.dropWhile isGap)
    intro b _ c hc
    rw [Option.mem_def.mp hc] at hhead
    have hline : c = '\n' := by simpa [isLineBreak] using hhead
    exact .inr (by rw [hline]; decide)
  · exact .of_forall (takeWhile_ascii (fun _ => isGap_ascii) s)

private theorem string?_closed {quote : UInt8} {s value text rest : Bytes}
    (h : string? quote s = some (value, text, rest)) : ∃ body, text = body ++ [quote] := by
  fun_induction string? quote s generalizing value text rest with
  | case1 => cases h
  | case2 b s hb =>
    cases h
    exact ⟨[], by simpa using hb⟩
  | case3 => cases h
  | case4 b hq hb e s ih =>
    simp only [Option.map_eq_some_iff, Prod.exists, Prod.mk.injEq] at h
    obtain ⟨v, t, r, hr, -, rfl, rfl⟩ := h
    obtain ⟨body, rfl⟩ := ih hr
    exact ⟨b :: e :: body, rfl⟩
  | case5 b s hq hb ih =>
    simp only [Option.map_eq_some_iff, Prod.exists, Prod.mk.injEq] at h
    obtain ⟨v, t, r, hr, -, rfl, rfl⟩ := h
    obtain ⟨body, rfl⟩ := ih hr
    exact ⟨b :: body, rfl⟩

private theorem number_ascii (s : Bytes) : ∀ b ∈ (number s).1, b < 0x80 := by
  have hdigits := takeWhile_ascii fun _ => isDigit_ascii
  unfold number
  split
  · split
    · rename_i point digit t _ hp
      simp only [Bool.and_eq_true, beq_iff_eq] at hp
      have hpoint : point < 0x80 := by rw [hp.1]; decide
      simp only [List.forall_mem_append, List.forall_mem_cons]
      exact ⟨hdigits s, hpoint, isDigit_ascii hp.2, hdigits t⟩
    · exact hdigits s
  · exact hdigits s

theorem operator?_ascii {s text : Bytes} {kind : Token.Kind} {rest : Bytes}
    (h : Token.Kind.operator? s = some (text, kind, rest)) :
    (∀ b ∈ text, b < 0x80) ∧ kind ≠ .string := by
  have hops : ∀ op ∈ Token.Kind.operators,
      (∀ b ∈ Bytes.ofString op.1, b < 0x80) ∧ op.2 ≠ .string := by decide +kernel
  obtain ⟨⟨op, k⟩, hmem, hop⟩ := List.exists_of_findSome?_eq_some h
  simp only [Option.map_eq_some_iff, Prod.mk.injEq] at hop
  obtain ⟨r, -, rfl, rfl, rfl⟩ := hop
  exact hops _ hmem

private theorem ofName_ne_string (name : Bytes) : Token.Kind.ofName name ≠ .string := by
  have hwords : ∀ w ∈ Token.Kind.words, w.2 ≠ .string := by decide
  unfold Token.Kind.ofName
  split
  · rename_i hfind
    exact hwords _ (List.mem_of_find?_eq_some hfind)
  · simp

/-- Every lexeme ends with an ASCII byte. -/
theorem scan_seam {b : UInt8} {s : Bytes} {x : Lexeme} {rest : Bytes}
    (h : scan b s = .ok (x, rest)) : Bytes.Seam x.text rest := by
  unfold scan at h
  split at h
  · rename_i hb
    have hline : b = '\n' := by simpa [isLineBreak] using hb
    cases h
    exact .of_forall (by rw [hline]; decide +kernel)
  split at h
  · rename_i hq
    split at h
    · rename_i value text rest hs
      cases h
      obtain ⟨body, rfl⟩ := string?_closed hs
      exact .of_getLast (s := b :: body) (isQuote_ascii hq)
    · cases h
  split at h
  · rename_i hl
    cases h
    refine .of_forall ?_
    rw [List.forall_mem_cons]
    exact ⟨isLetter_ascii hl, takeWhile_ascii (fun _ => isNamePart_ascii) s⟩
  split at h
  · cases h
    exact .of_forall (number_ascii _)
  · split at h
    · rename_i ho
      cases h
      exact .of_forall (operator?_ascii ho).1
    · cases h

/-- Only what begins with a quote is a string. -/
theorem scan_string {b : UInt8} {s : Bytes} {x : Lexeme} {rest : Bytes}
    (h : scan b s = .ok (x, rest)) (hk : x.kind = .string) :
    isQuote b = true ∧ ∃ body, x.text = b :: body := by
  unfold scan at h
  split at h
  · cases h
    cases hk
  split at h
  · rename_i hq
    split at h
    · cases h
      exact ⟨hq, _, rfl⟩
    · cases h
  split at h
  · cases h
    exact absurd hk (ofName_ne_string _)
  split at h
  · cases h
    cases hk
  · split at h
    · rename_i ho
      cases h
      exact absurd hk (operator?_ascii ho).2
    · cases h

private theorem scan_error {b : UInt8} {s : Bytes} {fault : Fault} (h : scan b s = .error fault) :
    match fault with
    | .unexpected g => g = Glyph.first b s
    | .unterminated => isQuote b = true ∧ string? b s = none := by
  unfold scan at h
  split at h
  · cases h
  split at h
  · rename_i hq
    split at h
    · cases h
    · rename_i hs
      cases h
      exact ⟨hq, hs⟩
  split at h
  · cases h
  split at h
  · cases h
  · split at h
    · cases h
    · cases h
      rfl

end Lexeme

namespace Cursor

/-- The byte that is read next, or zero where nothing is left. -/
def byte (c : Cursor) : UInt8 :=
  c.rest.headD 0

/-- What can be asked of a lexer: the next token, or to begin again. -/
inductive Request
  | next
  | restart
deriving DecidableEq, Repr

def serve (source : Bytes) (c : Cursor) : Request → Cursor
  | .next => c.next.2
  | .restart => start source

/-- The place that a lexer comes to. -/
def after (source : Bytes) (requests : List Request) : Cursor :=
  requests.foldl (serve source) (start source)

/-- A cursor behind the text `done`, where `source` can be cut. -/
structure Behind (source done : Bytes) (c : Cursor) : Prop where
  append : done ++ c.rest = source
  seam : Bytes.Seam done c.rest
  pos : c.pos = .behind done

theorem behind_start (source : Bytes) : (start source).Behind source [] :=
  ⟨rfl, .nil_left, (Position.advance_start []).symm ▸ by simp [start, Position.advance, glyphs]⟩

variable {source done : Bytes} {c : Cursor}

/-- A cursor that reads up to the next seam is behind what it has read. -/
theorem Behind.move (h : c.Behind source done) {text rest : Bytes} (hrest : text ++ rest = c.rest)
    (hseam : Bytes.Seam text rest) :
    Behind source (done ++ text) ⟨rest, c.pos.advance text⟩ := by
  have hs := h.seam
  rw [← hrest] at hs
  refine ⟨?_, hs.append hseam, ?_⟩
  · rw [List.append_assoc, hrest, h.append]
  · rw [h.pos, ← Position.advance_start, ← Position.advance_start,
      Position.advance_append hs.left]

/-- What is told of the text `s`, in which the next token is looked for. A token begins with it and
a fault is about its first character; both are reported at the position `pos`. -/
def Tells (source : Bytes) (pos : Position) (s : Bytes) : Except LexicalError Token × Cursor → Prop
  | (.ok tok, after) =>
    tok.pos = pos ∧ s = tok.text ++ after.rest ∧ (tok.kind = .eof ↔ s = []) ∧
      (tok.kind = .string → ∃ quote body, Lexeme.isQuote quote = true ∧ tok.text = quote :: body)
  | (.error e, _) => (e.diagnostic source).pos = pos ∧ ∃ b t, s = b :: t ∧
    match e.fault with
    | .unexpected g => g = Glyph.first b t
    | .unterminated => Lexeme.isQuote b = true ∧ Lexeme.string? b t = none

/-- Reading a token skips a gap, tells of what follows it at the position behind the gap, and leaves
the cursor at a seam again. -/
theorem Behind.next (h : c.Behind source done) :
    ∃ gap s, gap ++ s = c.rest ∧
      Lexeme.IsGap (∀ b t, s = b :: t → Lexeme.isLineBreak b = true) gap ∧
      Tells source (.behind (done ++ gap)) s c.next ∧ ∃ done', c.next.2.Behind source done' := by
  have happend := Lexeme.gap_append c.rest
  have hgap := h.move happend (Lexeme.gap_seam c.rest)
  have hpos : c.pos.advance (Lexeme.gap c.rest).1 = .behind _ := hgap.pos
  refine ⟨_, _, happend, Lexeme.isGap_gap c.rest, ?_⟩
  rw [← hpos]
  unfold Cursor.next step
  dsimp only
  cases hs : (Lexeme.gap c.rest).2 with
  | nil =>
    rw [hs] at hgap
    exact ⟨⟨rfl, rfl, by simp, nofun⟩, _, hgap⟩
  | cons b t =>
    rw [hs] at hgap
    dsimp only
    cases hx : Lexeme.scan b t with
    | ok r =>
      obtain ⟨x, rest⟩ := r
      have hcut := Lexeme.scan_cut hx
      have hseam := Lexeme.scan_seam hx
      have htext := hcut.token_text (c.pos.advance (Lexeme.gap c.rest).1)
      refine ⟨⟨rfl, ?_, ?_, ?_⟩, _, hgap.move hcut.append hseam⟩
      · rw [htext]
        exact hcut.append.symm
      · exact iff_of_false hcut.kind (by simp)
      · intro hk
        obtain ⟨hquote, body, hbody⟩ := Lexeme.scan_string hx hk
        exact ⟨b, body, hquote, htext.trans hbody⟩
    | error fault =>
      have herror := Lexeme.scan_error hx
      cases fault with
      | unexpected g => exact ⟨⟨rfl, b, t, rfl, herror⟩, _, hgap⟩
      | unterminated =>
        exact ⟨⟨rfl, b, t, rfl, herror⟩, _, hgap.move (List.append_nil _) .nil_right⟩

private theorem after_behind (source : Bytes) (requests : List Request) :
    ∃ done, (after source requests).Behind source done := by
  suffices h : ∀ (c : Cursor) (done : Bytes), c.Behind source done →
      ∃ done', (requests.foldl (serve source) c).Behind source done' from
    h _ _ (behind_start source)
  induction requests with
  | nil => exact fun c done h => ⟨done, h⟩
  | cons request requests ih =>
    intro c done h
    cases request with
    | next =>
      obtain ⟨_, _, -, -, -, done', h'⟩ := h.next
      exact ih _ _ h'
    | restart => exact ih _ _ (behind_start source)

/-- A cursor is at an offset: its fields are what the bytes before and behind the offset say. -/
structure IsAt (source : Bytes) (offset : Nat) (c : Cursor) : Prop where
  le_length : offset ≤ source.length
  rest : c.rest = source.drop offset
  byte : c.byte = source.getD offset 0
  line : c.pos.line = 1 + (source.take offset).count '\n'.toUInt8
  column : c.pos.column = 1 + (glyphs (Bytes.lastLine (source.take offset))).length

theorem Behind.isAt (h : c.Behind source done) : c.IsAt source done.length := by
  obtain ⟨rfl, -, hpos⟩ := h
  refine ⟨by simp, by simp, ?_, ?_, ?_⟩
  · rw [byte, List.headD_eq_head?_getD, List.getD_eq_getElem?_getD, List.getElem?_append_right
      (Nat.le_refl _), Nat.sub_self, List.head?_eq_getElem?]
  · rw [hpos, List.take_left]
    rfl
  · rw [hpos, List.take_left]
    rfl

end Cursor

/-- Whatever was asked of a lexer before, it is at an offset of the source text, with the line and
the column that the bytes before it say. What it tells next carries the line and the column of the
offset that it is about; nothing but a gap lies between the two offsets. -/
theorem lexer_positions (source : Bytes) (requests : List Cursor.Request) :
    ∃ here, (Cursor.after source requests).IsAt source here ∧
      ∃ there, here ≤ there ∧ there ≤ source.length ∧
        Lexeme.IsGap (∀ b t, source.drop there = b :: t → Lexeme.isLineBreak b = true)
          ((source.take there).drop here) ∧
        Cursor.Tells source (.behind (source.take there)) (source.drop there)
          (Cursor.after source requests).next := by
  obtain ⟨done, hdone⟩ := Cursor.after_behind source requests
  obtain ⟨gap, s, hs, hgap, htells, -⟩ := hdone.next
  have hsource : source = done ++ gap ++ s := by
    rw [List.append_assoc, hs, hdone.append]
  have htake : source.take (done ++ gap).length = done ++ gap := by
    rw [hsource, List.take_left]
  have hdrop : source.drop (done ++ gap).length = s := by
    rw [hsource, List.drop_left]
  refine ⟨done.length, hdone.isAt, (done ++ gap).length, by simp, by simp [hsource], ?_, ?_⟩
  · rw [htake, hdrop, List.drop_left]
    exact hgap
  · rw [htake, hdrop]
    exact htells

end PipeCompiler
