import PipeCompiler.Proofs.Positions

/-! Lexing at line breaks.

A line break belongs to no lexeme but itself and strings. So lexing a text with more lines behind it
gives the tokens of the text, then a line break where the text ended, then the tokens of the rest;
and a character that starts no lexeme is as unexpected as before. -/
namespace PipeCompiler

section

variable {α : Type} {p : α → Bool} {b : α}

theorem takeWhile_append_cons (hb : p b = false) (s t : List α) :
    (s ++ b :: t).takeWhile p = s.takeWhile p := by
  induction s with
  | nil => simp [hb]
  | cons a s ih => by_cases ha : p a <;> simp [ha, ih]

theorem dropWhile_append_cons (hb : p b = false) (s t : List α) :
    (s ++ b :: t).dropWhile p = s.dropWhile p ++ b :: t := by
  induction s with
  | nil => simp [hb]
  | cons a s ih => by_cases ha : p a <;> simp [ha, ih]

theorem isPrefixOf_append_cons [BEq α] [LawfulBEq α] {u : List α} (hb : b ∉ u) (s t : List α) :
    u.isPrefixOf (s ++ b :: t) = u.isPrefixOf s := by
  induction u generalizing s with
  | nil => simp
  | cons a u ih =>
    have hab : a ≠ b := fun h => hb (by simp [h])
    cases s with
    | nil => simp [List.isPrefixOf, hab]
    | cons c s => simp [List.isPrefixOf, ih (fun h => hb (List.mem_cons_of_mem a h)) s]

end

namespace Lexeme

theorem gap_lineBreak (s t : Bytes) :
    gap (s ++ '\n'.toUInt8 :: t) = ((gap s).1, (gap s).2 ++ '\n'.toUInt8 :: t) := by
  have hslashes : '\n'.toUInt8 ∉ Bytes.ofString "//" := by decide
  simp only [gap]
  rw [takeWhile_append_cons (by decide), dropWhile_append_cons (by decide),
    isPrefixOf_append_cons hslashes, takeWhile_append_cons (by decide),
    dropWhile_append_cons (by decide)]
  split <;> rfl

theorem string?_append_right {quote : UInt8} {s value text rest : Bytes}
    (h : string? quote s = some (value, text, rest)) (t : Bytes) :
    string? quote (s ++ t) = some (value, text, rest ++ t) := by
  fun_induction string? quote s generalizing value text rest with
  | case1 => cases h
  | case2 b s hb =>
    cases h
    rw [List.cons_append, string?.eq_def]
    exact if_pos hb
  | case3 => cases h
  | case4 b hq hb e s ih =>
    simp only [Option.map_eq_some_iff, Prod.exists, Prod.mk.injEq] at h
    obtain ⟨v, u, r, hr, rfl, rfl, rfl⟩ := h
    rw [List.cons_append, List.cons_append, string?, if_neg hq, if_pos hb, ih hr, Option.map_some]
  | case5 b s hq hb ih =>
    simp only [Option.map_eq_some_iff, Prod.exists, Prod.mk.injEq] at h
    obtain ⟨v, u, r, hr, rfl, rfl, rfl⟩ := h
    rw [List.cons_append, string?.eq_def]
    dsimp only
    rw [if_neg hq, if_neg hb, ih hr, Option.map_some]

private theorem number_lineBreak (s t : Bytes) :
    number (s ++ '\n'.toUInt8 :: t) = ((number s).1, (number s).2 ++ '\n'.toUInt8 :: t) := by
  unfold number
  rw [takeWhile_append_cons (by decide), dropWhile_append_cons (by decide)]
  match hs : s.dropWhile isDigit with
  | [] =>
    cases t with
    | nil => rfl
    | cons b t => rfl
  | [point] =>
    have hbreak : isDigit '\n' = false := by decide
    simp [hbreak]
  | point :: digit :: u =>
    dsimp only [List.cons_append]
    rw [takeWhile_append_cons (by decide), dropWhile_append_cons (by decide)]
    split <;> rfl

private theorem after?_append_cons {op : Bytes} {b : UInt8} (hop : b ∉ op) (s t : Bytes) :
    Bytes.after? op (s ++ b :: t) = (Bytes.after? op s).map (· ++ b :: t) := by
  unfold Bytes.after?
  rw [isPrefixOf_append_cons hop]
  split
  · rename_i hprefix
    have hle := (List.isPrefixOf_iff_prefix.mp hprefix).length_le
    rw [List.drop_append_of_le_length hle, Option.map_some]
  · rfl

private theorem operator?_lineBreak (s t : Bytes) :
    Token.Kind.operator? (s ++ '\n'.toUInt8 :: t) =
      (Token.Kind.operator? s).map fun (text, kind, rest) =>
        (text, kind, rest ++ '\n'.toUInt8 :: t) := by
  have hops : ∀ op ∈ Token.Kind.operators, '\n'.toUInt8 ∉ Bytes.ofString op.1 := by decide
  unfold Token.Kind.operator?
  generalize Token.Kind.operators = ops at hops ⊢
  induction ops with
  | nil => rfl
  | cons op ops ih =>
    obtain ⟨op, kind⟩ := op
    rw [List.forall_mem_cons] at hops
    rw [List.findSome?_cons, List.findSome?_cons, ih hops.2]
    dsimp only
    rw [after?_append_cons hops.1]
    cases Bytes.after? op s <;> rfl

/-- Behind a line break nothing can change the lexeme before it, unless that is a string still to be
closed. -/
theorem scan_lineBreaks {b : UInt8} {s : Bytes} (h : scan b s ≠ .error .unterminated) (t : Bytes) :
    scan b (s ++ '\n'.toUInt8 :: t) =
      (scan b s).map fun (x, rest) => (x, rest ++ '\n'.toUInt8 :: t) := by
  unfold scan at h ⊢
  split
  · rfl
  split
  · cases hs : string? b s with
    | none => simp_all
    | some r =>
      rw [string?_append_right hs]
      rfl
  split
  · rw [takeWhile_append_cons (by decide), dropWhile_append_cons (by decide)]
    rfl
  split
  · rw [← List.cons_append, number_lineBreak]
    rfl
  · rw [← List.cons_append, operator?_lineBreak]
    cases Token.Kind.operator? (b :: s) with
    | none =>
      rw [Option.map_none, Glyph.first_append (by simp; decide)]
      rfl
    | some r => rfl

end Lexeme

namespace Cursor

/-- The same place in a text that has more lines behind it. -/
def followedBy (c : Cursor) (t : Bytes) : Cursor :=
  ⟨c.rest ++ '\n'.toUInt8 :: t, c.pos⟩

/-- The beginning of the line behind a position, where the text `t` begins. -/
def onNextLine (pos : Position) (t : Bytes) : Cursor :=
  ⟨t, ⟨pos.line + 1, 1⟩⟩

/-- The line break at a position. -/
def lineBreak (pos : Position) : Token :=
  ⟨.newline, ['\n'.toUInt8], [], pos⟩

namespace Step

/-- The step at the same place in a text that has more lines behind it: the line break behind the
text is read where the text ended before. -/
def followedBy (t : Bytes) : Step → Step
  | done stop _ => token (lineBreak stop.pos) (onNextLine stop.pos t)
  | token tok after => token tok (after.followedBy t)
  | fail error after => fail error (after.followedBy t)

end Step

variable {c : Cursor}

theorem step_followedBy (h : ∀ e after, c.step = .fail e after → e.fault ≠ .unterminated)
    (t : Bytes) : (c.followedBy t).step = c.step.followedBy t := by
  unfold step at h ⊢
  simp only [followedBy, Lexeme.gap_lineBreak]
  cases hs : (Lexeme.gap c.rest).2 with
  | nil =>
    have hscan : Lexeme.scan '\n' t = .ok (⟨.newline, ['\n'.toUInt8], ['\n'.toUInt8]⟩, t) := rfl
    have hpos (pos : Position) : pos.advance ['\n'.toUInt8] = ⟨pos.line + 1, 1⟩ := by
      rw [Position.advance_lineBreak, Position.advance, glyphs, List.foldl_nil]
    rw [List.nil_append]
    dsimp only
    rw [hscan]
    dsimp only
    rw [hpos]
    rfl
  | cons b s =>
    simp only [hs] at h
    rw [List.cons_append]
    dsimp only
    have hscan : Lexeme.scan b s ≠ .error .unterminated := by
      intro hx
      simp only [hx] at h
      exact h _ _ rfl rfl
    rw [Lexeme.scan_lineBreaks hscan]
    cases hx : Lexeme.scan b s with
    | ok r => rfl
    | error fault =>
      cases fault with
      | unexpected g => rfl
      | unterminated => exact absurd hx hscan

theorem tokens_eq (c : Cursor) :
    c.tokens = match c.step with
      | .done stop _ => .ok [stop]
      | .fail error _ => .error error
      | .token tok after => after.tokens.map (tok :: ·) := by
  rw [tokens]
  split <;> rename_i hstep <;> rw [hstep]

/-- The tokens of a text with more lines behind it: its own, a line break in the place of the end of
input, and those of the rest. -/
theorem tokens_followedBy {toks : List Token} (h : c.tokens = .ok toks) (t : Bytes) :
    ∃ body stop, toks = body ++ [stop] ∧ (c.followedBy t).tokens =
      (onNextLine stop.pos t).tokens.map fun more => body ++ lineBreak stop.pos :: more := by
  fun_induction tokens c generalizing toks with
  | case1 c stop after hstep =>
    cases h
    refine ⟨[], stop, rfl, ?_⟩
    rw [tokens_eq, step_followedBy (by simp [hstep]), hstep]
    rfl
  | case2 c error after hstep => cases h
  | case3 c tok after hstep ih =>
    cases hrest : after.tokens with
    | error e => simp [hrest, Except.map] at h
    | ok rest =>
      simp only [hrest, Except.map, Except.ok.injEq] at h
      obtain ⟨body, stop, rfl, hmore⟩ := ih hrest
      refine ⟨tok :: body, stop, h.symm, ?_⟩
      rw [tokens_eq, step_followedBy (by simp [hstep]), hstep]
      dsimp only [Step.followedBy]
      rw [hmore]
      cases (onNextLine stop.pos t).tokens <;> rfl

/-- A character that starts no lexeme does not become part of one. -/
theorem tokens_followedBy_unexpected {g : Glyph} {pos : Position}
    (h : c.tokens = .error ⟨.unexpected g, pos⟩) (t : Bytes) :
    (c.followedBy t).tokens = .error ⟨.unexpected g, pos⟩ := by
  fun_induction tokens c with
  | case1 c stop after hstep => cases h
  | case2 c error after hstep =>
    cases h
    rw [tokens_eq, step_followedBy (by simp [hstep]), hstep]
    rfl
  | case3 c tok after hstep ih =>
    cases hrest : after.tokens with
    | ok rest => simp [hrest, Except.map] at h
    | error e =>
      simp only [hrest, Except.map, Except.error.injEq] at h
      rw [tokens_eq, step_followedBy (by simp [hstep]), hstep]
      dsimp only [Step.followedBy]
      rw [ih (h ▸ hrest)]
      rfl

end Cursor
end PipeCompiler
