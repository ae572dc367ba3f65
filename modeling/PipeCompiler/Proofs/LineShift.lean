import PipeCompiler.Proofs.LineBreaks
import PipeCompiler.Proofs.Outcomes
import PipeCompiler.Proofs.Relabelling

/-! The same text further down.

Lexing looks at the position only to move it on. So a text that begins some lines further down has
the same tokens or the same error, that many lines further down; in particular the lines behind a
text do. -/
namespace PipeCompiler

def Position.down (n : Int) (pos : Position) : Position :=
  ⟨pos.line + n, pos.column⟩

/-- Tokens some lines further down. -/
def Token.Relabelling.linesDown (n : Int) : Token.Relabelling where
  map tok := { tok with pos := tok.pos.down n }
  kind_map _ := rfl
  literal_map _ := rfl

def LexicalError.down (n : Int) (e : LexicalError) : LexicalError :=
  ⟨e.fault, e.pos.down n⟩

def Cursor.down (n : Int) (c : Cursor) : Cursor :=
  ⟨c.rest, c.pos.down n⟩

open Token.Relabelling (linesDown)

def Cursor.Step.down (n : Int) : Step → Step
  | done stop after => done (linesDown n stop) (after.down n)
  | token tok after => token (linesDown n tok) (after.down n)
  | fail error after => fail (error.down n) (after.down n)

/-- What lexing comes to, some lines further down. -/
def Cursor.tokensDown (n : Int) :
    Except LexicalError (List Token) → Except LexicalError (List Token)
  | .ok toks => .ok (toks.map (linesDown n))
  | .error e => .error (e.down n)

theorem Token.Relabelling.linesDown_linesDown (m n : Int) (tok : Token) :
    linesDown m (linesDown n tok) = linesDown (n + m) tok := by
  simp only [linesDown, Position.down, Int.add_assoc]

namespace Position

variable {n : Int}

private theorem step_down (pos : Position) (g : Glyph) :
    (pos.down n).step g = (pos.step g).down n := by
  unfold step down
  split
  · simp only [Position.mk.injEq, and_true]
    omega
  · rfl

private theorem advance_down (pos : Position) (text : Bytes) :
    (pos.down n).advance text = (pos.advance text).down n := by
  unfold advance
  induction glyphs text generalizing pos with
  | nil => rfl
  | cons g gs ih => rw [List.foldl_cons, List.foldl_cons, step_down, ih]

end Position

namespace Cursor

variable {n : Int}

private theorem step_down (c : Cursor) : (c.down n).step = c.step.down n := by
  unfold step
  have hpos := c.pos.advance_down (n := n)
  simp only [down, hpos]
  cases (Lexeme.gap c.rest).2 with
  | nil => rfl
  | cons b s =>
    dsimp only
    cases Lexeme.scan b s with
    | ok r =>
      obtain ⟨x, rest⟩ := r
      simp only [Position.advance_down]
      rfl
    | error fault =>
      cases fault with
      | unexpected g => rfl
      | unterminated =>
        simp only [Position.advance_down]
        rfl

private theorem tokens_down (c : Cursor) : (c.down n).tokens = tokensDown n c.tokens := by
  fun_induction tokens c with
  | case1 c stop after hstep =>
    rw [tokens_eq, step_down, hstep]
    rfl
  | case2 c error after hstep =>
    rw [tokens_eq, step_down, hstep]
    rfl
  | case3 c tok after hstep ih =>
    rw [tokens_eq, step_down, hstep]
    dsimp only [Step.down]
    rw [ih]
    cases after.tokens <;> rfl

/-- The end of input is behind the whole text. -/
theorem Behind.tokens_stop {source done : Bytes} {c : Cursor} (h : c.Behind source done)
    {toks : List Token} (htoks : c.tokens = .ok toks) :
    ∃ body stop, toks = body ++ [stop] ∧ stop.pos = .behind source := by
  fun_induction tokens c generalizing done toks with
  | case1 c stop after hstep =>
    cases htoks
    refine ⟨[], stop, rfl, ?_⟩
    obtain ⟨gap, s, hs, -, htells, -⟩ := h.next
    have hnext : c.next = (.ok stop, after) := by rw [Cursor.next, hstep]
    rw [hnext] at htells
    obtain ⟨hpos, -, heof, -⟩ := htells
    have hnil : s = [] := heof.mp (step_done hstep).1
    have hsource := h.append
    rw [← hs, hnil, List.append_nil] at hsource
    rw [hpos, hsource]
  | case2 c error after hstep => cases htoks
  | case3 c tok after hstep ih =>
    cases hrest : after.tokens with
    | error e => simp [hrest, Except.map] at htoks
    | ok rest =>
      simp only [hrest, Except.map, Except.ok.injEq] at htoks
      obtain ⟨_, _, -, -, -, done', hafter⟩ := h.next
      have hnext : c.next.2 = after := by rw [Cursor.next, hstep]
      rw [hnext] at hafter
      obtain ⟨body, stop, rfl, hpos⟩ := ih hafter hrest
      exact ⟨tok :: body, stop, htoks.symm, hpos⟩

end Cursor

/-- The tokens of a text and a next line: those of the text, a line break in the place of the end of
input, and those of the next line, as many lines further down as the text has. -/
theorem tokenize_nextLine {source : Bytes} {toks : List Token} (h : tokenize source = .ok toks)
    (rest : Bytes) :
    ∃ body stop, toks = body ++ [stop] ∧
      tokenize (source ++ '\n'.toUInt8 :: rest) =
        (Cursor.tokensDown (source.count '\n'.toUInt8 + 1) (tokenize rest)).map fun more =>
          body ++ Cursor.lineBreak stop.pos :: more := by
  obtain ⟨body, stop, rfl, hlonger⟩ := Cursor.tokens_followedBy h rest
  obtain ⟨body', stop', hends, hpos⟩ := (Cursor.behind_start source).tokens_stop h
  obtain ⟨rfl, hstop⟩ := List.append_inj' hends rfl
  cases hstop
  refine ⟨body, stop, rfl, ?_⟩
  have hline : Cursor.onNextLine stop.pos rest =
      (Cursor.start rest).down (source.count '\n'.toUInt8 + 1) := by
    simp only [Cursor.onNextLine, Cursor.start, Cursor.down, Position.down, Position.start, hpos,
      Position.behind, Cursor.mk.injEq, Position.mk.injEq, true_and, and_true]
    omega
  rw [hline, Cursor.tokens_down] at hlonger
  exact hlonger

/-- Below a text that has tokens, any text is read as it is on its own: the tokens of the whole are
those of both, with a line break where the first one ended, and what is wrong with the second one is
wrong with the whole. All that changes is the line, by as many as the first text has. -/
theorem lines_lexed_separately {source : Bytes} {toks : List Token} (h : tokenize source = .ok toks)
    (rest : Bytes) :
    let whole := source ++ '\n'.toUInt8 :: rest
    let lines : Int := source.count '\n'.toUInt8 + 1
    ∃ body stop, toks = body ++ [stop] ∧ stop.kind = .eof ∧ (∀ tok ∈ body, tok.kind ≠ .eof) ∧
      (∀ more, tokenize rest = .ok more →
        tokenize whole = .ok (body ++ ⟨.newline, "\n", [], stop.pos⟩ ::
          more.map fun tok => { tok with pos := tok.pos.down lines })) ∧
      ∀ e, tokenize rest = .error e →
        tokenize whole = .error (e.down lines) ∧
          (e.down lines).diagnostic whole =
            { e.diagnostic rest with source := whole, pos := e.pos.down lines } := by
  obtain ⟨body, stop, rfl, hwhole⟩ := tokenize_nextLine h rest
  obtain ⟨hstop, hbody⟩ := Cursor.tokens_concat h
  refine ⟨body, stop, rfl, hstop, hbody, ?_, ?_⟩
  · intro more hmore
    rw [hwhole, hmore]
    rfl
  · intro e he
    refine ⟨?_, rfl⟩
    rw [hwhole, he]
    rfl

/-- A string over two lines, and a comment that ends in the middle of a character. -/
def Lexeme.cutComment : Bytes :=
  Bytes.ofString "'a\nb' //" ++ [0xE2, 0x82]

theorem lines_lexed_separately_cutComment :
    ∃ toks more e, tokenize Lexeme.cutComment = .ok toks ∧ tokenize "|>\nc" = .ok more ∧
      tokenize "\n 'd" = .error e ∧
      (∃ body stop, toks = body ++ [stop] ∧ stop.kind = .eof ∧
        tokenize (Lexeme.cutComment ++ '\n'.toUInt8 :: Bytes.ofString "|>\nc") =
          .ok (body ++ ⟨.newline, "\n", [], stop.pos⟩ ::
            more.map fun tok => { tok with pos := tok.pos.down 2 })) ∧
      tokenize (Lexeme.cutComment ++ '\n'.toUInt8 :: Bytes.ofString "\n 'd") =
        .error (e.down 2) := by
  have hlines : (Lexeme.cutComment.count '\n'.toUInt8 + 1 : Int) = 2 := by decide
  have hfails : (tokenize "\n 'd").toOption.isNone = true := by decide +kernel
  obtain ⟨toks, h⟩ := eq_ok_of_isSome (x := tokenize Lexeme.cutComment) (by decide +kernel)
  obtain ⟨more, hmore⟩ := eq_ok_of_isSome (x := tokenize "|>\nc") (by decide +kernel)
  cases he : tokenize "\n 'd" with
  | ok toks => simp [he, Except.toOption] at hfails
  | error e =>
    obtain ⟨body, stop, hends, hstop, -, hok, -⟩ := lines_lexed_separately h "|>\nc"
    obtain ⟨-, -, -, -, -, -, herror⟩ := lines_lexed_separately h "\n 'd"
    rw [hlines] at hok herror
    exact ⟨toks, more, e, h, hmore, rfl, ⟨body, stop, hends, hstop, hok more hmore⟩,
      (herror e he).1⟩

end PipeCompiler
