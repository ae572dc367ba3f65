import PipeCompiler.Token.Lexer

/-! No byte of a source text is lost.

Every step of the lexer takes a gap and the text of one token off the front of what is left, and
nothing else. So an accepted text is the texts of its tokens with gaps around them, and there are no
more tokens than bytes, but for the end of input. -/
namespace PipeCompiler

/-- What a token was read from. -/
def Token.text (tok : Token) : Bytes :=
  if tok.kind = .string then tok.raw else tok.literal

namespace Lexeme

/-- A comment begins with two slashes and stays on its line. -/
def IsComment (s : Bytes) : Prop :=
  ∃ text : Bytes, s = Bytes.ofString "//" ++ text ∧ '\n'.toUInt8 ∉ text

/-- A run of blanks and then, if `comment` allows it, perhaps one comment. -/
def IsGap (comment : Prop) (s : Bytes) : Prop :=
  ∃ blanks tail : Bytes, s = blanks ++ tail ∧ (∀ b ∈ blanks, b ∈ [' '.toUInt8, '\t', '\r']) ∧
    (tail = [] ∨ comment ∧ IsComment tail)

theorem IsGap.mono {c d : Prop} {s : Bytes} (h : IsGap c s) (hcd : c → d) : IsGap d s := by
  obtain ⟨blanks, tail, hs, hb, ht⟩ := h
  exact ⟨blanks, tail, hs, hb, ht.imp_right (And.imp_left hcd)⟩

theorem mem_of_isGap {b : UInt8} (h : isGap b = true) : b ∈ [' '.toUInt8, '\t', '\r'] := by
  simpa [isGap, or_assoc] using h

theorem gap_append (s : Bytes) : (gap s).1 ++ (gap s).2 = s := by
  simp only [gap]
  split
  · rw [List.append_assoc, List.takeWhile_append_dropWhile, List.takeWhile_append_dropWhile]
  · exact List.takeWhile_append_dropWhile

/-- A comment runs up to the end of its line, so a line break or nothing at all follows it. -/
theorem isGap_gap (s : Bytes) :
    IsGap (∀ b t, (gap s).2 = b :: t → isLineBreak b = true) (gap s).1 := by
  have hblanks : ∀ b ∈ s.takeWhile isGap, b ∈ [' '.toUInt8, '\t', '\r'] := fun b hb =>
    mem_of_isGap (List.all_eq_true.mp List.all_takeWhile b hb)
  simp only [gap]
  split
  · rename_i hslashes
    obtain ⟨text, htext⟩ := List.isPrefixOf_iff_prefix.mp hslashes
    refine ⟨s.takeWhile isGap, _, rfl, hblanks, .inr ⟨?_, text.takeWhile (!isLineBreak ·), ?_, ?_⟩⟩
    · intro b t hbt
      have hhead := List.head?_dropWhile_not (!isLineBreak ·) (s.dropWhile isGap)
      dsimp only at hbt
      rw [hbt] at hhead
      simpa using hhead
    · rw [← htext, List.takeWhile_append_of_pos (List.all_eq_true.mp rfl)]
    · intro hmem
      have hline := List.all_eq_true.mp List.all_takeWhile _ hmem
      simp [isLineBreak] at hline
  · exact ⟨s.takeWhile isGap, [], by simp, hblanks, .inl rfl⟩

theorem string?_append {quote : UInt8} {s value text rest : Bytes}
    (h : string? quote s = some (value, text, rest)) : text ++ rest = s := by
  fun_induction string? quote s generalizing value text rest with
  | case1 => simp at h
  | case2 b s hb =>
    cases h
    rfl
  | case3 => simp at h
  | case4 b hq hb e s ih =>
    simp only [Option.map_eq_some_iff, Prod.exists, Prod.mk.injEq] at h
    obtain ⟨v, t, r, hr, -, rfl, rfl⟩ := h
    simp [ih hr]
  | case5 b s hq hb ih =>
    simp only [Option.map_eq_some_iff, Prod.exists, Prod.mk.injEq] at h
    obtain ⟨v, t, r, hr, -, rfl, rfl⟩ := h
    simp [ih hr]

private theorem number_append (s : Bytes) : (number s).1 ++ (number s).2 = s := by
  have hwhole := List.takeWhile_append_dropWhile (p := isDigit) (l := s)
  unfold number
  split
  · rename_i point digit t heq
    rw [heq] at hwhole
    split
    · simpa using hwhole
    · exact hwhole
  · exact hwhole

private theorem number_ne_nil {b : UInt8} {s : Bytes} (hb : isDigit b = true) :
    (number (b :: s)).1 ≠ [] := by
  unfold number
  rw [List.takeWhile_cons_of_pos hb]
  split
  · split <;> simp
  · simp

/-- The lexeme `x` accounts for the text `s` up to `rest`. Only strings stand for something else
than their text. -/
structure Cut (x : Lexeme) (s rest : Bytes) : Prop where
  append : x.text ++ rest = s
  ne_nil : x.text ≠ []
  kind : x.kind ≠ .eof
  literal : x.kind ≠ .string → x.literal = x.text

theorem Cut.token_text {x : Lexeme} {s rest : Bytes} (h : Cut x s rest) (pos : Position) :
    (x.token pos).text = x.text := by
  by_cases hk : x.kind = .string
  · simp [Token.text, token, hk]
  · simp [Token.text, token, hk, h.literal hk]

private theorem ofName_kind (name : Bytes) : Token.Kind.ofName name ≠ .eof := by
  have hwords : ∀ w ∈ Token.Kind.words, w.2 ≠ .eof := by decide
  unfold Token.Kind.ofName
  split
  · rename_i hfind
    exact hwords _ (List.mem_of_find?_eq_some hfind)
  · simp

private theorem operator?_cut {s text : Bytes} {kind : Token.Kind} {rest : Bytes}
    (h : Token.Kind.operator? s = some (text, kind, rest)) : Cut ⟨kind, text, text⟩ s rest := by
  have hops : ∀ op ∈ Token.Kind.operators, Bytes.ofString op.1 ≠ [] ∧ op.2 ≠ .eof := by decide
  obtain ⟨⟨op, k⟩, hmem, hop⟩ := List.exists_of_findSome?_eq_some h
  simp only [Bytes.after?, Option.map_eq_some_iff, Prod.mk.injEq] at hop
  obtain ⟨r, hr, rfl, rfl, rfl⟩ := hop
  split at hr
  · rename_i hprefix
    cases hr
    exact ⟨List.prefix_iff_eq_append.mp (List.isPrefixOf_iff_prefix.mp hprefix), (hops _ hmem).1,
      (hops _ hmem).2, fun _ => rfl⟩
  · cases hr

theorem scan_cut {b : UInt8} {s : Bytes} {x : Lexeme} {rest : Bytes}
    (h : scan b s = .ok (x, rest)) : Cut x (b :: s) rest := by
  unfold scan at h
  split at h
  · cases h
    exact ⟨rfl, by simp, by simp, fun _ => rfl⟩
  split at h
  · split at h
    · rename_i hs
      cases h
      exact ⟨by simp [string?_append hs], by simp, by simp, fun hk => absurd rfl hk⟩
    · cases h
  split at h
  · cases h
    exact ⟨by simp [List.takeWhile_append_dropWhile], by simp, ofName_kind _, fun _ => rfl⟩
  split at h
  · rename_i hd
    cases h
    exact ⟨number_append _, number_ne_nil hd, by simp, fun _ => rfl⟩
  · split at h
    · rename_i ho
      cases h
      exact operator?_cut ho
    · cases h

private theorem scan_lineBreak {b : UInt8} {s : Bytes} {x : Lexeme} {rest : Bytes}
    (h : scan b s = .ok (x, rest)) (hb : isLineBreak b = true) : x.kind = .newline := by
  rw [scan, if_pos hb] at h
  cases h
  rfl

end Lexeme

namespace Cursor

/-- The text ends behind the gap. -/
theorem step_done_cases {c after : Cursor} {stop : Token} (h : c.step = .done stop after) :
    (Lexeme.gap c.rest).2 = [] ∧ stop = ⟨.eof, [], [], c.pos.advance (Lexeme.gap c.rest).1⟩ := by
  simp only [step] at h
  split at h
  · rename_i hs
    cases h
    exact ⟨hs, rfl⟩
  · split at h <;> cases h

/-- A lexeme is read behind the gap. -/
theorem step_token_cases {c after : Cursor} {tok : Token} (h : c.step = .token tok after) :
    ∃ b s x rest, (Lexeme.gap c.rest).2 = b :: s ∧ Lexeme.scan b s = .ok (x, rest) ∧
      tok = x.token (c.pos.advance (Lexeme.gap c.rest).1) ∧
      after = ⟨rest, (c.pos.advance (Lexeme.gap c.rest).1).advance x.text⟩ := by
  simp only [step] at h
  split at h
  · cases h
  · rename_i b s hs
    split at h
    · rename_i x rest hx
      cases h
      exact ⟨b, s, x, rest, hs, hx, rfl, rfl⟩
    · cases h
    · cases h

theorem step_done {c after : Cursor} {stop : Token} (h : c.step = .done stop after) :
    stop.kind = .eof ∧ Lexeme.IsGap True c.rest := by
  have happend := Lexeme.gap_append c.rest
  have hgap := Lexeme.isGap_gap c.rest
  obtain ⟨hs, rfl⟩ := step_done_cases h
  rw [hs, List.append_nil] at happend
  rw [happend] at hgap
  exact ⟨rfl, hgap.mono fun _ => trivial⟩

/-- A step takes a gap and the text of a token off the front. -/
theorem step_token {c after : Cursor} {tok : Token} (h : c.step = .token tok after) :
    tok.kind ≠ .eof ∧ tok.text ≠ [] ∧
      ∃ gap, Lexeme.IsGap (tok.kind = .newline) gap ∧ c.rest = gap ++ tok.text ++ after.rest := by
  have happend := Lexeme.gap_append c.rest
  have hgap := Lexeme.isGap_gap c.rest
  obtain ⟨b, s, x, rest, hs, hx, rfl, rfl⟩ := step_token_cases h
  have hcut := Lexeme.scan_cut hx
  rw [hs] at happend hgap
  rw [hcut.token_text]
  refine ⟨hcut.kind, hcut.ne_nil, (Lexeme.gap c.rest).1, ?_, ?_⟩
  · exact hgap.mono fun hline => Lexeme.scan_lineBreak hx (hline b s rfl)
  · rw [List.append_assoc, hcut.append, happend]

end Cursor

/-- A token with the gap before it. -/
abbrev Piece := Bytes × Token

/-- The source text of pieces. -/
def Piece.spelling (pieces : List Piece) : Bytes :=
  pieces.flatMap fun piece => piece.1 ++ piece.2.text

/-- The tokens account for all of the text: it is their texts, in order, with a gap before each of
them and one before the end of input, which is the last token and the only one of its kind. Comments
stand only before a line break or the end of input. -/
def Spells (toks : List Token) (source : Bytes) : Prop :=
  ∃ (pieces : List Piece) (last : Bytes) (stop : Token),
    toks = pieces.map Prod.snd ++ [stop] ∧ stop.kind = .eof ∧
    source = Piece.spelling pieces ++ last ∧ Lexeme.IsGap True last ∧
    ∀ piece ∈ pieces, piece.2.kind ≠ .eof ∧ piece.2.text ≠ [] ∧
      Lexeme.IsGap (piece.2.kind = .newline) piece.1

namespace Spells

theorem stop {tok : Token} {gap : Bytes} (hk : tok.kind = .eof) (hg : Lexeme.IsGap True gap) :
    Spells [tok] gap :=
  ⟨[], gap, tok, rfl, hk, rfl, hg, by simp⟩

theorem cons {tok : Token} {toks : List Token} {gap rest : Bytes} (hk : tok.kind ≠ .eof)
    (ht : tok.text ≠ []) (hg : Lexeme.IsGap (tok.kind = .newline) gap) (h : Spells toks rest) :
    Spells (tok :: toks) (gap ++ tok.text ++ rest) := by
  obtain ⟨pieces, last, stop, rfl, hstop, rfl, hlast, hall⟩ := h
  refine ⟨(gap, tok) :: pieces, last, stop, rfl, hstop, by simp [Piece.spelling], hlast, ?_⟩
  intro piece hpiece
  rcases List.mem_cons.mp hpiece with rfl | hpiece
  · exact ⟨hk, ht, hg⟩
  · exact hall piece hpiece

theorem text_ne_nil {toks : List Token} {source : Bytes} (h : Spells toks source) {tok : Token}
    (htok : tok ∈ toks) (hk : tok.kind ≠ .eof) : tok.text ≠ [] := by
  obtain ⟨pieces, last, stop, rfl, hstop, -, -, hall⟩ := h
  rcases List.mem_append.mp htok with htok | htok
  · obtain ⟨piece, hpiece, rfl⟩ := List.mem_map.mp htok
    exact (hall piece hpiece).2.1
  · rw [List.mem_singleton.mp htok] at hk
    exact absurd hstop hk

/-- Each token but the last takes at least one byte. -/
theorem length_le {toks : List Token} {source : Bytes} (h : Spells toks source) :
    toks.length ≤ source.length + 1 := by
  obtain ⟨pieces, last, stop, rfl, -, rfl, -, hall⟩ := h
  have hcount : pieces.length ≤ (Piece.spelling pieces).length := by
    induction pieces with
    | nil => simp
    | cons piece pieces ih =>
      have htext : 0 < piece.2.text.length :=
        List.length_pos_iff.mpr (hall piece (by simp)).2.1
      have hrest := ih fun p hp => hall p (by simp [hp])
      have hlength : (Piece.spelling (piece :: pieces)).length =
          piece.1.length + (piece.2.text.length + (Piece.spelling pieces).length) := by
        simp [Piece.spelling]
      rw [List.length_cons]
      omega
  simp only [List.length_append, List.length_map, List.length_singleton]
  omega

end Spells

/-- What the tokens from a place on account for is what was left to read there. -/
theorem Cursor.tokens_spell {c : Cursor} {toks : List Token} (h : c.tokens = .ok toks) :
    Spells toks c.rest := by
  fun_induction tokens c generalizing toks with
  | case1 c stop after hstep =>
    cases h
    obtain ⟨hstop, hgap⟩ := step_done hstep
    exact .stop hstop hgap
  | case2 c error after hstep => cases h
  | case3 c tok after hstep ih =>
    cases hrest : after.tokens with
    | error e => simp [hrest, Except.map] at h
    | ok rest =>
      simp only [hrest, Except.map, Except.ok.injEq] at h
      subst h
      obtain ⟨hkind, htext, gap, hgap, hc⟩ := step_token hstep
      rw [hc]
      exact .cons hkind htext hgap (ih hrest)

/-- No byte of an accepted text is lost, read twice or moved, and there is at most one token more
than there are bytes. -/
theorem tokenize_lossless {source : Bytes} {toks : List Token} (h : tokenize source = .ok toks) :
    Spells toks source ∧ toks.length ≤ source.length + 1 := by
  have hspells : Spells toks source := Cursor.tokens_spell h
  exact ⟨hspells, hspells.length_le⟩

/-- A name, a comment, a line break, and a string with an escape and a stray byte in it. -/
def Lexeme.commentedLine : Bytes :=
  Bytes.ofString "a //b\n '\\'c" ++ [0xFF] ++ Bytes.ofString "' "

theorem tokenize_lossless_commentedLine :
    ∃ toks, tokenize Lexeme.commentedLine = .ok toks ∧ Spells toks Lexeme.commentedLine ∧
      toks.length ≤ 15 := by
  have hok : (tokenize Lexeme.commentedLine).toOption.isSome = true := by decide +kernel
  cases h : tokenize Lexeme.commentedLine with
  | error e => simp [h, Except.toOption] at hok
  | ok toks => exact ⟨toks, rfl, tokenize_lossless h⟩

end PipeCompiler
