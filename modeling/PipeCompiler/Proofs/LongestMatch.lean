import PipeCompiler.Proofs.DiagnosticPlaces

/-! The longest lexeme is read.

What a lexeme is, is said here without the lexer: a line break, a word, a number, a closed string,
an operator. Behind the blanks and the comment that come first, the lexer reads the longest lexeme
with which the text goes on, and only if there is none it reports an error. -/
namespace PipeCompiler

namespace Lexeme

/-- A text less the blanks it begins with and, if one follows, the comment up to the end of its
line. -/
inductive Skips : Bytes → Bytes → Prop
  | blanks {bs r : Bytes} (hbs : ∀ b ∈ bs, b ∈ [' '.toUInt8, '\t', '\r'])
      (hr : ∀ b ∈ r.head?, b ∉ [' '.toUInt8, '\t', '\r']) (hc : ¬Bytes.ofString "//" <+: r) :
      Skips (bs ++ r) r
  | comment {bs text r : Bytes} (hbs : ∀ b ∈ bs, b ∈ [' '.toUInt8, '\t', '\r'])
      (htext : '\n'.toUInt8 ∉ text) (hr : ∀ b ∈ r.head?, b = '\n') :
      Skips (bs ++ (Bytes.ofString "//" ++ text ++ r)) r

theorem isGap_iff {b : UInt8} : isGap b = true ↔ b ∈ [' '.toUInt8, '\t', '\r'] := by
  simp [isGap, or_assoc]

theorem Skips.eq_gap {s r : Bytes} (h : Skips s r) : r = (gap s).2 := by
  unfold gap
  cases h with
  | @blanks bs r hbs hr hc =>
    have hend : ∀ b ∈ r.head?, isGap b = false := by
      intro b hb
      rw [Bool.eq_false_iff, ne_eq, isGap_iff]
      exact hr b hb
    obtain ⟨-, hdrop⟩ := takeWhile_append_of_head (fun b hb => isGap_iff.mpr (hbs b hb)) hend
    have hno : ¬(Bytes.ofString "//").isPrefixOf r = true := by
      rwa [List.isPrefixOf_iff_prefix]
    simp only [hdrop, if_neg hno]
  | @comment bs text r hbs htext hr =>
    have hslash : ∀ b ∈ (Bytes.ofString "//" ++ text ++ r).head?, isGap b = false := by
      intro b hb
      cases hb
      decide
    obtain ⟨-, hdrop⟩ := takeWhile_append_of_head (fun b hb => isGap_iff.mpr (hbs b hb)) hslash
    have hinside : ∀ b ∈ Bytes.ofString "//" ++ text, (!isLineBreak b) = true := by
      intro b hb
      rw [Bool.not_eq_true', isLineBreak, beq_eq_false_iff_ne]
      rintro rfl
      rcases List.mem_append.mp hb with hb | hb
      · exact absurd hb (by decide)
      · exact htext hb
    have hline : ∀ b ∈ r.head?, (!isLineBreak b) = false := by
      intro b hb
      rw [hr b hb]
      decide
    obtain ⟨-, hrest⟩ := takeWhile_append_of_head hinside hline
    have hcomment : (Bytes.ofString "//").isPrefixOf (Bytes.ofString "//" ++ text ++ r) = true := by
      rw [List.isPrefixOf_iff_prefix, List.append_assoc]
      exact List.prefix_append _ _
    simp only [hdrop, if_pos hcomment, hrest]

set_option maxRecDepth 2000 in
private theorem skips_gap (s : Bytes) : Skips s (gap s).2 := by
  have hblanks : ∀ b ∈ s.takeWhile isGap, b ∈ [' '.toUInt8, '\t', '\r'] := fun b hb =>
    mem_of_isGap (List.all_eq_true.mp List.all_takeWhile b hb)
  have hsplit : s.takeWhile isGap ++ s.dropWhile isGap = s := List.takeWhile_append_dropWhile
  simp only [gap]
  split
  · rename_i hslashes
    obtain ⟨t, ht⟩ := List.isPrefixOf_iff_prefix.mp hslashes
    have hinside : ∀ b ∈ Bytes.ofString "//", (!isLineBreak b) = true := by decide
    have hskips : Skips (s.takeWhile isGap ++ (Bytes.ofString "//" ++
        t.takeWhile (!isLineBreak ·) ++ t.dropWhile (!isLineBreak ·)))
        (t.dropWhile (!isLineBreak ·)) := by
      refine .comment hblanks ?_ ?_
      · intro hmem
        exact absurd (List.all_eq_true.mp List.all_takeWhile _ hmem) (by decide)
      · intro b hb
        have hline := List.head?_dropWhile_not (!isLineBreak ·) t
        rw [hb] at hline
        simpa [isLineBreak] using hline
    rw [List.append_assoc, List.takeWhile_append_dropWhile, ht, hsplit] at hskips
    rwa [← ht, List.dropWhile_append_of_pos hinside]
  · rename_i hslashes
    have hskips : Skips (s.takeWhile isGap ++ s.dropWhile isGap) (s.dropWhile isGap) := by
      refine .blanks hblanks ?_ ?_
      · intro b hb
        have hgap := List.head?_dropWhile_not isGap s
        rw [hb] at hgap
        rw [← isGap_iff, hgap]
        exact Bool.false_ne_true
      · rwa [← List.isPrefixOf_iff_prefix]
    rwa [hsplit] at hskips

/-- The text between the quotes of a string, and its value: a backslash takes the byte behind it
along, whatever that is. -/
inductive Quotes (quote : UInt8) : Bytes → Bytes → Prop
  | none : Quotes quote [] []
  | plain {b : UInt8} {s value : Bytes} (hq : b ≠ quote) (hb : b ≠ '\\')
      (h : Quotes quote s value) : Quotes quote (b :: s) (b :: value)
  | escaped {e : UInt8} {s value : Bytes} (h : Quotes quote s value) :
      Quotes quote ('\\'.toUInt8 :: e :: s) (unescape e :: value)

/-- The lexemes of the language. A word is a keyword if it is one as a whole. -/
inductive IsLexeme : Lexeme → Prop
  | lineBreak : IsLexeme ⟨.newline, "\n", "\n"⟩
  | keyword {word : String} {kind : Token.Kind} (h : (word, kind) ∈ Token.Kind.words) :
      IsLexeme ⟨kind, word, word⟩
  | name {s : Bytes} (h : IsName s) (hno : ∀ w ∈ Token.Kind.words, Bytes.ofString w.1 ≠ s) :
      IsLexeme ⟨.ident, s, s⟩
  | number {s : Bytes} (h : IsNumber s) : IsLexeme ⟨.number, s, s⟩
  | string {quote : UInt8} {body value : Bytes} (hq : isQuote quote = true)
      (h : Quotes quote body value) : IsLexeme ⟨.string, value, quote :: (body ++ [quote])⟩
  | operator {op : String} {kind : Token.Kind} (h : (op, kind) ∈ Token.Kind.operators) :
      IsLexeme ⟨kind, op, op⟩

/-- A text goes on with this lexeme and with none that is longer. -/
structure IsLongest (r : Bytes) (x : Lexeme) : Prop where
  isLexeme : IsLexeme x
  begins : x.text <+: r
  longest : ∀ y, IsLexeme y → y.text <+: r → y.text.length ≤ x.text.length

section

variable {b quote : UInt8} {s t value text rest : Bytes} {x y : Lexeme}

private theorem quotes_of_string? (h : string? quote s = some (value, text, rest)) :
    ∃ body, text = body ++ [quote] ∧ Quotes quote body value := by
  fun_induction string? quote s generalizing value text rest with
  | case1 => cases h
  | case2 b s hb =>
    cases h
    exact ⟨[], by simp [beq_iff_eq.mp hb], .none⟩
  | case3 => cases h
  | case4 b hq hb e s ih =>
    simp only [Option.map_eq_some_iff, Prod.exists, Prod.mk.injEq] at h
    obtain ⟨v, u, r, hr, rfl, rfl, rfl⟩ := h
    obtain ⟨body, rfl, hbody⟩ := ih hr
    exact ⟨b :: e :: body, rfl, beq_iff_eq.mp hb ▸ .escaped hbody⟩
  | case5 b s hq hb ih =>
    simp only [Option.map_eq_some_iff, Prod.exists, Prod.mk.injEq] at h
    obtain ⟨v, u, r, hr, rfl, rfl, rfl⟩ := h
    obtain ⟨body, rfl, hbody⟩ := ih hr
    exact ⟨b :: body, rfl, .plain (by simpa using hq) (by simpa using hb) hbody⟩

private theorem isLexeme_word (h : IsName s) : IsLexeme ⟨.ofName s, s, s⟩ := by
  unfold Token.Kind.ofName
  split
  · rename_i word kind hfind
    have hs := List.find?_some hfind
    rw [beq_iff_eq] at hs
    exact hs ▸ .keyword (List.mem_of_find?_eq_some hfind)
  · rename_i hfind
    refine .name h fun w hw hs => ?_
    exact List.find?_eq_none.mp hfind w hw (beq_iff_eq.mpr hs)

theorem isLexeme_scan (h : scan b s = .ok (x, rest)) : IsLexeme x := by
  unfold scan at h
  split at h
  · rename_i hline
    have hb : b = '\n' := by simpa [isLineBreak] using hline
    cases h
    exact hb ▸ .lineBreak
  split at h
  · rename_i hq
    split at h
    · rename_i hs
      cases h
      obtain ⟨body, rfl, hbody⟩ := quotes_of_string? hs
      exact .string hq hbody
    · cases h
  split at h
  · rename_i hletter
    cases h
    exact isLexeme_word ⟨⟨b, rfl, hletter⟩, List.all_eq_true.mp List.all_takeWhile⟩
  split at h
  · rename_i hdigit
    cases h
    exact .number (isNumber_number hdigit s)
  · split at h
    · rename_i hop
      cases h
      obtain ⟨op, hmem, rfl⟩ := operator?_mem hop
      exact .operator hmem
    · cases h

/-- What the lexer reads where a text goes on with the lexeme `y`: another one, longer than `y`, or
`y` itself. -/
def Covers (y : Lexeme) (r : Bytes) : Prop :=
  ∃ b s x rest, r = b :: s ∧ scan b s = .ok (x, rest) ∧ y.text <+: x.text ∧
    (x.text = y.text → x = y)

private theorem covers_word (h : IsName s) (t : Bytes) : Covers ⟨.ofName s, s, s⟩ (s ++ t) := by
  obtain ⟨b, u, rfl, hletter⟩ := h.eq_cons
  refine ⟨b, u ++ t, _, _, rfl, scan_letter hletter _, ?_, ?_⟩
  · have hparts : ∀ c ∈ u, isNamePart c = true := h.2
    dsimp only
    rw [List.takeWhile_append_of_pos hparts, ← List.cons_append]
    exact List.prefix_append _ _
  · intro hsame
    dsimp only at hsame
    rw [hsame]

/-- More text makes a number longer, if anything. -/
theorem prefix_number (h : IsNumber s) (t : Bytes) : s <+: (number (s ++ t)).1 := by
  unfold number
  cases h with
  | whole hne hds =>
    rw [List.takeWhile_append_of_pos hds]
    split
    · split
      · exact ⟨_, (List.append_assoc ..).symm⟩
      · exact List.prefix_append _ _
    · exact List.prefix_append _ _
  | @fraction ds fs hne hds hfne hfs =>
    obtain ⟨f, fs, rfl⟩ := List.exists_cons_of_ne_nil hfne
    rw [List.forall_mem_cons] at hfs
    have hpoint : ∀ b ∈ ('.'.toUInt8 :: f :: (fs ++ t)).head?, isDigit b = false := by
      intro b hb
      cases hb
      decide
    obtain ⟨htake, hdrop⟩ := takeWhile_append_of_head hds hpoint
    rw [List.append_assoc, List.cons_append, List.cons_append, htake, hdrop]
    simp [hfs.1, List.takeWhile_append_of_pos hfs.2]

private theorem covers_number (h : IsNumber s) (t : Bytes) : Covers ⟨.number, s, s⟩ (s ++ t) := by
  have hlonger := prefix_number h t
  obtain ⟨b, u, rfl, hdigit⟩ := h.eq_cons
  refine ⟨b, u ++ t, _, _, rfl, scan_digit hdigit _, hlonger, ?_⟩
  intro hsame
  dsimp only at hsame
  rw [hsame]

theorem string?_quotes {body : Bytes} (hq : quote ≠ '\\') (h : Quotes quote body value)
    (t : Bytes) :
    string? quote (body ++ quote :: t) = some (value, body ++ [quote], t) := by
  induction h with
  | none =>
    rw [List.nil_append, string?.eq_def]
    exact if_pos (beq_self_eq_true quote)
  | plain hne hb h ih =>
    rw [List.cons_append, string?_plain hne hb, ih]
    rfl
  | escaped h ih =>
    rw [List.cons_append, List.cons_append, string?_escape hq.symm, ih]
    rfl

private theorem covers_string {body : Bytes} (hq : isQuote quote = true)
    (h : Quotes quote body value) (t : Bytes) :
    Covers ⟨.string, value, quote :: (body ++ [quote])⟩ (quote :: (body ++ [quote]) ++ t) := by
  have hne : quote ≠ '\\' := by
    rintro rfl
    cases hq
  have hread := string?_quotes hne h t
  exact ⟨quote, body ++ quote :: t, _, t, by simp, scan_quoted hq hread, List.prefix_refl _,
    fun _ => rfl⟩

/-- The first operator of the table that fits is the longest. -/
theorem operator?_longest {op : String} {kind : Token.Kind} (h : (op, kind) ∈ Token.Kind.operators)
    (t : Bytes) :
    ∃ text kind' rest, Token.Kind.operator? (Bytes.ofString op ++ t) = some (text, kind', rest) ∧
      Bytes.ofString op <+: text ∧ (text = Bytes.ofString op → kind' = kind) := by
  cases hread : Token.Kind.operator? (Bytes.ofString op ++ t) with
  | none =>
    have hnone := List.findSome?_eq_none_iff.mp hread _ h
    simp [Bytes.after?] at hnone
  | some r =>
    obtain ⟨before, ⟨op', kind'⟩, after, htable, hfits, hbefore⟩ :=
      List.findSome?_eq_some_iff.mp hread
    simp only [Bytes.after?, Option.map_eq_some_iff] at hfits
    obtain ⟨rest, hrest, rfl⟩ := hfits
    have hbegins : Bytes.ofString op' <+: Bytes.ofString op ++ t := by
      split at hrest
      · rename_i hop
        exact List.isPrefixOf_iff_prefix.mp hop
      · cases hrest
    -- None before it in the table fits, and no operator begins like one behind it.
    have hsame : Bytes.ofString op' <+: Bytes.ofString op → (op', kind') = (op, kind) := by
      intro hop
      have hpairs := Token.Kind.operators_pairwise
      rw [htable, List.pairwise_append, List.pairwise_cons] at hpairs
      rw [htable] at h
      rcases List.mem_append.mp h with h | h
      · have hnone := hbefore _ h
        simp [Bytes.after?] at hnone
      · rcases List.mem_cons.mp h with h | h
        · exact h.symm
        · exact absurd hop (hpairs.2.1.1 _ h)
    refine ⟨Bytes.ofString op', kind', rest, rfl, ?_, ?_⟩
    · rcases Nat.le_total (Bytes.ofString op).length (Bytes.ofString op').length with hle | hle
      · exact List.prefix_of_prefix_length_le (List.prefix_append _ t) hbegins hle
      · have hop := List.prefix_of_prefix_length_le hbegins (List.prefix_append _ t) hle
        cases hsame hop
        exact List.prefix_refl _
    · intro htext
      cases hsame (htext ▸ List.prefix_refl _)
      rfl

private theorem covers_operator {op : String} {kind : Token.Kind}
    (h : (op, kind) ∈ Token.Kind.operators)
    (t : Bytes) : Covers ⟨kind, op, op⟩ (Bytes.ofString op ++ t) := by
  obtain ⟨b, u, hu, -, hscan⟩ := scan_operator h
  obtain ⟨text, kind', rest, hread, hlonger, hsame⟩ := operator?_longest h t
  rw [hu, List.cons_append] at hread
  refine ⟨b, u ++ t, ⟨kind', text, text⟩, rest, by rw [hu]; rfl, hscan _ _ _ _ hread, hlonger, ?_⟩
  intro htext
  dsimp only at htext
  rw [hsame htext, htext]

theorem ofName_of_forall_ne (h : ∀ w ∈ Token.Kind.words, Bytes.ofString w.1 ≠ s) :
    Token.Kind.ofName s = .ident := by
  have hfind : Token.Kind.words.find? (fun w => Bytes.ofString w.1 == s) = none := by
    simpa using h
  rw [Token.Kind.ofName, hfind]

/-- Where a text goes on with a lexeme, this one is read or a longer one. -/
theorem IsLexeme.covers (h : IsLexeme y) (t : Bytes) : Covers y (y.text ++ t) := by
  cases h with
  | lineBreak => exact ⟨_, t, _, t, rfl, rfl, List.prefix_refl _, fun _ => rfl⟩
  | @keyword word kind h =>
    obtain ⟨hname, hkind⟩ := isName_word h
    have hcovers := covers_word hname t
    rwa [hkind] at hcovers
  | @name s h hno =>
    have hcovers := covers_word h t
    rwa [ofName_of_forall_ne hno] at hcovers
  | number h => exact covers_number h t
  | string hq h => exact covers_string hq h t
  | operator h => exact covers_operator h t

/-- Where a text goes on with a lexeme, the lexer reads some lexeme that is at least as long. -/
theorem IsLexeme.scan (h : IsLexeme y) (hbegins : y.text <+: b :: s) :
    ∃ x rest, Lexeme.scan b s = .ok (x, rest) ∧ y.text <+: x.text ∧ (x.text = y.text → x = y) := by
  obtain ⟨t, ht⟩ := hbegins
  obtain ⟨_, _, x, rest, hr, hcovers⟩ := h.covers t
  rw [ht] at hr
  cases hr
  exact ⟨x, rest, hcovers⟩

private theorem scan_isLongest (h : scan b s = .ok (x, rest)) :
    IsLongest (b :: s) x ∧ ∀ y, IsLongest (b :: s) y → y = x := by
  have hbegins : x.text <+: b :: s := ⟨rest, (scan_cut h).append⟩
  have hcovers : ∀ y, IsLexeme y → y.text <+: b :: s →
      y.text <+: x.text ∧ (x.text = y.text → x = y) := by
    intro y hy hyb
    obtain ⟨_, _, hscan, hcovers⟩ := hy.scan hyb
    rw [h] at hscan
    cases hscan
    exact hcovers
  constructor
  · exact ⟨isLexeme_scan h, hbegins, fun y hy hyb => (hcovers y hy hyb).1.length_le⟩
  · intro y hy
    obtain ⟨hshorter, hsame⟩ := hcovers y hy.isLexeme hy.begins
    have hle := hy.longest x (isLexeme_scan h) hbegins
    have htext := hshorter.eq_of_length (Nat.le_antisymm hshorter.length_le hle)
    exact (hsame htext.symm).symm

end

end Lexeme

open Lexeme (IsLexeme IsLongest Skips isQuote)

namespace Cursor

variable {c : Cursor} {b : UInt8} {s : Bytes}

private theorem next_of_nil (hr : (Lexeme.gap c.rest).2 = []) :
    ∃ tok after, c.next = (.ok tok, after) ∧ tok.kind = .eof ∧ after.rest = [] := by
  simp [next, step, hr]

private theorem next_of_scan {x : Lexeme} {rest : Bytes} (hr : (Lexeme.gap c.rest).2 = b :: s)
    (h : Lexeme.scan b s = .ok (x, rest)) :
    ∃ pos after, c.next = (.ok (x.token pos), after) ∧ rest = after.rest := by
  simp [next, step, hr, h]

private theorem next_of_fault {fault : Lexeme.Fault} (hr : (Lexeme.gap c.rest).2 = b :: s)
    (h : Lexeme.scan b s = .error fault) :
    ∃ pos after, c.next = (.error ⟨fault, pos⟩, after) := by
  cases fault with
  | unexpected g => simp [next, step, hr, h]
  | unterminated => simp [next, step, hr, h]

end Cursor

/-- From any place in a text, the next token is that of the longest lexeme behind what is skipped.
At the end of the text it is the end of input. If no lexeme begins there, this is an error, which
more text may mend if it is on a string. -/
theorem next_reads_longest (c : Cursor) :
    ∃ r, Skips c.rest r ∧ (∀ r', Skips c.rest r' → r' = r) ∧
      (r = [] → ∃ tok after, c.next = (.ok tok, after) ∧ tok.kind = .eof ∧ after.rest = []) ∧
      ((∃ y, IsLexeme y ∧ y.text <+: r) →
        ∃ x pos after, IsLongest r x ∧ (∀ y, IsLongest r y → y = x) ∧
          c.next = (.ok (x.token pos), after) ∧ r = x.text ++ after.rest) ∧
      (r ≠ [] → (∀ y, IsLexeme y → ¬y.text <+: r) →
        ∃ e after, c.next = (.error e, after) ∧ ∀ source,
          (e.diagnostic source).kind = .lexical ∧
            ((e.diagnostic source).incomplete = true ↔ ∃ q ∈ r.head?, isQuote q = true)) := by
  refine ⟨_, Lexeme.skips_gap c.rest, fun r' h => h.eq_gap, ?_⟩
  cases hr : (Lexeme.gap c.rest).2 with
  | nil =>
    refine ⟨fun _ => Cursor.next_of_nil hr, ?_, fun hne => absurd rfl hne⟩
    rintro ⟨y, hy, hbegins⟩
    obtain ⟨_, _, _, _, hcons, -⟩ := hy.covers []
    rw [List.append_nil, List.prefix_nil.mp hbegins] at hcons
    cases hcons
  | cons b s =>
    refine ⟨nofun, ?_, fun _ hnone => ?_⟩
    · rintro ⟨y, hy, hbegins⟩
      obtain ⟨x, rest, hscan, -⟩ := hy.scan hbegins
      obtain ⟨hlongest, hunique⟩ := Lexeme.scan_isLongest hscan
      obtain ⟨pos, after, hnext, rfl⟩ := Cursor.next_of_scan hr hscan
      exact ⟨x, pos, after, hlongest, hunique, hnext, (Lexeme.scan_cut hscan).append.symm⟩
    · cases hscan : Lexeme.scan b s with
      | ok xr =>
        have hlongest := (Lexeme.scan_isLongest hscan).1
        exact absurd hlongest.begins (hnone xr.1 hlongest.isLexeme)
      | error fault =>
        obtain ⟨pos, after, hnext⟩ := Cursor.next_of_fault hr hscan
        obtain ⟨-, rfl⟩ := Lexeme.scan_error_cases hscan
        refine ⟨_, after, hnext, fun source => ⟨rfl, ?_⟩⟩
        cases hq : isQuote b <;> simp [LexicalError.diagnostic, hq]

end PipeCompiler
