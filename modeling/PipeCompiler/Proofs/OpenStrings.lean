import PipeCompiler.Proofs.DiagnosticPlaces
import PipeCompiler.Proofs.SeenTokens

/-! Strings that are not closed.

A text that ends within a string has tokens before the string. With more lines behind it, it has the
same tokens before the string, the string as far as it then goes, and whatever follows it. The
quote that the string began with closes it on the next line. -/
namespace PipeCompiler

open Token.Relabelling (plain)

namespace Lexeme

variable {quote : UInt8} {s : Bytes}

/-- A string that is not closed is closed by its quote on the next line. If a backslash stood at the
end, it escapes the line break. -/
theorem string?_close (hq : isQuote quote = true) (h : string? quote s = none) (rest : Bytes) :
    ∃ value text,
      string? quote (s ++ '\n'.toUInt8 :: quote :: rest) = some (value, text, rest) := by
  have hquote : string? quote (quote :: rest) = some ([], [quote], rest) := by
    rw [string?.eq_def]
    exact if_pos (beq_self_eq_true quote)
  have hline : '\n'.toUInt8 ≠ quote := by
    rintro rfl
    exact absurd hq (by decide)
  fun_induction string? quote s with
  | case1 =>
    rw [List.nil_append, string?_plain hline (by decide), hquote]
    exact ⟨_, _, rfl⟩
  | case2 b s hb => cases h
  | case3 b hb hslash =>
    have hslash := beq_iff_eq.mp hslash
    subst hslash
    rw [List.cons_append, List.nil_append, string?_escape (by simpa using hb), hquote]
    exact ⟨_, _, rfl⟩
  | case4 b hb hslash e s ih =>
    have hslash := beq_iff_eq.mp hslash
    subst hslash
    obtain ⟨value, text, hread⟩ := ih (Option.map_eq_none_iff.mp h)
    rw [List.cons_append, List.cons_append, string?_escape (by simpa using hb), hread]
    exact ⟨_, _, rfl⟩
  | case5 b s hb hslash ih =>
    obtain ⟨value, text, hread⟩ := ih (Option.map_eq_none_iff.mp h)
    rw [List.cons_append, string?_plain (by simpa using hb) (by simpa using hslash), hread]
    exact ⟨_, _, rfl⟩

private theorem scan_unterminated {b : UInt8} (h : scan b s = .error .unterminated) :
    isQuote b = true ∧ string? b s = none := by
  obtain ⟨-, hfault⟩ := scan_error_cases h
  have hq : isQuote b = true := by
    by_contra hq
    simp [hq] at hfault
  refine ⟨hq, ?_⟩
  cases hs : string? b s with
  | none => rfl
  | some r =>
    rw [scan_quoted hq hs] at h
    cases h

end Lexeme

namespace Cursor

variable {c c' after : Cursor} {tok : Token}

/-- The tokens from a place on that the parser sees, where they stand and how they are spelled
aside. -/
def seen? (c : Cursor) : Option (List Token) :=
  c.tokens.toOption.map fun toks => (Tokens.ofList toks).ahead.map plain

private theorem seen?_of_done (h : c.step = .done tok after) : c.seen? = some [] := by
  have hk := (step_done h).1
  have htokens : c.tokens = .ok [tok] := by rw [tokens_eq, h]
  simp [seen?, htokens, Except.toOption, Tokens.ofList_ahead, hk]

theorem seen?_of_fail {e : LexicalError} (h : c.step = .fail e after) : c.seen? = none := by
  have htokens : c.tokens = .error e := by rw [tokens_eq, h]
  simp [seen?, htokens, Except.toOption]

/-- What the parser sees of one token. -/
def shown (tok : Token) : List Token :=
  ([tok].filter (·.kind ≠ .newline)).map plain

/-- One token, and what is seen behind it. -/
theorem seen?_of_token (h : c.step = .token tok after) :
    c.seen? = after.seen?.map (shown tok ++ ·) := by
  have hk : tok.kind ≠ .eof := (step_token h).1
  have htokens : c.tokens = after.tokens.map (tok :: ·) := by rw [tokens_eq, h]
  unfold seen?
  rw [htokens]
  cases after.tokens with
  | error e => rfl
  | ok toks =>
    simp only [Except.map, Except.toOption, Option.map_some, Tokens.ofList_ahead, shown]
    by_cases hline : tok.kind = .newline <;> simp [hline, hk]

theorem Reads.seen? {toks : List Token} (h : c.Reads toks c') (t : Bytes) :
    (c.followedBy t).seen? = (c'.followedBy t).seen?.map (toks.flatMap shown ++ ·) := by
  induction h with
  | refl c => simp
  | @step c after c' tok toks hstep hr ih =>
    have hstep' : (c.followedBy t).step = .token tok (after.followedBy t) := by
      rw [step_followedBy (by simp [hstep]), hstep]
      rfl
    rw [seen?_of_token hstep', ih, Option.map_map]
    simp [Function.comp_def]

/-- Steps that differ in where they are taken. -/
inductive Step.Same : Step → Step → Prop
  | done {stop stop' : Token} {after after' : Cursor} : Same (.done stop after) (.done stop' after')
  | token {tok tok' : Token} {after after' : Cursor} (ht : shown tok = shown tok')
      (ha : after.rest = after'.rest) : Same (.token tok after) (.token tok' after')
  | fail {e e' : LexicalError} {after after' : Cursor} : Same (.fail e after) (.fail e' after')

private theorem step_same (h : c.rest = c'.rest) : Step.Same c.step c'.step := by
  unfold step
  rw [h]
  dsimp only
  cases (Lexeme.gap c'.rest).2 with
  | nil => exact .done
  | cons b s =>
    dsimp only
    cases Lexeme.scan b s with
    | ok r =>
      refine .token ?_ rfl
      unfold shown
      by_cases hk : r.1.kind = .newline <;> simp [Lexeme.token, hk, plain]
    | error fault =>
      cases fault with
      | unexpected g => exact .fail
      | unterminated => exact .fail

/-- It does not matter where a text stands. -/
theorem seen?_congr (h : c.rest = c'.rest) : c.seen? = c'.seen? := by
  induction hn : c.rest.length using Nat.strongRecOn generalizing c c' with
  | ind n ih =>
    have hsame := step_same h
    generalize hstep : c.step = s at hsame
    generalize hstep' : c'.step = s' at hsame
    cases hsame with
    | done => rw [seen?_of_done hstep, seen?_of_done hstep']
    | fail => rw [seen?_of_fail hstep, seen?_of_fail hstep']
    | token ht ha =>
      have hlt := step_token_length hstep
      rw [seen?_of_token hstep, seen?_of_token hstep', ht, ih _ (hn ▸ hlt) ha rfl]

/-- Where a string begins, it is seen up to where it is closed, and then what follows. -/
theorem seen?_string {b : UInt8} {s : Bytes} (hs : (Lexeme.gap c.rest).2 = b :: s)
    (hq : Lexeme.isQuote b = true) :
    c.seen? = (Lexeme.string? b s).bind fun (value, _, v) =>
      (PipeCompiler.seen? v).map (Token.shown .string value :: ·) := by
  cases hread : Lexeme.string? b s with
  | none =>
    have hstep : ∃ e after, c.step = .fail e after := by
      simp [step, hs, Lexeme.scan, Lexeme.isLineBreak_of_isQuote hq, hq, hread]
    obtain ⟨e, after, hstep⟩ := hstep
    exact seen?_of_fail hstep
  | some r =>
    obtain ⟨value, text, v⟩ := r
    have hstep : ∃ pos pos', c.step =
        .token ((⟨.string, value, b :: text⟩ : Lexeme).token pos) ⟨v, pos'⟩ := by
      simp [step, hs, Lexeme.scan_quoted hq hread]
    obtain ⟨pos, pos', hstep⟩ := hstep
    have hrest : (⟨v, pos'⟩ : Cursor).seen? = (start v).seen? := seen?_congr rfl
    rw [seen?_of_token hstep, hrest]
    rfl

end Cursor

/-- A text that ends within a string, with more lines behind it: the tokens before the string, the
string, and what follows it. The quote that the string began with closes it. -/
theorem seen?_openString {source : Bytes} {pos : Position}
    (h : tokenize source = .error ⟨.unterminated, pos⟩) :
    ∃ quote ts, Lexeme.isQuote quote = true ∧
      (∃ value, seen? (source ++ ['\n'.toUInt8, quote]) = some (ts ++ [.shown .string value])) ∧
      ∀ rest us, seen? (source ++ '\n'.toUInt8 :: rest) = some us →
        ∃ value v vs, seen? v = some vs ∧ us = ts ++ .shown .string value :: vs := by
  obtain ⟨before, c, after, hreads, hfail⟩ := Cursor.tokens_error h
  obtain ⟨-, b, s, hs, hscan⟩ := Cursor.step_fail hfail
  obtain ⟨hq, hopen⟩ := Lexeme.scan_unterminated hscan
  have hlonger (rest : Bytes) : seen? (source ++ '\n'.toUInt8 :: rest) =
      ((Lexeme.string? b (s ++ '\n'.toUInt8 :: rest)).bind fun (value, _, v) =>
        (seen? v).map (Token.shown .string value :: ·)).map (before.flatMap Cursor.shown ++ ·) := by
    have hgap : (Lexeme.gap (c.followedBy rest).rest).2 = b :: (s ++ '\n'.toUInt8 :: rest) := by
      rw [Cursor.followedBy, Lexeme.gap_lineBreak, hs]
      rfl
    rw [← Cursor.seen?_string hgap hq]
    exact hreads.seen? rest
  refine ⟨b, before.flatMap Cursor.shown, hq, ?_, ?_⟩
  · obtain ⟨value, text, hread⟩ := Lexeme.string?_close hq hopen []
    have hnone : seen? [] = some [] := seen?_of_cut Cut.nil
    refine ⟨value, ?_⟩
    rw [hlonger, hread, Option.bind_some]
    dsimp only
    rw [hnone]
    rfl
  · intro rest us hus
    rw [hlonger, Option.map_eq_some_iff] at hus
    obtain ⟨_, hread, rfl⟩ := hus
    obtain ⟨⟨value, text, v⟩, -, hread⟩ := Option.bind_eq_some_iff.mp hread
    obtain ⟨vs, hvs, rfl⟩ := Option.map_eq_some_iff.mp hread
    exact ⟨value, v, vs, hvs, rfl⟩

end PipeCompiler
