import Mathlib.Data.List.Forall2
import PipeCompiler.Proofs.LongestMatch

/-! Lexemes with spaces between them.

A lexeme that ends where a space or nothing follows is read as itself, so lexemes can be written in
any order with spaces between them, and are read as the same tokens again. What a token of a text
was read from is such a lexeme, whatever stood behind it there. -/
namespace PipeCompiler

/-- All of a token but its position. -/
def Token.unplaced (tok : Token) : Token.Kind × Bytes × Bytes :=
  (tok.kind, tok.literal, tok.raw)

/-- The text is cut into this token and no other, and the token is all of the text. -/
def Token.IsReadFrom (tok : Token) (text : Bytes) : Prop :=
  text ≠ [] ∧ tok.kind ≠ .eof ∧ tok.text = text ∧
    ∃ stop, stop.kind = .eof ∧ tokenize text = .ok [tok, stop]

namespace Lexeme

variable {x : Lexeme} {rest : Bytes}

/-- A lexeme is not read beyond a space. -/
theorem IsLexeme.leads (h : IsLexeme x) (hrest : ∀ b ∈ rest.head?, b = ' ') : x.Leads rest := by
  have hends {p : UInt8 → Prop} (hp : p ' ') : ∀ b ∈ rest.head?, p b := by
    intro b hb
    rw [hrest b hb]
    exact hp
  cases h with
  | lineBreak => exact ⟨_, [], rfl, rfl, not_comment (by decide) _, rfl⟩
  | keyword h =>
    obtain ⟨hname, hkind⟩ := isName_word h
    have hleads := leads_name hname (hends (by decide))
    rwa [hkind] at hleads
  | name h hno =>
    have hleads := leads_name h (hends (by decide))
    rwa [ofName_of_forall_ne hno] at hleads
  | number h => exact leads_number h (hends (by decide))
  | @string quote body value hq h =>
    have hne : quote ≠ '\\' := by
      rintro rfl
      cases hq
    exact leads_string hq (string?_quotes hne h rest)
  | operator h => exact leads_operator_before h (hends (by decide))

theorem IsLexeme.leads_nil (h : IsLexeme x) : x.Leads [] :=
  h.leads (by simp)

theorem IsLexeme.cut (h : IsLexeme x) : Cut x x.text [] := by
  obtain ⟨b, s, htext, -, -, hscan⟩ := h.leads_nil
  have hcut := scan_cut hscan
  rwa [List.append_nil, ← htext] at hcut

end Lexeme

open Lexeme (IsLexeme)

namespace Cursor

variable {c after : Cursor} {tok : Token}

theorem tokens_isLexeme {toks : List Token} (h : c.tokens = .ok toks) (htok : tok ∈ toks)
    (hkind : tok.kind ≠ .eof) : ∃ x pos, IsLexeme x ∧ tok = x.token pos := by
  obtain ⟨-, -, c', after, -, -, hstep | hstep⟩ := tokens_mem h htok
  · obtain ⟨b, s, x, rest, -, hscan, rfl, -⟩ := step_token_cases hstep
    exact ⟨x, _, Lexeme.isLexeme_scan hscan, rfl⟩
  · exact absurd (step_done hstep).1 hkind

end Cursor

/-- What the lexer reads from a lexeme that stands alone. -/
theorem Lexeme.IsLexeme.isReadFrom {x : Lexeme} (h : IsLexeme x) :
    (x.token .start).IsReadFrom x.text := by
  obtain ⟨stop, hlast, hstop, -⟩ := Cursor.tokens_nil (Position.start.advance x.text)
  have hstep := h.leads_nil.step .start
  rw [List.append_nil] at hstep
  refine ⟨h.cut.ne_nil, h.cut.kind, h.cut.token_text .start, stop, hstop, ?_⟩
  rw [tokenize, Cursor.start, Cursor.tokens_eq, hstep]
  dsimp only
  rw [hlast]
  rfl

theorem Token.IsReadFrom.isLexeme {tok : Token} {text : Bytes} (h : tok.IsReadFrom text) :
    ∃ x, IsLexeme x ∧ x.text = text ∧ (x.token .start).unplaced = tok.unplaced := by
  obtain ⟨-, hkind, htext, stop, -, htoks⟩ := h
  obtain ⟨x, pos, hx, rfl⟩ := Cursor.tokens_isLexeme htoks List.mem_cons_self hkind
  exact ⟨x, hx, (hx.cut.token_text pos).symm.trans htext, rfl⟩

/-- Lexemes with one space between any two of them. -/
def Lexeme.spaced (xs : List Lexeme) : Bytes :=
  List.intercalate " " (xs.map Lexeme.text)

/-- Wherever spaced lexemes stand, they are read one by one up to the end of input. -/
theorem Cursor.tokens_spaced {xs : List Lexeme} (h : ∀ x ∈ xs, IsLexeme x) (pos : Position) :
    ∃ toks stop, (Cursor.mk (Lexeme.spaced xs) pos).tokens = .ok (toks ++ [stop]) ∧
      toks.map Token.unplaced = xs.map (fun x => (x.token .start).unplaced) ∧
      stop.unplaced = (.eof, [], []) := by
  induction xs generalizing pos with
  | nil =>
    obtain ⟨stop, hlast, hkind, hliteral, hraw⟩ := tokens_nil pos
    exact ⟨[], stop, hlast, rfl, by rw [Token.unplaced, hkind, hliteral, hraw]⟩
  | cons x xs ih =>
    -- What stands behind the first lexeme is nothing or a space, and is read as the others are.
    obtain ⟨rest, htext, hrest, hreads⟩ : ∃ rest, Lexeme.spaced (x :: xs) = x.text ++ rest ∧
        (∀ b ∈ rest.head?, b = ' ') ∧ ∀ pos, ∃ pos', (Cursor.mk rest pos).tokens =
          (Cursor.mk (Lexeme.spaced xs) pos').tokens := by
      cases xs with
      | nil => exact ⟨[], by simp [Lexeme.spaced], by simp, fun pos => ⟨pos, rfl⟩⟩
      | cons y ys =>
        refine ⟨' ' :: Lexeme.spaced (y :: ys), ?_, by simp, fun pos => ⟨_, tokens_space _ pos⟩⟩
        rw [Lexeme.spaced, List.map_cons, List.map_cons, List.intercalate_cons_cons,
          List.append_assoc]
        rfl
    have hleads := (h x List.mem_cons_self).leads hrest
    obtain ⟨pos', hbehind⟩ := hreads (pos.advance x.text)
    obtain ⟨toks, stop, htoks, hcontent, hstop⟩ := ih (fun y hy => h y (.tail _ hy)) pos'
    refine ⟨x.token pos :: toks, stop, ?_, ?_, hstop⟩
    · rw [htext, tokens_eq, hleads.step]
      dsimp only
      rw [hbehind, htoks]
      rfl
    · rw [List.map_cons, List.map_cons, hcontent]
      rfl

theorem Token.IsReadFrom.spaced {texts : List Bytes} {toks : List Token}
    (h : List.Forall₂ (fun text tok => tok.IsReadFrom text) texts toks) :
    ∃ xs : List Lexeme, (∀ x ∈ xs, IsLexeme x) ∧ xs.map Lexeme.text = texts ∧
      xs.map (fun x => (x.token .start).unplaced) = toks.map Token.unplaced := by
  induction h with
  | nil => exact ⟨[], by simp, rfl, rfl⟩
  | @cons text tok texts toks hread _ ih =>
    obtain ⟨x, hx, htext, hcontent⟩ := hread.isLexeme
    obtain ⟨xs, hxs, htexts, hcontents⟩ := ih
    refine ⟨x :: xs, List.forall_mem_cons.mpr ⟨hx, hxs⟩, ?_, ?_⟩
    · rw [List.map_cons, htext, htexts]
    · rw [List.map_cons, List.map_cons, hcontent, hcontents]

/-- Texts that are one token each can be written in any order with spaces between them: exactly
their tokens are read then. And the text of every token of an accepted source is such a text,
whatever followed it there. -/
theorem lexemes_respaced :
    (∀ texts toks, List.Forall₂ (fun text tok => Token.IsReadFrom tok text) texts toks →
      ∃ toks' stop, tokenize (List.intercalate " " texts) = .ok (toks' ++ [stop]) ∧
        toks'.map Token.unplaced = toks.map Token.unplaced ∧ stop.unplaced = (.eof, [], [])) ∧
    ∀ source toks, tokenize source = .ok toks → ∀ tok ∈ toks, tok.kind ≠ .eof →
      ∃ tok' : Token, tok'.IsReadFrom tok.text ∧ tok'.unplaced = tok.unplaced := by
  constructor
  · intro texts toks h
    obtain ⟨xs, hxs, rfl, hcontents⟩ := Token.IsReadFrom.spaced h
    obtain ⟨toks', stop, htoks, hcontent, hstop⟩ := Cursor.tokens_spaced hxs .start
    exact ⟨toks', stop, htoks, hcontent.trans hcontents, hstop⟩
  · intro source toks h tok htok hkind
    obtain ⟨x, pos, hx, rfl⟩ := Cursor.tokens_isLexeme h htok hkind
    rw [hx.cut.token_text]
    exact ⟨x.token .start, hx.isReadFrom, rfl⟩

/-- A string with an escaped quote and a byte that is no character. -/
def Lexeme.strayByte : Bytes := ['"', '\\', '"', 0xFF, '"']

/-- Slashes that are no comment and operators that are not put together, for the space between
them. -/
theorem lexemes_respaced_slashes :
    (∃ toks stop, tokenize (List.intercalate " " ["/", "/", Lexeme.strayByte, "\n", "|", "|>"]) =
        .ok (toks ++ [stop]) ∧
      toks.map Token.unplaced = [⟨.slash, "/", []⟩, ⟨.slash, "/", []⟩,
        ⟨.string, ['"', 0xFF], Lexeme.strayByte⟩, ⟨.newline, "\n", []⟩, ⟨.bar, "|", []⟩,
        ⟨.pipe, "|>", []⟩] ∧ stop.unplaced = ⟨.eof, [], []⟩) ∧
    ∃ tok : Token, tok.IsReadFrom "||" ∧ tok.unplaced = ⟨.or, "||", []⟩ := by
  have hslash : Token.IsReadFrom ⟨.slash, "/", [], ⟨1, 1⟩⟩ "/" :=
    ⟨by decide, by decide, by decide, ⟨.eof, [], [], ⟨1, 2⟩⟩, rfl, by decide +kernel⟩
  have hstring : Token.IsReadFrom ⟨.string, ['"', 0xFF], Lexeme.strayByte, ⟨1, 1⟩⟩
      Lexeme.strayByte :=
    ⟨by decide, by decide, by decide, ⟨.eof, [], [], ⟨1, 6⟩⟩, rfl, by decide +kernel⟩
  have hline : Token.IsReadFrom ⟨.newline, "\n", [], ⟨1, 1⟩⟩ "\n" :=
    ⟨by decide, by decide, by decide, ⟨.eof, [], [], ⟨2, 1⟩⟩, rfl, by decide +kernel⟩
  have hbar : Token.IsReadFrom ⟨.bar, "|", [], ⟨1, 1⟩⟩ "|" :=
    ⟨by decide, by decide, by decide, ⟨.eof, [], [], ⟨1, 2⟩⟩, rfl, by decide +kernel⟩
  have hpipe : Token.IsReadFrom ⟨.pipe, "|>", [], ⟨1, 1⟩⟩ "|>" :=
    ⟨by decide, by decide, by decide, ⟨.eof, [], [], ⟨1, 3⟩⟩, rfl, by decide +kernel⟩
  have htoks : tokenize "|||>f" = .ok [⟨.or, "||", [], ⟨1, 1⟩⟩, ⟨.pipe, "|>", [], ⟨1, 3⟩⟩,
      ⟨.ident, "f", [], ⟨1, 5⟩⟩, ⟨.eof, [], [], ⟨1, 6⟩⟩] := by decide +kernel
  exact ⟨lexemes_respaced.1 _ _ (.cons hslash (.cons hslash (.cons hstring (.cons hline
      (.cons hbar (.cons hpipe .nil)))))),
    lexemes_respaced.2 _ _ htoks _ List.mem_cons_self (by decide)⟩

end PipeCompiler
