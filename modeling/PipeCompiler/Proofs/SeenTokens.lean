import PipeCompiler.Proofs.ParserCompleteness
import PipeCompiler.Proofs.ParserSoundness
import PipeCompiler.Proofs.LexicalText
import PipeCompiler.Proofs.LineShift
import PipeCompiler.Proofs.Layout
import PipeCompiler.Proofs.PrintedExpressions

/-! The tokens that the parser sees of a text.

A parser sees neither line breaks nor where tokens stand and how they are spelled. What is left of a
text are its `seen?` tokens. They are known for a text that is put together from known pieces
(`Cut`), line by line, and they decide which program the text is. -/
namespace PipeCompiler

open Grammar
open Token.Relabelling (plain linesDown)

/-- A token of which only the kind and the literal matter. -/
def Token.shown (kind : Token.Kind) (literal : Bytes) : Token :=
  ⟨kind, literal, [], .start⟩

@[simp] theorem Token.shown_kind (kind : Token.Kind) (literal : Bytes) :
    (shown kind literal).kind = kind := rfl

@[simp] theorem Token.shown_literal (kind : Token.Kind) (literal : Bytes) :
    (shown kind literal).literal = literal := rfl

/-- Before `rest` the text is cut into these tokens, which the parser sees. -/
structure Cut (text : Bytes) (ts : List Token) (rest : Bytes) : Prop where
  lexes : Lexes text (fun us => us.map plain = ts) rest
  inPhrases : ∀ tok ∈ ts, tok.InPhrases

namespace Cut

variable {s t rest : Bytes} {ts us : List Token} {kind : Token.Kind} {literal : Bytes}

theorem nil : Cut [] [] rest := ⟨Lexes.nil rfl, nofun⟩

theorem append (hs : Cut s ts (t ++ rest)) (ht : Cut t us rest) : Cut (s ++ t) (ts ++ us) rest := by
  constructor
  · apply Lexes.append hs.lexes
    intro vs hvs
    apply ht.lexes.mono
    intro ws hws
    rw [List.map_append, hvs, hws]
  · exact List.forall_mem_append.mpr ⟨hs.inPhrases, ht.inPhrases⟩

theorem token (h : Lexes s (IsToken kind literal) rest) (hk : kind ≠ .newline ∧ kind ≠ .eof) :
    Cut s [.shown kind literal] rest := by
  constructor
  · apply h.last
    intro tok hk hl
    rw [List.map_singleton, ← hk, ← hl]
    rfl
  · intro tok htok
    cases List.mem_singleton.mp htok
    exact hk

theorem cons (h : Lexes s (IsToken kind literal) (t ++ rest)) (hk : kind ≠ .newline ∧ kind ≠ .eof)
    (ht : Cut t us rest) : Cut (s ++ t) (.shown kind literal :: us) rest :=
  append (token h hk) ht

theorem blank (h : Cut t us rest) : Cut (" " ++ t) us rest :=
  ⟨Lexes.blank h.lexes, h.inPhrases⟩

end Cut

/-- The tokens of a text that the parser sees, where they stand and how they are spelled aside. -/
def seen? (text : Bytes) : Option (List Token) :=
  (tokenize text).toOption.map fun toks => (Tokens.ofList toks).ahead.map plain

theorem seen?_eq_some {text : Bytes} {ts : List Token} :
    seen? text = some ts ↔
      ∃ toks, tokenize text = .ok toks ∧ (Tokens.ofList toks).ahead.map plain = ts := by
  unfold seen?
  cases tokenize text with
  | error e => simp [Except.toOption]
  | ok toks => simp [Except.toOption]

/-- The parser sees the tokens of a text and then those of the next lines, as many lines further
down as the text has. -/
theorem Tokens.ofList_nextLine {s t : Bytes} {toks more : List Token} (hs : tokenize s = .ok toks)
    (ht : tokenize t = .ok more) :
    ∃ all, tokenize (s ++ '\n'.toUInt8 :: t) = .ok all ∧
      (ofList all).ahead = (ofList toks).ahead ++
        (ofList more).ahead.map (linesDown (s.count '\n'.toUInt8 + 1)) := by
  obtain ⟨body, stop, rfl, hall⟩ := tokenize_nextLine hs t
  obtain ⟨hstop, hbody⟩ := Cursor.tokens_concat hs
  obtain ⟨body', stop', rfl, hstop', hbody'⟩ := Cursor.tokens_end ht
  rw [ht] at hall
  generalize (s.count '\n'.toUInt8 + 1 : Int) = n at hall ⊢
  refine ⟨_, hall, ?_⟩
  have hshown : body ++ Cursor.lineBreak stop.pos :: (body' ++ [stop']).map (linesDown n) =
      (body ++ Cursor.lineBreak stop.pos :: body'.map (linesDown n)) ++ [linesDown n stop'] := by
    simp
  have hkinds : ∀ tok ∈ body ++ Cursor.lineBreak stop.pos :: body'.map (linesDown n),
      tok.kind ≠ .eof := by
    simp only [List.forall_mem_append, List.forall_mem_cons, List.forall_mem_map,
      Token.Relabelling.kind_map]
    exact ⟨hbody, nofun, hbody'⟩
  have hlast : (linesDown n stop').kind = .eof := hstop'
  dsimp only
  rw [hshown, ofList_end hlast hkinds, ofList_end hstop hbody, ofList_end hstop' hbody']
  simp [List.filter_map, Function.comp_def, Cursor.lineBreak]

/-- The parser sees one line after the other. -/
theorem seen?_nextLine {s t : Bytes} {ts us : List Token} (hs : seen? s = some ts)
    (ht : seen? t = some us) : seen? (s ++ '\n'.toUInt8 :: t) = some (ts ++ us) := by
  obtain ⟨toks, htoks, rfl⟩ := seen?_eq_some.mp hs
  obtain ⟨more, hmore, rfl⟩ := seen?_eq_some.mp ht
  obtain ⟨all, hall, hahead⟩ := Tokens.ofList_nextLine htoks hmore
  refine seen?_eq_some.mpr ⟨all, hall, ?_⟩
  rw [hahead, List.map_append, List.map_map]
  rfl

/-- What is seen of the lines behind a text of which the tokens are known. -/
theorem seen?_moreLines {s : Bytes} {ts : List Token} (hs : seen? s = some ts) (t : Bytes) :
    seen? (s ++ '\n'.toUInt8 :: t) = (seen? t).map (ts ++ ·) := by
  cases ht : seen? t with
  | some us => exact seen?_nextLine hs ht
  | none =>
    obtain ⟨toks, htoks, -⟩ := seen?_eq_some.mp hs
    obtain ⟨body, stop, -, hall⟩ := tokenize_nextLine htoks t
    unfold seen? at ht ⊢
    rw [hall]
    cases hmore : tokenize t with
    | error e => rfl
    | ok more => simp [hmore, Except.toOption] at ht

theorem seen?_of_cut {text : Bytes} {us : List Token} (h : Cut text us []) :
    seen? text = some us := by
  obtain ⟨hlexes, hus⟩ := h
  obtain ⟨ts, pos, rfl, hrun⟩ := hlexes .start
  obtain ⟨stop, hlast, hstop, -⟩ := Cursor.tokens_nil pos
  rw [List.append_nil, hlast] at hrun
  rw [List.forall_mem_map] at hus
  have hkept : ts.filter (·.kind ≠ .newline) = ts := by
    apply List.filter_eq_self.mpr
    intro tok htok
    simpa using (hus tok htok).1
  refine seen?_eq_some.mpr ⟨ts ++ [stop], hrun, ?_⟩
  rw [Tokens.ofList_end hstop fun tok htok => (hus tok htok).2, hkept]

/-- A text of which the parser sees the tokens of a program is this program, wherever the tokens
stand in the text. -/
theorem parse_of_seen {source : Bytes} {ts : List Token} {body : List Stmt}
    (hseen : seen? source = some ts) (h : Greedy (.statements body) ts .eof) :
    ∃ p, Program.parse source = .ok p ∧ p.relabel plain = ⟨body⟩ := by
  obtain ⟨toks, htoks, rfl⟩ := seen?_eq_some.mp hseen
  have hstop : (plain (Tokens.ofList toks).stop).kind = .eof := Tokens.ofList_stop toks
  have hrun : Parser.program ((Tokens.ofList toks).relabel plain) = _ := h.program hstop
  rw [Parser.program_commutes plain (Tokens.ofList_stop toks)] at hrun
  cases hp : Parser.program (Tokens.ofList toks) with
  | error e rest => simp [hp, Parser.relabelled] at hrun
  | ok p rest =>
    have hparse := Tokens.parse_eq_ok.mpr ⟨rest, hp⟩
    refine ⟨p, Program.parse_eq_ok.mpr ⟨toks, htoks, hparse⟩, ?_⟩
    rw [hp] at hrun
    injection hrun

/-- However the tokens of a program are labelled, the program labelled so is read from them. -/
theorem Tokens.greedy_relabel {toks : List Token} {p : Program} (f : Token.Relabelling)
    (h : (ofList toks).parse.1 = .ok p) :
    Greedy (.statements (p.relabel f).body) ((ofList toks).ahead.map f) .eof := by
  obtain ⟨rest, hrun⟩ := Tokens.parse_eq_ok.mp h
  have hlabelled := Parser.program_commutes f (ofList_stop toks)
  rw [hrun] at hlabelled
  have hkinds : ∀ tok ∈ ((ofList toks).relabel f).ahead, tok.kind ≠ .eof := by
    refine List.forall_mem_map.mpr fun tok htok => ?_
    rw [f.kind_map]
    exact kind_ne_eof htok
  have hstop : ((ofList toks).relabel f).stop.kind = .eof := by
    rw [Tokens.relabel, f.kind_map]
    exact ofList_stop toks
  exact (Parser.program_greedy hstop hkinds hlabelled).2

/-- The program that a text is, is read from the tokens that the parser sees. -/
theorem greedy_of_parse {source : Bytes} {p : Program} (h : Program.parse source = .ok p) :
    ∃ ts, seen? source = some ts ∧ Greedy (.statements (p.relabel plain).body) ts .eof := by
  obtain ⟨toks, htoks, hp⟩ := Program.parse_eq_ok.mp h
  exact ⟨_, seen?_eq_some.mpr ⟨toks, htoks, rfl⟩, Tokens.greedy_relabel plain hp⟩

end PipeCompiler
