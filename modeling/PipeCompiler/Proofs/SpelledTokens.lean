import PipeCompiler.Proofs.DiagnosticPlaces
import PipeCompiler.Proofs.PrintedTokens
import PipeCompiler.Proofs.ScaffoldedProgram

/-! Tokens that can be written down.

Every token of a text can be written on a line of its own, so the tokens of a text can be taken
apart and put together again in any way, and there is a text of which the parser sees just these. -/
namespace PipeCompiler

open Token.Relabelling (plain)

/-- There is a text of which the parser sees this token and no other. -/
def Token.IsSpelled (tok : Token) : Prop :=
  ∃ text, seen? text = some [tok]

/-- Each of the tokens can be written down. -/
def Spelled (ts : List Token) : Prop :=
  ∀ tok ∈ ts, tok.IsSpelled

namespace Spelled

variable {ts us : List Token}

theorem nil : Spelled [] := nofun

theorem append (ht : Spelled ts) (hu : Spelled us) : Spelled (ts ++ us) :=
  List.forall_mem_append.mpr ⟨ht, hu⟩

/-- One line for each token. -/
theorem exists_text (h : Spelled ts) : ∃ text, seen? text = some ts := by
  induction ts with
  | nil => exact ⟨[], seen?_of_cut Cut.nil⟩
  | cons tok ts ih =>
    obtain ⟨htok, hts⟩ := List.forall_mem_cons.mp h
    obtain ⟨line, hline⟩ := htok
    obtain ⟨lines, hlines⟩ := ih hts
    exact ⟨_, seen?_nextLine hline hlines⟩

end Spelled

section Forms

variable {kind : Token.Kind} {s : Bytes}

theorem isSpelled_of_lexes (h : Lexes s (IsToken kind s) []) (hk : kind ≠ .newline ∧ kind ≠ .eof) :
    (Token.shown kind s).IsSpelled :=
  ⟨s, seen?_of_cut (.token h hk)⟩

theorem isSpelled_fixed {text : String}
    (h : (text, kind) ∈ Token.Kind.operators ++ Token.Kind.words) :
    (Token.shown kind text).IsSpelled := by
  apply isSpelled_of_lexes _ (Token.Kind.inPhrases h)
  rcases List.mem_append.mp h with hop | hword
  · exact lexes_operator_before hop nofun
  · exact lexes_word text kind hword nofun

private theorem isSpelled_string (value : Bytes) : (Token.shown .string value).IsSpelled :=
  ⟨_, seen?_of_cut (.token (Scaffold.lexes_quote value []) (by decide))⟩

/-- A token of the kind, spelled as its kind is. Any name will do for a name. -/
def Token.sample (kind : Token.Kind) : Token :=
  match (Token.Kind.operators ++ Token.Kind.words).find? (·.2 = kind) with
  | some (text, _) => .shown kind text
  | none => .shown kind "x"

@[simp] theorem Token.sample_kind (kind : Token.Kind) : (Token.sample kind).kind = kind := by
  unfold sample
  split <;> rfl

set_option maxRecDepth 2000 in
theorem isSpelled_sample
    (h : kind = .ident ∨ ∃ x ∈ Token.Kind.operators ++ Token.Kind.words, x.2 = kind) :
    (Token.sample kind).IsSpelled := by
  unfold Token.sample
  rcases h with rfl | ⟨x, hx, rfl⟩
  · exact isSpelled_of_lexes (lexes_name (by decide) nofun) (by decide)
  · split
    · rename_i text kind hfind
      have hkind : kind = x.2 := by simpa using List.find?_some hfind
      exact isSpelled_fixed (hkind ▸ List.mem_of_find?_eq_some hfind)
    · rename_i hnone
      exact absurd (List.find?_eq_none.mp hnone x hx) (by simp)

/-- Every token that the lexer makes can be written down alone. -/
theorem Token.WellSpelled.isSpelled {tok : Token} (h : tok.WellSpelled)
    (hk : tok.kind.isLexical = true) (hin : tok.InPhrases) : (plain tok).IsSpelled := by
  have hplain : plain tok = .shown tok.kind tok.literal := rfl
  have hforms : tok.kind ∈ [.ident, .number, .string] ∨
      ∃ x ∈ Token.Kind.operators ++ Token.Kind.words, x.2 = tok.kind := by
    obtain ⟨hline, hend⟩ := hin
    revert hk hline hend
    generalize tok.kind = kind
    cases kind with
    | other name => exact nofun
    | _ => decide
  rw [hplain]
  rcases hforms with hform | ⟨⟨text, kind⟩, hmem, hkind⟩
  · simp only [List.mem_cons, List.not_mem_nil, or_false] at hform
    rcases hform with hkind | hkind | hkind
    · obtain ⟨hname, hword⟩ := h.name hkind
      rw [hkind, ← hword]
      exact isSpelled_of_lexes (lexes_name hname nofun) (by simp [hword])
    · rw [hkind]
      exact isSpelled_of_lexes (lexes_number (h.number hkind) nofun) (by decide)
    · rw [hkind]
      exact isSpelled_string _
  · dsimp only at hkind
    subst hkind
    have hliteral : tok.literal = text := by
      rcases List.mem_append.mp hmem with hop | hword
      · exact h.operator text hop
      · exact h.word text hword
    rw [hliteral]
    exact isSpelled_fixed hmem

end Forms

theorem spelled_of_seen {text : Bytes} {ts : List Token} (h : seen? text = some ts) :
    Spelled ts := by
  obtain ⟨toks, htoks, rfl⟩ := seen?_eq_some.mp h
  obtain ⟨body, stop, rfl, hstop, hbody⟩ := Cursor.tokens_end htoks
  rw [Tokens.ofList_end hstop hbody]
  intro tok htok
  obtain ⟨tok, hmem, rfl⟩ := List.mem_map.mp htok
  obtain ⟨hmem, hline⟩ := List.mem_filter.mp hmem
  have hin : tok ∈ body ++ [stop] := List.mem_append_left _ hmem
  obtain ⟨_, _, _, _, -, -, hstep⟩ := Cursor.tokens_mem htoks hin
  have hspelled := Cursor.tokens_wellSpelled htoks tok hin
  exact hspelled.isSpelled (Cursor.step_text hstep).2.1 ⟨by simpa using hline, hbody tok hmem⟩

end PipeCompiler
