import PipeCompiler.Proofs.ParserSoundness
import PipeCompiler.Proofs.ParserStability

/-! Parsers move on and come to an end.

What is behind the end of input is hidden from parsers: whether it is there or not, they run alike.
Whether they succeed or fail, they take tokens off the front and leave all others in place. So every
loop and every nested phrase has fewer tokens before it than the one before, and bounds that cover
the tokens are never reached. -/
namespace PipeCompiler

open PipeCompiler.Parser
open Tokens (before)

/-- The tokens with others behind their end of input, which is then one of the tokens ahead. -/
def Tokens.covering (hidden : Option Tokens) (ts : Tokens) : Tokens :=
  match hidden with
  | none => ts
  | some others => ⟨ts.ahead ++ ts.stop :: others.ahead, others.stop⟩

/-- The same tokens, their end of input, and what is hidden behind it. -/
def Continuation.covering (hidden : Option Tokens) (stop : Token) : Continuation where
  labels := .identity
  more := Tokens.covering hidden ⟨[], stop⟩

section Covering

variable {hidden : Option Tokens} {ts rest : Tokens}

theorem Continuation.tokens_covering (ts : Tokens) :
    (covering hidden ts.stop).tokens ts = ts.covering hidden := by
  cases hidden with
  | none => simp [tokens, covering, Tokens.covering, Token.Relabelling.identity]
  | some others => simp [tokens, covering, Tokens.covering, Token.Relabelling.identity]

theorem Continuation.ends_covering : (covering hidden ts.stop).Ends ts := by
  cases hidden <;> rfl

private theorem Tokens.current_covering : (ts.covering hidden).current = ts.current := by
  rw [← Continuation.tokens_covering]
  exact Continuation.current_tokens (.inr Continuation.ends_covering)

namespace Parser

variable {α : Type} {piped : Prop} {least : Nat} {g : α → α} {m m' : Parser α}

/-- What a run comes to, with tokens hidden behind those that are left. -/
def leaving (hidden : Option Tokens) :
    EStateM.Result GrammarError Tokens α → EStateM.Result GrammarError Tokens α
  | .ok a rest => .ok a (rest.covering hidden)
  | .error e rest => .error e (rest.covering hidden)

private theorem leaving_eq_ok {result : EStateM.Result GrammarError Tokens α} {a : α} :
    leaving hidden result = .ok a rest ↔
      ∃ left, result = .ok a left ∧ left.covering hidden = rest := by
  cases result with
  | ok b left => simp [leaving, and_assoc]
  | error e left => simp [leaving]

theorem Agrees.run_covering (h : Agrees (.covering hidden ts.stop) piped least g ts m m')
    (hg : ∀ a, g a = a) (hstop : ts.stop.kind = .eof) :
    m' (ts.covering hidden) = leaving hidden (m ts) := by
  have hrun := h.run_eq hstop Continuation.ends_covering
  rw [Continuation.tokens_covering] at hrun
  rw [hrun]
  cases hm : m ts with
  | ok a rest =>
    obtain ⟨used, rfl, -⟩ := (h hstop).1 a rest hm
    rw [Continuation.outcome, leaving, hg]
    exact congrArg (EStateM.Result.ok a) (Continuation.tokens_covering rest)
  | error e rest =>
    obtain ⟨used, rfl, -⟩ := (h hstop).2 e rest hm
    exact congrArg (EStateM.Result.error e) (Continuation.tokens_covering rest)

/-- Reading a program comes to its end before anything that is nested deeper than there are tokens
is asked for. -/
theorem program_layered (hidden : Option Tokens) (innermost : Phrases) {n bound : Nat}
    (hn : ts.ahead.length ≤ n) (hb : ts.ahead.length ≤ bound) (hstop : ts.stop.kind = .eof) :
    programOf (innermost.layered (n + 1)) bound (ts.covering hidden) =
      leaving hidden (program ts) := by
  obtain ⟨k, rfl⟩ := Nat.exists_eq_add_of_le' hn
  have hin := Phrases.agree_layered (.covering hidden ts.stop) (innermost.layered k)
    ts.ahead.length
  rw [Phrases.layered_add, ← Nat.add_assoc] at hin
  exact (programOf_agrees hin hb).run_covering Program.relabel_identity hstop

/-- What is behind the end of input changes nothing. -/
theorem program_covering (hidden : Option Tokens) (hstop : ts.stop.kind = .eof) :
    program (ts.covering hidden) = leaving hidden (program ts) :=
  (program_agrees (.covering hidden ts.stop) ts).run_covering Program.relabel_identity hstop

end Parser

private theorem Tokens.parse_covering (hidden : Option Tokens) (hstop : ts.stop.kind = .eof) :
    (ts.covering hidden).parse = (ts.parse.1, ts.parse.2.covering hidden) := by
  rw [parse, parse, program_covering hidden hstop]
  cases program ts <;> rfl

end Covering

namespace Tokens

variable {toks : List Token} {cursor : Nat}

/-- The tokens of a list that parsers look at. -/
def kept (toks : List Token) : List Token :=
  toks.filter (·.kind ≠ .newline)

/-- Where the first end of input stands, or would stand if there were one behind all tokens. -/
def firstEnd (toks : List Token) : Nat :=
  (kept toks).findIdx (·.kind = .eof)

/-- A parser for a list of tokens of which `cursor` are read. -/
def behind (toks : List Token) (cursor : Nat) : Tokens :=
  ⟨((kept toks).take (firstEnd toks)).drop cursor, (ofList toks).stop⟩

theorem ofList_eq_behind (toks : List Token) : ofList toks = behind toks 0 := by
  have hahead : (ofList toks).ahead = (kept toks).take (firstEnd toks) := by
    rw [ofList_ahead, ← takeWhile_filter, List.takeWhile_eq_take_findIdx_not]
    simp [firstEnd, kept]
  exact congrArg (Tokens.mk · (ofList toks).stop) hahead

/-- The end that parsers see is the first one of the list, if the list has one. -/
theorem stop_eq_of_getElem? {tok : Token} (h : (kept toks)[firstEnd toks]? = some tok) :
    (ofList toks).stop = tok := by
  have hdrop : (kept toks).dropWhile (·.kind ≠ .eof) = (kept toks).drop (firstEnd toks) := by
    rw [List.dropWhile_eq_drop_findIdx_not]
    simp [firstEnd]
  obtain ⟨hlt, hget⟩ := List.getElem?_eq_some_iff.mp h
  rw [List.drop_eq_getElem_cons hlt, hget] at hdrop
  have hlist : toks.filter (·.kind ≠ .newline) = kept toks := rfl
  simp only [ofList, hlist, hdrop]

@[simp] theorem behind_stop (toks : List Token) (cursor : Nat) :
    (behind toks cursor).stop.kind = .eof := ofList_stop toks

theorem length_take_firstEnd (toks : List Token) :
    ((kept toks).take (firstEnd toks)).length = firstEnd toks :=
  List.length_take_of_le List.findIdx_le_length

@[simp] theorem behind_length (toks : List Token) (cursor : Nat) :
    (behind toks cursor).ahead.length = firstEnd toks - cursor := by
  rw [behind, List.length_drop, length_take_firstEnd]

/-- Reading tokens moves the cursor. -/
theorem behind_eq_before {used : List Token} {rest : Tokens} (hc : cursor ≤ firstEnd toks)
    (h : behind toks cursor = before used rest) :
    rest = behind toks (cursor + used.length) ∧ cursor + used.length ≤ firstEnd toks := by
  have hahead : ((kept toks).take (firstEnd toks)).drop cursor = used ++ rest.ahead :=
    congrArg ahead h
  have hstop : (behind toks cursor).stop = (before used rest).stop := congrArg Tokens.stop h
  have hlength := congrArg List.length hahead
  rw [List.length_drop, length_take_firstEnd, List.length_append] at hlength
  refine ⟨?_, by omega⟩
  rw [behind, ← List.drop_drop, hahead, List.drop_left]
  exact congrArg (Tokens.mk rest.ahead) hstop.symm

/-- The end of input that closes a list. -/
def lastEnd (toks : List Token) : Option Token :=
  (kept toks).getLast?.filter (·.kind = .eof)

/-- All tokens of a list of which `cursor` are read, those behind the first end of input too. -/
def whole (toks : List Token) (cursor : Nat) : Tokens :=
  match lastEnd toks with
  | some stop => ⟨(kept toks).dropLast.drop cursor, stop⟩
  | none => ⟨(kept toks).drop cursor, stopAfter (kept toks)⟩

private theorem kept_eq (toks : List Token) :
    kept toks = (ofList toks).ahead ∧ (ofList toks).stop = stopAfter (kept toks) ∨
      ∃ more, kept toks = (ofList toks).ahead ++ (ofList toks).stop :: more := by
  have hsplit := (kept toks).takeWhile_append_dropWhile (p := (·.kind ≠ .eof))
  have hlist : toks.filter (·.kind ≠ .newline) = kept toks := rfl
  simp only [ofList, hlist]
  cases hdrop : (kept toks).dropWhile (·.kind ≠ .eof) with
  | nil => exact .inl ⟨rfl, rfl⟩
  | cons stop more =>
    rw [hdrop] at hsplit
    exact .inr ⟨more, hsplit.symm⟩

theorem behind_eq_drop (toks : List Token) (cursor : Nat) :
    behind toks cursor = ⟨(ofList toks).ahead.drop cursor, (ofList toks).stop⟩ := by
  have hahead := congrArg ahead (ofList_eq_behind toks)
  rw [hahead, behind, behind, List.drop_zero]

/-- Parsers for a list of tokens, one for each place of the cursor, with the same tokens hidden
behind the first end of input. -/
def Shows (toks : List Token) (shown : Nat → Tokens) : Prop :=
  ∃ hidden, ∀ cursor ≤ firstEnd toks, shown cursor = (behind toks cursor).covering hidden

private theorem shows_behind (toks : List Token) :
    Shows toks (behind toks) := ⟨none, fun _ _ => rfl⟩

/-- What parsers see of a list is all of it but what is behind the first end of input. -/
theorem shows_whole (toks : List Token) : Shows toks (whole toks) := by
  have hdrop {cursor : Nat} (hc : cursor ≤ firstEnd toks) (more : List Token) :
      ((ofList toks).ahead ++ more).drop cursor = (behind toks cursor).ahead ++ more := by
    have hlength : (ofList toks).ahead.length = firstEnd toks := by
      rw [ofList_eq_behind, behind_length, Nat.sub_zero]
    rw [behind_eq_drop, List.drop_append_of_le_length (hlength.symm ▸ hc)]
  rcases kept_eq toks with ⟨hkept, hstop⟩ | ⟨more, hkept⟩
  · -- There is no end of input.
    have hlast : lastEnd toks = none := by
      rw [lastEnd, Option.filter_eq_none_iff]
      intro tok htok
      rw [hkept] at htok
      simpa using kind_ne_eof (List.mem_of_getLast? htok)
    refine ⟨none, fun cursor _ => ?_⟩
    rw [behind_eq_drop, whole, hlast, hstop, ← hkept]
    rfl
  · rcases List.eq_nil_or_concat more with rfl | ⟨more, last, rfl⟩
    · -- The first end of input is the last token.
      have hlast : lastEnd toks = some (ofList toks).stop := by
        rw [lastEnd, hkept, List.getLast?_concat]
        simp [ofList_stop]
      refine ⟨none, fun cursor _ => ?_⟩
      rw [behind_eq_drop, whole, hlast, hkept, List.dropLast_concat]
      rfl
    · rw [List.concat_eq_append, ← List.cons_append, ← List.append_assoc] at hkept
      by_cases hend : last.kind = .eof
      · have hlast : lastEnd toks = some last := by
          rw [lastEnd, hkept, List.getLast?_concat]
          simp [hend]
        refine ⟨some ⟨more, last⟩, fun cursor hc => ?_⟩
        rw [whole, hlast, hkept, List.dropLast_concat]
        exact congrArg (Tokens.mk · last) (hdrop hc _)
      · have hlast : lastEnd toks = none := by
          rw [lastEnd, hkept, List.getLast?_concat]
          simp [hend]
        refine ⟨some ⟨more ++ [last], stopAfter (kept toks)⟩, fun cursor hc => ?_⟩
        rw [List.append_assoc] at hkept
        rw [whole, hlast]
        exact congrArg (Tokens.mk · (stopAfter (kept toks))) (hkept ▸ hdrop hc _)

/-- What a call does that finds the cursor at one place and leaves it at another. -/
structure Call (toks : List Token) (shown : Nat → Tokens) (cursor next : Nat) : Prop where
  moves : (shown cursor).parse.2 = shown next
  forward : cursor ≤ next
  inside : next ≤ firstEnd toks
  /-- The call comes to an end: what is nested deeper than there are tokens is never asked for,
  whatever it may be, and no loop takes more turns than there are tokens. -/
  ends : ∀ (innermost : Phrases) (n bound : Nat), firstEnd toks - cursor ≤ n →
    firstEnd toks - cursor ≤ bound →
    Parser.programOf (innermost.layered (n + 1)) bound (shown cursor) =
      Parser.program (shown cursor)
  complete : ∀ p, (shown cursor).parse.1 = .ok p → next = firstEnd toks

/-- Where a parser stands after some calls, whether they succeeded or failed. -/
def afterCalls (ts : Tokens) : Nat → Tokens
  | 0 => ts
  | calls + 1 => (ts.afterCalls calls).parse.2

namespace Shows

variable {shown : Nat → Tokens}

/-- A statement that is read moves the cursor by at least one. -/
theorem statement (hs : Shows toks shown) {n : Nat} {s : Stmt} {rest : Tokens}
    (hc : cursor ≤ firstEnd toks) (hn : firstEnd toks - cursor ≤ n)
    (h : (Phrases.upTo n).statement (shown cursor) = .ok s rest) :
    ∃ next, rest = shown next ∧ cursor < next ∧ next ≤ firstEnd toks := by
  obtain ⟨hidden, hs⟩ := hs
  have hstop := behind_stop toks cursor
  have hin := (Phrases.agree_upTo (.covering hidden (behind toks cursor).stop) n 0).statement False
    (behind toks cursor) (by rwa [behind_length])
  rw [Nat.zero_add] at hin
  have hsame := hin.run_covering (Stmt.retoken_eq_self fun _ _ => rfl) hstop
  rw [← hs cursor hc, h] at hsame
  obtain ⟨rest', hrun, rfl⟩ := leaving_eq_ok.mp hsame.symm
  obtain ⟨used, hused, hlen, -⟩ := (hin hstop).1 s rest' hrun
  obtain ⟨rfl, hnext⟩ := behind_eq_before hc hused
  exact ⟨_, (hs _ hnext).symm, by omega, hnext⟩

theorem exists_call (hs : Shows toks shown) (hc : cursor ≤ firstEnd toks) :
    ∃ next, Call toks shown cursor next := by
  obtain ⟨hidden, hs⟩ := hs
  have hstop := behind_stop toks cursor
  have hlength := behind_length toks cursor
  have hsame : Parser.program (shown cursor) =
      leaving hidden (Parser.program (behind toks cursor)) := by
    rw [hs cursor hc, program_covering hidden hstop]
  have hends : ∀ (innermost : Phrases) (n bound : Nat), firstEnd toks - cursor ≤ n →
      firstEnd toks - cursor ≤ bound →
      Parser.programOf (innermost.layered (n + 1)) bound (shown cursor) =
        Parser.program (shown cursor) := by
    intro innermost n bound hn hb
    rw [hsame, hs cursor hc]
    exact Parser.program_layered hidden innermost (by omega) (by omega) hstop
  obtain ⟨hok, herror⟩ := Parser.program_agrees ⟨.identity, shown cursor⟩ _ hstop
  cases hrun : Parser.program (behind toks cursor) with
  | error e rest =>
    rw [hrun] at hsame
    obtain ⟨used, hused, -⟩ := herror e rest hrun
    obtain ⟨rfl, hnext⟩ := behind_eq_before hc hused
    refine ⟨_, ?_, Nat.le_add_right _ _, hnext, hends, ?_⟩
    · rw [parse, hsame, hs _ hnext]
      rfl
    · intro p hp
      rw [parse, hsame] at hp
      cases hp
  | ok p rest =>
    rw [hrun] at hsame
    obtain ⟨used, hused, -⟩ := hok p rest hrun
    obtain ⟨rfl, hnext⟩ := behind_eq_before hc hused
    refine ⟨_, ?_, Nat.le_add_right _ _, hnext, hends, fun _ _ => ?_⟩
    · rw [parse, hsame, hs _ hnext]
      rfl
    · -- No token that is left is an end of input, so none is left.
      have hkinds : ∀ tok ∈ (behind toks cursor).ahead, tok.kind ≠ .eof := by
        intro tok htok
        rw [behind_eq_drop] at htok
        exact kind_ne_eof (List.mem_of_mem_drop htok)
      obtain ⟨hnil, -⟩ := Parser.program_greedy hstop hkinds hrun
      have hnone := congrArg List.length hnil
      rw [behind_length, List.length_nil] at hnone
      omega

/-- At the first end of input a call reads the empty program, and stays there. -/
theorem parse_firstEnd (hs : Shows toks shown) :
    (shown (firstEnd toks)).parse = (.ok ⟨[]⟩, shown (firstEnd toks)) := by
  obtain ⟨hidden, hs⟩ := hs
  have hnil : (behind toks (firstEnd toks)).ahead = [] :=
    List.length_eq_zero_iff.mp (by rw [behind_length, Nat.sub_self])
  have hcur : (shown (firstEnd toks)).current.kind ∈ [Token.Kind.eof] := by
    rw [hs _ (Nat.le_refl _), current_covering, current_of_nil hnil, behind_stop]
    exact List.mem_singleton_self _
  have hrun : Parser.program (shown (firstEnd toks)) = .ok ⟨[]⟩ _ :=
    run_bind_of_ok (statements_of_mem hcur)
  rw [parse, hrun]

theorem afterCalls (hs : Shows toks shown) (calls : Nat) :
    ∃ cursor ≤ firstEnd toks, (shown 0).afterCalls calls = shown cursor := by
  induction calls with
  | zero => exact ⟨0, Nat.zero_le _, rfl⟩
  | succ calls ih =>
    obtain ⟨cursor, hc, hcursor⟩ := ih
    obtain ⟨next, hcall⟩ := hs.exists_call hc
    exact ⟨next, hcall.inside, by rw [Tokens.afterCalls, hcursor, hcall.moves]⟩

theorem afterCalls_firstEnd (hs : Shows toks shown) {ts : Tokens} {calls : Nat}
    (h : ts.afterCalls calls = shown (firstEnd toks)) (later : Nat) :
    ts.afterCalls (calls + later) = shown (firstEnd toks) := by
  induction later with
  | zero => exact h
  | succ later ih => rw [← Nat.add_assoc, Tokens.afterCalls, ih, hs.parse_firstEnd]

end Shows
end Tokens

open Tokens (ofList kept firstEnd behind whole Call)

/-- Whatever tokens a parser is given, and however often it is called, each call comes to an end and
moves the cursor forward, but not beyond the first end of input; a statement moves it by at least
one. A call that succeeds leaves the cursor at the first end of input, and then every later call
reads the empty program and changes nothing. It makes no difference whether the tokens behind the
first end of input are there. -/
theorem parser_makes_progress (toks : List Token) :
    (∀ tok, (kept toks)[firstEnd toks]? = some tok → (ofList toks).stop = tok) ∧
    ofList toks = behind toks 0 ∧
    (∀ cursor ≤ firstEnd toks, (whole toks cursor).parse.1 = (behind toks cursor).parse.1) ∧
    ∀ shown ∈ [behind toks, whole toks],
      (∀ n cursor s rest, cursor ≤ firstEnd toks → firstEnd toks - cursor ≤ n →
        (Phrases.upTo n).statement (shown cursor) = .ok s rest →
        ∃ next, rest = shown next ∧ cursor < next ∧ next ≤ firstEnd toks) ∧
      ∀ calls, ∃ cursor next, (shown 0).afterCalls calls = shown cursor ∧
        Call toks shown cursor next ∧
        (next = firstEnd toks → ∀ later,
          ((shown 0).afterCalls (calls + 1 + later)).parse =
            (.ok ⟨[]⟩, shown (firstEnd toks))) := by
  refine ⟨fun tok => Tokens.stop_eq_of_getElem?, Tokens.ofList_eq_behind toks, ?_, ?_⟩
  · intro cursor hc
    obtain ⟨hidden, hwhole⟩ := Tokens.shows_whole toks
    rw [hwhole cursor hc, Tokens.parse_covering hidden (Tokens.behind_stop toks cursor)]
  · intro shown hshown
    rw [List.mem_cons, List.mem_singleton] at hshown
    have hs : Tokens.Shows toks shown := by
      rcases hshown with rfl | rfl
      · exact Tokens.shows_behind toks
      · exact Tokens.shows_whole toks
    refine ⟨fun n cursor s rest => hs.statement, fun calls => ?_⟩
    obtain ⟨cursor, hc, hcursor⟩ := hs.afterCalls calls
    obtain ⟨next, hcall⟩ := hs.exists_call hc
    refine ⟨cursor, next, hcursor, hcall, ?_⟩
    rintro rfl later
    have hnext : (shown 0).afterCalls (calls + 1) = shown (firstEnd toks) := by
      rw [Tokens.afterCalls, hcursor, hcall.moves]
    rw [hs.afterCalls_firstEnd hnext later, hs.parse_firstEnd]

end PipeCompiler
