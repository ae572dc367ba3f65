import PipeCompiler.Program.Parser
import PipeCompiler.Proofs.GreedyGrammar
import PipeCompiler.Proofs.Sequencing

/-! What a parser takes.

`Takes used rest m a` says that the parser `m` takes exactly the tokens `used` before the rest, with
the result `a`. `Finds ts m Q` is the contract of a run that may also fail: if it succeeds, it takes
a stretch of tokens off the front, leaves all others in place, and `Q` relates the stretch, the rest
and the result. For each of the two there is one rule for each way of putting parsers together. -/
namespace PipeCompiler

open PipeCompiler.Parser
open Grammar (Greedy IsName Level Listed first)

namespace Tokens

variable {tok : Token} {used us vs : List Token} {ts rest : Tokens}

/-- The given tokens, and then the rest. -/
def before (used : List Token) (rest : Tokens) : Tokens :=
  ⟨used ++ rest.ahead, rest.stop⟩

theorem before_append : before (us ++ vs) rest = before us (before vs rest) := by
  simp [before]

@[simp] theorem before_nil : before [] rest = rest := rfl

@[simp] theorem current_before_cons : (before (tok :: used) rest).current = tok := rfl

theorem current_before (us : List Token) (rest : Tokens) :
    (before us rest).current.kind = first us rest.current.kind := by
  cases us <;> rfl

@[simp] theorem ahead_length_before :
    (before used rest).ahead.length = used.length + rest.ahead.length := by
  simp [before]

theorem current_of_nil (h : ts.ahead = []) : ts.current = ts.stop := by
  simp [current, h]

theorem ahead_ne_nil (hstop : ts.stop.kind = .eof) (hk : ts.current.kind ≠ .eof) :
    ts.ahead ≠ [] := fun hnil => hk (by rw [current_of_nil hnil, hstop])

/-- Where a token is left, it is the first one of them. -/
theorem eq_before_current (h : ts.ahead ≠ []) : ts = before [ts.current] ts.tail := by
  obtain ⟨ahead, stop⟩ := ts
  cases ahead with
  | nil => exact absurd rfl h
  | cons tok rest => rfl

end Tokens

open Tokens (before)

namespace Parser

variable {α β : Type} {tok : Token} {used us vs : List Token} {ts rest : Tokens} {a : α} {b : β}
  {kinds : List Token.Kind} {kind : Token.Kind} {bound : Nat}

theorem accept?_of_mem (h : ts.current.kind ∈ kinds) :
    accept? kinds ts = .ok (some ts.current) ts.tail := by
  change (if kinds.contains ts.current.kind then _ else _ : Parser (Option Token)) ts = _
  rw [if_pos (List.contains_iff_mem.mpr h)]
  rfl

theorem accept?_of_notMem (h : ts.current.kind ∉ kinds) : accept? kinds ts = .ok none ts := by
  change (if kinds.contains ts.current.kind then _ else _ : Parser (Option Token)) ts = _
  rw [if_neg fun hc => h (List.contains_iff_mem.mp hc)]
  rfl

/-- A list goes on only after a comma. -/
theorem moreItems_of_notMem {item : Parser α} (h : ts.current.kind ∉ [Token.Kind.comma]) :
    moreItems item bound ts = .ok [] ts := by
  cases bound with
  | zero => rfl
  | succ bound => exact run_bind_of_ok (accept?_of_notMem h)

/-- An expression is not made wider where no suffix begins. -/
theorem extend_of_notMem {suffix : Expr → Token → Parser Expr} {e : Expr}
    (h : ts.current.kind ∉ kinds) : extend kinds suffix bound e ts = .ok e ts := by
  cases bound with
  | zero => rfl
  | succ bound => exact run_bind_of_ok (accept?_of_notMem h)

/-- No statement is read where one of the stops comes next. -/
theorem statements_of_mem {stops : List Token.Kind} {statement : Parser Stmt}
    (h : ts.current.kind ∈ stops) : statements stops statement bound ts = .ok [] ts := by
  cases bound with
  | zero => rfl
  | succ bound =>
    change (if stops.contains ts.current.kind then _ else _ : Parser (List Stmt)) ts = _
    rw [if_pos (List.contains_iff_mem.mpr h)]
    rfl

theorem statements_of_notMem {stops : List Token.Kind} {statement : Parser Stmt}
    (h : ts.current.kind ∉ stops) :
    statements stops statement (bound + 1) ts = (do
      let s ← statement
      return s :: (← statements stops statement bound) : Parser (List Stmt)) ts := by
  change (if stops.contains ts.current.kind then _ else _ : Parser (List Stmt)) ts = _
  rw [if_neg fun hc => h (List.contains_iff_mem.mp hc)]

/-- Behind an item, a comma announces a list that has one. -/
theorem moreItems_itemsFrom (bound : Nat) (item : Parser α) (closing : Token.Kind) (x : α) :
    (do
      let xs ← moreItems item (bound + 1)
      let _ ← expect closing
      return x :: xs) = (do
      match ← accept? [.comma] with
      | none =>
        let _ ← expect closing
        return [x]
      | some _ => return x :: (← itemsFrom bound item closing) : Parser (List α)) := by
  rw [moreItems, bind_assoc]
  refine bind_congr fun comma => ?_
  cases comma with
  | none => simp only [pure_bind]
  | some comma => simp only [itemsFrom, bind_assoc, pure_bind]

/-- The parser takes exactly the tokens `used`, and leaves off at the first one of the rest. -/
def Takes (used : List Token) (rest : Tokens) (m : Parser α) (a : α) : Prop :=
  m (before used rest) = .ok a rest

namespace Takes

theorem pure (a : α) : Takes [] rest (pure a) a := rfl

theorem bind {m : Parser α} {f : α → Parser β} (hm : Takes us (before vs rest) m a)
    (hf : Takes vs rest (f a) b) : Takes (us ++ vs) rest (m >>= f) b := by
  unfold Takes
  rw [Tokens.before_append, run_bind_of_ok hm]
  exact hf

/-- A first step that takes one token. -/
theorem bindToken {m : Parser α} {f : α → Parser β} (hm : Takes [tok] (before vs rest) m a)
    (hf : Takes vs rest (f a) b) : Takes (tok :: vs) rest (m >>= f) b :=
  bind hm hf

/-- A first step that only looks ahead. -/
theorem bindNone {m : Parser α} {f : α → Parser β} (hm : Takes [] (before vs rest) m a)
    (hf : Takes vs rest (f a) b) : Takes vs rest (m >>= f) b :=
  bind hm hf

/-- A last step that takes no token. -/
theorem bindLast {m : Parser α} {f : α → Parser β} (hm : Takes us rest m a)
    (hf : Takes [] rest (f a) b) : Takes us rest (m >>= f) b :=
  (run_bind_of_ok hm).trans hf

theorem map {m : Parser α} {f : α → β} (hm : Takes us rest m a) :
    Takes us rest (do return f (← m)) (f a) :=
  bindLast hm (pure (f a))

theorem peek {f : Token → Parser α} (h : Takes us rest (f (before us rest).current) a) :
    Takes us rest (peek >>= f) a := h

theorem get {f : Tokens → Parser α} (h : Takes us rest (f (before us rest)) a) :
    Takes us rest (get >>= f) a := h

theorem advance (tok : Token) : Takes [tok] rest advance tok := rfl

theorem expect (h : tok.kind = kind) : Takes [tok] rest (expect kind) tok := by
  refine peek ?_
  rw [if_pos (show (before [tok] rest).current.kind = kind from h)]
  exact advance tok

theorem name {n : Name} (h : IsName us n) : Takes us rest name n := by
  obtain ⟨id, hid, rfl, rfl⟩ := h
  exact map (expect hid)

theorem accept (h : tok.kind ∈ kinds) : Takes [tok] rest (accept? kinds) (some tok) :=
  accept?_of_mem h

theorem decline (h : rest.current.kind ∉ kinds) : Takes [] rest (accept? kinds) none :=
  accept?_of_notMem h

theorem namesFrom {closing : Token.Kind} {ns : List Name} (hclosing : closing ≠ .comma)
    (h : Listed IsName closing us ns) (hne : ns ≠ []) (hb : us.length ≤ bound) :
    Takes us rest (itemsFrom bound Parser.name closing) ns := by
  induction h generalizing bound with
  | empty => exact absurd rfl hne
  | @last close ts n hn hc =>
    simp only [List.length_append, List.length_singleton] at hb
    obtain ⟨bound, rfl⟩ := Nat.exists_eq_add_one.mpr (show 0 < bound by omega)
    have hno : (before [close] rest).current.kind ∉ [.comma] := by simpa [hc] using hclosing
    refine bind (name hn) ?_
    rw [moreItems_itemsFrom]
    exact bindNone (decline hno) (bindToken (expect hc) (pure [n]))
  | @more comma ts vs n k ks hn hc hks ih =>
    simp only [List.length_append, List.length_cons] at hb
    obtain ⟨bound, rfl⟩ := Nat.exists_eq_add_one.mpr (show 0 < bound by omega)
    refine bind (name hn) ?_
    rw [moreItems_itemsFrom]
    exact bindToken (accept (by simp [hc])) (map (ih (by simp) (by omega)))

/-- The names of a list are read, and the token that closes it. -/
theorem names {closing : Token.Kind} {ns : List Name} (hclosing : closing ∉ [.comma, .ident])
    (h : Listed IsName closing us ns) (hb : us.length ≤ bound) :
    Takes us rest (items bound Parser.name closing) ns := by
  simp only [List.mem_cons, List.not_mem_nil, or_false, not_or] at hclosing
  have hno : ns ≠ [] → (before us rest).current.kind ∉ [closing] := by
    intro hne
    cases h with
    | empty => exact absurd rfl hne
    | last hn hc | more hn hc =>
      obtain ⟨id, hid, rfl, rfl⟩ := hn
      simpa [hid] using Ne.symm hclosing.2
  by_cases hne : ns = []
  · subst hne
    cases h with
    | empty hc => exact bindToken (accept (by simp [hc])) (pure [])
  · exact bindNone (decline (hno hne)) (namesFrom hclosing.1 h hne hb)

end Takes

variable {Q : List Token → Tokens → α → Prop} {R : List Token → Tokens → β → Prop}

/-- A successful run takes a stretch of tokens off the front, and `Q` relates it, the rest and the
result. -/
def Finds (ts : Tokens) (m : Parser α) (Q : List Token → Tokens → α → Prop) : Prop :=
  ts.stop.kind = .eof → ∀ a rest, m ts = .ok a rest → ∃ used, ts = before used rest ∧ Q used rest a

/-- What `accept?` reads: nothing, or one token of the kinds that it is offered. -/
def Accepted (kinds : List Token.Kind) (used : List Token) (rest : Tokens) : Option Token → Prop
  | none => used = [] ∧ rest.current.kind ∉ kinds
  | some tok => used = [tok] ∧ tok.kind ∈ kinds

namespace Finds

theorem pure {a : α} (h : Q [] ts a) : Finds ts (pure a) Q := by
  intro _ b rest hrun
  cases hrun
  exact ⟨[], rfl, h⟩

theorem throw (e : GrammarError) : Finds ts (throw e) Q := by
  intro _ b rest hrun
  cases hrun

theorem mono {m : Parser α} {Q' : List Token → Tokens → α → Prop} (h : Finds ts m Q)
    (hq : ∀ used rest a, ts = before used rest → Q used rest a → Q' used rest a) :
    Finds ts m Q' := by
  intro hstop a rest hrun
  obtain ⟨used, hts, ha⟩ := h hstop a rest hrun
  exact ⟨used, hts, hq used rest a hts ha⟩

theorem bind {m : Parser α} {f : α → Parser β} (hm : Finds ts m Q)
    (hf : ∀ used rest a, ts = before used rest → Q used rest a →
      Finds rest (f a) fun us rest' b => R (used ++ us) rest' b) : Finds ts (m >>= f) R := by
  intro hstop b rest' hrun
  obtain ⟨a, rest, ha, hb⟩ := run_bind_eq_ok.mp hrun
  obtain ⟨used, rfl, hq⟩ := hm hstop a rest ha
  obtain ⟨us, rfl, hr⟩ := hf used rest a rfl hq hstop b rest' hb
  exact ⟨used ++ us, Tokens.before_append.symm, hr⟩

theorem peek {f : Token → Parser α} (h : Finds ts (f ts.current) Q) : Finds ts (peek >>= f) Q := h

theorem get {f : Tokens → Parser α} (h : Finds ts (f ts) Q) : Finds ts (get >>= f) Q := h

theorem advance (hk : ts.current.kind ≠ .eof) :
    Finds ts advance fun used _ tok => used = [tok] := by
  intro hstop tok rest hrun
  cases hrun
  exact ⟨[ts.current], Tokens.eq_before_current (Tokens.ahead_ne_nil hstop hk), rfl⟩

theorem expect (hk : kind ≠ .eof) :
    Finds ts (expect kind) fun used _ tok => used = [tok] ∧ tok.kind = kind := by
  refine peek ?_
  split
  · rename_i hcur
    refine (advance (hcur ▸ hk)).mono ?_
    rintro _ rest tok rfl rfl
    exact ⟨rfl, hcur⟩
  · exact throw _

theorem name : Finds ts name fun used _ n => IsName used n := by
  refine bind (expect (by simp)) ?_
  rintro _ rest id - ⟨rfl, hi⟩
  exact pure ⟨id, hi, rfl, rfl⟩

theorem accept? (hk : .eof ∉ kinds) : Finds ts (accept? kinds) (Accepted kinds) := by
  refine peek ?_
  split
  · rename_i hc
    have hmem : ts.current.kind ∈ kinds := List.contains_iff_mem.mp hc
    refine bind (advance fun he => hk (he ▸ hmem)) ?_
    rintro _ rest tok rfl rfl
    exact pure ⟨rfl, hmem⟩
  · rename_i hc
    exact pure ⟨rfl, fun hmem => hc (List.contains_iff_mem.mpr hmem)⟩

/-- Behind a first name, more of them and the closing token make the list complete. -/
theorem moreNames (closing : Token.Kind) (bound : Nat) (ts : Tokens) :
    Finds ts (moreItems Parser.name bound) fun used _ ns =>
      ∀ {fs : List Token} {n : Name} {close : Token}, IsName fs n → close.kind = closing →
        Listed IsName closing (fs ++ (used ++ [close])) (n :: ns) := by
  induction bound generalizing ts with
  | zero => exact pure fun hn hc => .last hn hc
  | succ bound ih =>
    refine bind (accept? (by simp)) ?_
    rintro _ ts₁ (_ | comma) - hcomma
    · obtain ⟨rfl, -⟩ := hcomma
      exact pure fun hn hc => .last hn hc
    · obtain ⟨rfl, hcomma⟩ := hcomma
      refine bind name ?_
      intro ks ts₂ k _ hk
      refine bind (ih ts₂) ?_
      intro us ts₃ ns _ hns
      refine pure fun hn hc => ?_
      simpa using Listed.more hn (List.mem_singleton.mp hcomma) (hns hk hc)

theorem names {closing : Token.Kind} (hc : closing ≠ .eof) :
    Finds ts (items bound Parser.name closing) fun used _ ns => Listed IsName closing used ns := by
  refine bind (accept? (by simpa using hc.symm)) ?_
  rintro _ ts₁ (_ | close) - hclose
  · obtain ⟨rfl, -⟩ := hclose
    refine bind name ?_
    intro fs ts₂ n _ hn
    refine bind (moreNames closing bound ts₂) ?_
    intro us ts₃ ns _ hns
    refine bind (expect hc) ?_
    rintro _ ts₄ close - ⟨rfl, hclose⟩
    exact pure (by simpa using hns hn hclose)
  · obtain ⟨rfl, hclose⟩ := hclose
    exact pure (.empty (List.mem_singleton.mp hclose))

/-- The loop that makes an expression wider ends where no suffix follows. -/
theorem extend {suffix : Expr → Token → Parser Expr} (level : Level) {n : Nat}
    (hstep : ∀ (ts : Tokens) es e tok, ts.ahead.length ≤ n → tok.kind ∈ level.suffixes →
      Greedy (.expr level e) es tok.kind → Finds ts (suffix e tok) fun used rest wider =>
        Greedy (.expr level wider) (es ++ tok :: used) rest.current.kind)
    (bound : Nat) {es : List Token} {e : Expr} (hn : ts.ahead.length ≤ n)
    (hb : ts.ahead.length ≤ bound) (he : Greedy (.expr level e) es ts.current.kind) :
    Finds ts (extend level.suffixes suffix bound e) fun used rest wider =>
      Greedy (.expr level wider) (es ++ used) rest.current.kind ∧
        rest.current.kind ∉ level.suffixes := by
  have heof : .eof ∉ level.suffixes := by cases level <;> decide
  induction bound generalizing ts es e with
  | zero =>
    intro hstop a rest hrun
    cases hrun
    have hnil : ts.ahead = [] := List.length_eq_zero_iff.mp (Nat.le_zero.mp hb)
    refine ⟨[], rfl, by simpa using he, ?_⟩
    rwa [Tokens.current_of_nil hnil, hstop]
  | succ bound ih =>
    refine bind (accept? heof) ?_
    rintro _ ts₁ (_ | tok) rfl haccepted
    · obtain ⟨rfl, hk⟩ := haccepted
      exact pure ⟨by simpa using he, hk⟩
    · obtain ⟨rfl, htok⟩ := haccepted
      simp only [Tokens.ahead_length_before, List.length_singleton] at hn hb
      refine bind (hstep ts₁ es e tok (by omega) htok he) ?_
      rintro us ts₂ wider rfl hwider
      simp only [Tokens.ahead_length_before] at hn hb
      refine (ih (by omega) (by omega) hwider).mono ?_
      rintro vs rest w - hw
      simpa using hw

end Finds
end Parser

namespace Phrases

@[simp] theorem upTo_bound (n : Nat) : (upTo n).bound = n := by
  induction n with
  | zero => rfl
  | succ n ih => exact congrArg (· + 1) ih

theorem isPipeTarget_iff {e : Expr} : isPipeTarget e = true ↔ Grammar.IsPipeTarget e := by
  cases e <;> simp [isPipeTarget, Grammar.IsPipeTarget]

end Phrases
end PipeCompiler
