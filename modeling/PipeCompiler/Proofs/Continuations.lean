import PipeCompiler.Proofs.Reading
import PipeCompiler.Proofs.Relabelling

/-! Two runs of a parser.

`Agrees c piped least g ts m m'` compares a run of `m` on the tokens `ts` with a run of `m'` on the
same tokens, which are relabelled and have others behind them. The parsers differ only in the bounds
on their loops and in what is nested too deep to matter. Whether it succeeds or fails, the first run
takes tokens off the front and leaves all others in place, and if it succeeds it takes at least
`least`. As long as the second run cannot have seen more than the first, it does the same: it gives
the same result, of which `g` says what becomes of it under the relabelling, and it leaves the same
tokens, with the others behind them. An error on a token that is there does not depend on what comes
behind. There is one rule for each way of putting parsers together. -/
namespace PipeCompiler

open Tokens (before)

/-- What becomes of tokens in another text: they are relabelled, and others stand behind them. -/
structure Continuation where
  labels : Token.Relabelling
  more : Tokens

/-- An error that more tokens cannot mend. What cannot be piped into may still become a call. -/
def GrammarError.Definite (e : GrammarError) : Prop :=
  e.tok.kind ≠ .eof ∧ e.fault ≠ .pipeTarget

/-- A kind of token that source texts have. -/
def Token.Kind.isLexical : Token.Kind → Bool
  | .other _ => false
  | _ => true

/-- The error says nothing that its token does not bear out: only a kind of token that source texts
have is ever expected, and only a number that cannot be read is called a bad one. -/
def GrammarError.Justified (e : GrammarError) : Prop :=
  match e.fault with
  | .expected kind => kind.isLexical = true
  | .badNumber => e.tok.kind = .number ∧ Double.read? e.tok.literal = none
  | .unexpected | .pipeTarget => True

namespace Continuation

variable (c : Continuation) {ts rest : Tokens}

def tokens (ts : Tokens) : Tokens :=
  ⟨ts.ahead.map c.labels ++ c.more.ahead, c.more.stop⟩

/-- What follows begins with the end of input. -/
def Ends (ts : Tokens) : Prop :=
  c.more.current = c.labels ts.stop

/-- The next token is the same in both texts. -/
def Sees (ts : Tokens) : Prop :=
  ts.ahead ≠ [] ∨ c.Ends ts

variable {c}

theorem Sees.before {used : List Token} (h : c.Sees rest) : c.Sees (before used rest) :=
  h.imp_left fun hne => by simp [Tokens.before, hne]

theorem tokens_of_nil (h : ts.ahead = []) : c.tokens ts = c.more := by
  simp [tokens, h]

theorem current_tokens (h : c.Sees ts) : (c.tokens ts).current = c.labels ts.current := by
  by_cases hnil : ts.ahead = []
  · rw [tokens_of_nil hnil, Tokens.current_of_nil hnil]
    exact h.resolve_left (absurd hnil)
  · obtain ⟨tok, rest, hts⟩ := List.exists_cons_of_ne_nil hnil
    simp [tokens, Tokens.current, hts]

theorem tail_tokens (h : ts.ahead ≠ []) : (c.tokens ts).tail = c.tokens ts.tail := by
  obtain ⟨tok, rest, hts⟩ := List.exists_cons_of_ne_nil h
  simp [tokens, Tokens.tail, hts]

theorem more_kind (h : c.Ends ts) (hstop : ts.stop.kind = .eof) : c.more.current.kind = .eof := by
  rw [h, c.labels.kind_map, hstop]

/-- Where an assignment begins in the first text, one begins in the second. -/
theorem startsAssignment_tokens (h : ts.startsAssignment = true) :
    (c.tokens ts).startsAssignment = true := by
  revert h
  unfold Tokens.startsAssignment tokens
  rcases ts.ahead with _ | ⟨first, _ | ⟨second, rest⟩⟩ <;> simp

/-- An assignment that does not show begins at the end of the tokens, or with the last one. -/
theorem startsAssignment_cases (h : ¬ts.startsAssignment = true)
    (h' : (c.tokens ts).startsAssignment = true) :
    ts.ahead = [] ∧ c.more.current.kind = .ident ∨
      ∃ tok, ts.ahead = [tok] ∧ tok.kind = .ident ∧ c.more.current.kind = .assign := by
  obtain ⟨labels, ⟨ahead', stop'⟩⟩ := c
  obtain ⟨ahead, stop⟩ := ts
  rcases ahead with _ | ⟨first, _ | ⟨second, rest⟩⟩
  · rcases ahead' with _ | ⟨name, _ | ⟨sign, rest⟩⟩
    · simp [Tokens.startsAssignment, tokens] at h'
    · simp [Tokens.startsAssignment, tokens] at h'
    · simp only [Tokens.startsAssignment, tokens, List.map_nil, List.nil_append, Bool.and_eq_true,
        beq_iff_eq] at h'
      exact .inl ⟨rfl, h'.1⟩
  · rcases ahead' with _ | ⟨sign, rest⟩
    · simp [Tokens.startsAssignment, tokens] at h'
    · refine .inr ⟨first, rfl, ?_⟩
      simpa [Tokens.startsAssignment, tokens, Tokens.current] using h'
  · simp [Tokens.startsAssignment, tokens] at h h'
    exact absurd h'.2 (h h'.1)

/-- What a run on the first text comes to on the second. -/
def outcome {α β : Type} (c : Continuation) (g : α → β) :
    EStateM.Result GrammarError Tokens α → EStateM.Result GrammarError Tokens β
  | .ok a rest => .ok (g a) (c.tokens rest)
  | .error e rest => .error (e.relabel c.labels) (c.tokens rest)

end Continuation

namespace Parser

variable {α β γ δ : Type} {c : Continuation} {piped : Prop} {least : Nat} {ts rest : Tokens}
  {g : α → β} {h : γ → δ}

/-- The second run goes like the first, which moves on. If the target of a pipe is refused, there
was a pipe: `piped` says whether one was read before. -/
def Agrees (c : Continuation) (piped : Prop) (least : Nat) (g : α → β) (ts : Tokens)
    (m : Parser α) (m' : Parser β) : Prop :=
  ts.stop.kind = .eof →
    (∀ a rest, m ts = .ok a rest → ∃ used, ts = before used rest ∧ least ≤ used.length ∧
      (c.Sees rest → m' (c.tokens ts) = .ok (g a) (c.tokens rest))) ∧
    ∀ e rest, m ts = .error e rest → ∃ used, ts = before used rest ∧
      (e.fault = .pipeTarget → piped ∨ ∃ tok ∈ used, tok.kind = .pipe) ∧
      e.Justified ∧ (e.Definite → ts.ahead ≠ []) ∧
      (e.Definite ∨ c.Ends ts → m' (c.tokens ts) = .error (e.relabel c.labels) (c.tokens rest))

namespace Agrees

variable {m : Parser α} {m' : Parser β} {k : α → Parser γ} {k' : β → Parser δ}

theorem pure {a : α} {b : β} (hab : g a = b) : Agrees c piped 0 g ts (pure a) (pure b) := by
  intro _
  constructor
  · intro _ rest hrun
    cases hrun
    exact ⟨[], rfl, Nat.le_refl 0, fun _ => hab ▸ rfl⟩
  · intro e rest hrun
    cases hrun

theorem weaken {fewer : Nat} (hm : Agrees c piped least g ts m m') (hle : fewer ≤ least) :
    Agrees c piped fewer g ts m m' := by
  intro hstop
  refine ⟨fun a rest hrun => ?_, (hm hstop).2⟩
  obtain ⟨used, hts, hlen, hsame⟩ := (hm hstop).1 a rest hrun
  exact ⟨used, hts, by omega, hsame⟩

/-- Only the two runs matter. -/
theorem congr {n : Parser α} {n' : Parser β} (hm : Agrees c piped least g ts m m')
    (hn : n ts = m ts) (hn' : n' (c.tokens ts) = m' (c.tokens ts)) :
    Agrees c piped least g ts n n' := by
  intro hstop
  rw [hn, hn']
  exact hm hstop

/-- Where the two texts go on differently, nothing is asked of the second run. -/
theorem blind {m'' : Parser β} (hm : Agrees c piped least g ts m m') (hblind : ¬c.Sees ts) :
    Agrees c piped least g ts m m'' := by
  intro hstop
  obtain ⟨hok, herror⟩ := hm hstop
  refine ⟨fun a rest hrun => ?_, fun e rest hrun => ?_⟩
  · obtain ⟨used, rfl, hlen, -⟩ := hok a rest hrun
    exact ⟨used, rfl, hlen, fun hsees => absurd hsees.before hblind⟩
  · obtain ⟨used, hts, hpipe, hjustified, hne, -⟩ := herror e rest hrun
    exact ⟨used, hts, hpipe, hjustified, hne, fun h => absurd (h.imp_left hne) hblind⟩

/-- If all tokens are read, and then the texts differ, nothing is asked of the second run. -/
theorem exhausted {a : α} (hm : m ts = .ok a ⟨[], ts.stop⟩) (hleast : least ≤ ts.ahead.length)
    (hends : ¬c.Ends ts) : Agrees c piped least g ts m m' := by
  intro _
  rw [hm]
  constructor
  · intro _ rest hrun
    cases hrun
    refine ⟨ts.ahead, by simp [before], hleast, fun hsees => ?_⟩
    exact absurd hsees (by simpa [Continuation.Sees])
  · intro e rest hrun
    cases hrun

/-- Where the second text ends with the first, the second run is the first one. -/
theorem run_eq (hm : Agrees c piped least g ts m m') (hstop : ts.stop.kind = .eof)
    (hends : c.Ends ts) : m' (c.tokens ts) = c.outcome g (m ts) := by
  obtain ⟨hok, herror⟩ := hm hstop
  cases hrun : m ts with
  | ok a rest =>
    obtain ⟨used, rfl, -, hsame⟩ := hok a rest hrun
    exact hsame (.inr hends)
  | error e rest =>
    obtain ⟨used, -, -, -, -, hsame⟩ := herror e rest hrun
    exact hsame (.inr hends)

theorem lead (hm : Agrees c piped least g ts m m')
    (hk : ∀ a rest, rest.ahead.length + least ≤ ts.ahead.length →
      Agrees c piped 0 h rest (k a) (k' (g a))) :
    Agrees c piped least h ts (m >>= k) (m' >>= k') := by
  intro hstop
  obtain ⟨hok, herror⟩ := hm hstop
  have hlater {a : α} {rest : Tokens} (ha : m ts = .ok a rest) :
      ∃ used, ts = before used rest ∧ least ≤ used.length ∧
        (c.Sees rest → m' (c.tokens ts) = .ok (g a) (c.tokens rest)) ∧
        rest.stop.kind = .eof ∧ Agrees c piped 0 h rest (k a) (k' (g a)) := by
    obtain ⟨used, rfl, hlen, hsame⟩ := hok a rest ha
    refine ⟨used, rfl, hlen, hsame, hstop, hk a rest ?_⟩
    rw [Tokens.ahead_length_before]
    omega
  refine ⟨fun b rest' hrun => ?_, fun e rest' hrun => ?_⟩
  · obtain ⟨a, rest, ha, hb⟩ := run_bind_eq_ok.mp hrun
    obtain ⟨used, rfl, hlen, hsame, hstop', hrest⟩ := hlater ha
    obtain ⟨more, rfl, -, hsame'⟩ := (hrest hstop').1 b rest' hb
    refine ⟨used ++ more, Tokens.before_append.symm, ?_, fun hsees => ?_⟩
    · rw [List.length_append]
      omega
    · rw [run_bind_of_ok (hsame hsees.before), hsame' hsees]
  · rcases run_bind_eq_error.mp hrun with ha | ⟨a, rest, ha, hb⟩
    · obtain ⟨used, hts, hpipe, hjustified, hne, hsame⟩ := herror e rest' ha
      exact ⟨used, hts, hpipe, hjustified, hne, fun h => run_bind_of_error (hsame h)⟩
    · obtain ⟨used, rfl, -, hsame, hstop', hrest⟩ := hlater ha
      obtain ⟨more, rfl, hpipe, hjustified, hne, hsame'⟩ := (hrest hstop').2 e rest' hb
      refine ⟨used ++ more, Tokens.before_append.symm, fun hfault => (hpipe hfault).imp_right ?_,
        hjustified, fun hdefinite => ?_, fun hsees => ?_⟩
      · rintro ⟨tok, htok, hkind⟩
        exact ⟨tok, List.mem_append_right used htok, hkind⟩
      · exact fun hnil => hne hdefinite (List.append_eq_nil_iff.mp hnil).2
      · rw [run_bind_of_ok (hsame (hsees.imp_left hne)), hsame' hsees]

theorem bind (hm : Agrees c piped least g ts m m')
    (hk : ∀ a rest, rest.ahead.length + least ≤ ts.ahead.length →
      Agrees c piped 0 h rest (k a) (k' (g a))) :
    Agrees c piped 0 h ts (m >>= k) (m' >>= k') :=
  (hm.lead hk).weaken (Nat.zero_le _)

theorem throw {e e' : GrammarError} (he : e.relabel c.labels = e') (hjustified : e.Justified)
    (hpipe : e.fault = .pipeTarget → piped)
    (hne : ts.stop.kind = .eof → e.Definite → ts.ahead ≠ []) :
    Agrees c piped least g ts (throw e : Parser α) (throw e') := by
  intro hstop
  constructor
  · intro a rest hrun
    cases hrun
  · intro _ rest hrun
    cases hrun
    refine ⟨[], rfl, fun hfault => .inl (hpipe hfault), hjustified, hne hstop, fun _ => ?_⟩
    rw [he]
    rfl

/-- The end of the tokens is no token to fail on for good. -/
theorem throwCurrent {fault : GrammarFault}
    (hjustified : GrammarError.Justified ⟨fault, ts.current⟩) (hfault : fault ≠ .pipeTarget) :
    Agrees c piped least g ts (MonadExcept.throw ⟨fault, ts.current⟩ : Parser α)
      (MonadExcept.throw ⟨fault, c.labels ts.current⟩) := by
  refine throw rfl hjustified (absurd · hfault) fun hstop he hnil => he.1 ?_
  rw [Tokens.current_of_nil hnil, hstop]

theorem peek {k : Token → Parser α} {k' : Token → Parser β}
    (hk : Agrees c piped least g ts (k ts.current) (k' (c.labels ts.current))) :
    Agrees c piped least g ts (peek >>= k) (peek >>= k') := by
  by_cases hsees : c.Sees ts
  · refine hk.congr rfl ?_
    change k' (c.tokens ts).current _ = _
    rw [Continuation.current_tokens hsees]
  · exact (hk.blind hsees).congr rfl rfl

theorem unexpected : Agrees c piped least g ts (Parser.unexpected : Parser α) Parser.unexpected :=
  peek (throwCurrent trivial (by simp))

theorem advance (hk : ts.current.kind ≠ .eof) :
    Agrees c piped 1 c.labels ts advance advance := by
  intro hstop
  have hne := Tokens.ahead_ne_nil hstop hk
  constructor
  · intro tok rest hrun
    cases hrun
    refine ⟨[ts.current], Tokens.eq_before_current hne, Nat.le_refl 1, fun _ => ?_⟩
    change EStateM.Result.ok (c.tokens ts).current (c.tokens ts).tail = _
    rw [Continuation.current_tokens (.inl hne), Continuation.tail_tokens hne]
  · intro e rest hrun
    cases hrun

/-- A number that cannot be read is refused once it has been taken. -/
theorem refuse (hk : ts.current.kind = .number) (hread : Double.read? ts.current.literal = none) :
    Agrees c piped 1 g ts
      (Parser.advance >>= fun _ => MonadExcept.throw ⟨.badNumber, ts.current⟩ : Parser α)
      (Parser.advance >>= fun _ => MonadExcept.throw ⟨.badNumber, c.labels ts.current⟩) := by
  intro hstop
  have hne := Tokens.ahead_ne_nil hstop (by simp [hk])
  constructor
  · intro a rest hrun
    cases hrun
  · intro _ rest hrun
    cases hrun
    refine ⟨[ts.current], Tokens.eq_before_current hne, nofun, ⟨hk, hread⟩, fun _ => hne, ?_⟩
    intro _
    change EStateM.Result.error _ (c.tokens ts).tail = _
    rw [Continuation.tail_tokens hne]
    rfl

theorem expect {kind : Token.Kind} (hkind : kind ≠ .eof) (hlexical : kind.isLexical = true) :
    Agrees c piped 1 c.labels ts (expect kind) (expect kind) := by
  refine peek ?_
  rw [c.labels.kind_map]
  split
  · rename_i hcur
    exact advance (hcur ▸ hkind)
  · exact throwCurrent hlexical (by simp)

theorem name : Agrees c piped 1 (Name.relabel c.labels) ts name name := by
  refine lead (expect (by decide) rfl) fun tok _ _ => pure ?_
  rw [c.labels.literal_map]
  rfl

/-- If the next token is of one of the kinds it is read, and one less is left. -/
theorem accept? {kinds : List Token.Kind} {k : Option Token → Parser α}
    {k' : Option Token → Parser β} (heof : .eof ∉ kinds) (hleast : least ≤ 1)
    (hnone : Agrees c piped least g ts (k none) (k' none))
    (hsome : ∀ tok rest, rest.ahead.length < ts.ahead.length → tok.kind ∈ kinds →
      Agrees c (piped ∨ tok.kind = .pipe) 0 g rest (k (some tok)) (k' (some (c.labels tok)))) :
    Agrees c piped least g ts (accept? kinds >>= k) (accept? kinds >>= k') := by
  by_cases hcur : ts.current.kind ∈ kinds
  · intro hstop
    have hne := Tokens.ahead_ne_nil hstop fun hk => heof (hk ▸ hcur)
    have hcur' : (c.tokens ts).current.kind ∈ kinds := by
      rwa [Continuation.current_tokens (.inl hne), c.labels.kind_map]
    have hrun' := run_bind_of_ok (f := k') (accept?_of_mem hcur')
    rw [Continuation.current_tokens (.inl hne), Continuation.tail_tokens hne] at hrun'
    rw [run_bind_of_ok (accept?_of_mem hcur), hrun']
    have hlength : ts.tail.ahead.length < ts.ahead.length := by
      rw [Tokens.tail, List.length_tail]
      have hpos := List.length_pos_iff.mpr hne
      omega
    obtain ⟨hok, herror⟩ := hsome ts.current ts.tail hlength hcur hstop
    have hts := Tokens.eq_before_current hne
    refine ⟨fun a rest ha => ?_, fun e rest he => ?_⟩
    · obtain ⟨used, hrest, -, hsame⟩ := hok a rest ha
      refine ⟨ts.current :: used, hts.trans (congrArg (before [ts.current]) hrest), ?_, hsame⟩
      rw [List.length_cons]
      omega
    · obtain ⟨used, hrest, hpipe, hjustified, -, hsame⟩ := herror e rest he
      refine ⟨ts.current :: used, hts.trans (congrArg (before [ts.current]) hrest),
        fun hfault => ?_, hjustified, fun _ => hne, hsame⟩
      -- The token that was read may be the pipe itself.
      rcases hpipe hfault with (hbefore | hpipe) | ⟨pipe, hmem, hpipe⟩
      · exact .inl hbefore
      · exact .inr ⟨ts.current, List.mem_cons_self, hpipe⟩
      · exact .inr ⟨pipe, List.mem_cons_of_mem _ hmem, hpipe⟩
  · by_cases hsees : c.Sees ts
    · refine hnone.congr (run_bind_of_ok (accept?_of_notMem hcur))
        (run_bind_of_ok (accept?_of_notMem ?_))
      rwa [Continuation.current_tokens hsees, c.labels.kind_map]
    · exact (hnone.blind hsees).congr (run_bind_of_ok (accept?_of_notMem hcur)) rfl

/-- A loop that does not begin at a token reads nothing, whatever is behind it. -/
theorem idle {a : α} (hm : m ts = .ok a ts)
    (hm' : ∀ ts' : Tokens, ts'.current = c.labels ts.current → m' ts' = .ok (g a) ts') :
    Agrees c piped 0 g ts m m' := by
  intro _
  rw [hm]
  constructor
  · intro _ rest hrun
    cases hrun
    exact ⟨[], rfl, Nat.le_refl 0, fun hsees => hm' _ (Continuation.current_tokens hsees)⟩
  · intro e rest hrun
    cases hrun

section Loops

variable {n bound bound' : Nat}

-- Each turn of a loop reads a token, so as many turns as there are tokens are enough.

theorem moreItems {item : Parser α} {item' : Parser β}
    (hitem : ∀ piped ts, ts.ahead.length ≤ n → Agrees c piped 1 g ts item item')
    (hn : ts.ahead.length ≤ n) (hb : ts.ahead.length ≤ bound) (hb' : ts.ahead.length ≤ bound') :
    Agrees c piped 0 (List.map g) ts (moreItems item bound) (moreItems item' bound') := by
  induction bound generalizing piped ts bound' with
  | zero =>
    intro hstop
    have hnil : ts.ahead = [] := List.length_eq_zero_iff.mp (by omega)
    have hcur : ts.current.kind = .eof := by rw [Tokens.current_of_nil hnil, hstop]
    exact idle rfl (fun _ h => moreItems_of_notMem (by simp [h, hcur])) hstop
  | succ bound ih =>
    intro hstop
    by_cases hcur : ts.current.kind ∈ [Token.Kind.comma]
    · have hne : ts.ahead ≠ [] :=
        Tokens.ahead_ne_nil hstop (by rw [List.mem_singleton.mp hcur]; decide)
      have hpos := List.length_pos_iff.mpr hne
      obtain ⟨bound', rfl⟩ := Nat.exists_eq_add_one.mpr (Nat.lt_of_lt_of_le hpos hb')
      refine accept? (by decide) (by decide) (pure rfl) ?_ hstop
      intro comma ts₁ h₁ _
      refine bind (hitem _ ts₁ (by omega)) fun x ts₂ h₂ => ?_
      exact bind (ih (by omega) (by omega) (by omega)) fun xs ts₃ h₃ => pure rfl
    · refine idle (moreItems_of_notMem hcur) (fun _ h => moreItems_of_notMem ?_) hstop
      rwa [h, c.labels.kind_map]

theorem items {item : Parser α} {item' : Parser β} {closing : Token.Kind}
    (hclosing : closing ≠ .eof) (hlexical : closing.isLexical = true)
    (hitem : ∀ piped ts, ts.ahead.length ≤ n → Agrees c piped 1 g ts item item')
    (hn : ts.ahead.length ≤ n) (hb : ts.ahead.length ≤ bound) (hb' : ts.ahead.length ≤ bound') :
    Agrees c piped 1 (List.map g) ts (items bound item closing) (items bound' item' closing) := by
  refine accept? (by simpa using hclosing.symm) (by decide) ?_ fun _ _ _ _ => pure rfl
  refine lead (hitem _ ts hn) fun x ts₁ h₁ => ?_
  refine bind (moreItems hitem (by omega) (by omega) (by omega)) fun xs ts₂ h₂ => ?_
  exact bind (expect hclosing hlexical) fun _ _ _ => pure rfl

theorem extend {kinds : List Token.Kind} {suffix suffix' : Expr → Token → Parser Expr}
    (heof : .eof ∉ kinds)
    (hs : ∀ piped e tok ts, ts.ahead.length ≤ n → tok.kind ∈ kinds →
      Agrees c (piped ∨ tok.kind = .pipe) 0 (Expr.relabel c.labels) ts (suffix e tok)
        (suffix' (e.relabel c.labels) (c.labels tok)))
    (hn : ts.ahead.length ≤ n) (hb : ts.ahead.length ≤ bound) (hb' : ts.ahead.length ≤ bound')
    (e : Expr) :
    Agrees c piped 0 (Expr.relabel c.labels) ts (extend kinds suffix bound e)
      (extend kinds suffix' bound' (e.relabel c.labels)) := by
  induction bound generalizing piped ts bound' e with
  | zero =>
    intro hstop
    have hnil : ts.ahead = [] := List.length_eq_zero_iff.mp (by omega)
    have hcur : ts.current.kind = .eof := by rw [Tokens.current_of_nil hnil, hstop]
    refine idle rfl (fun _ h => extend_of_notMem ?_) hstop
    rwa [h, c.labels.kind_map, hcur]
  | succ bound ih =>
    intro hstop
    by_cases hcur : ts.current.kind ∈ kinds
    · have hne : ts.ahead ≠ [] := Tokens.ahead_ne_nil hstop fun hk => heof (hk ▸ hcur)
      have hpos := List.length_pos_iff.mpr hne
      obtain ⟨bound', rfl⟩ := Nat.exists_eq_add_one.mpr (Nat.lt_of_lt_of_le hpos hb')
      refine accept? heof (Nat.zero_le 1) (pure rfl) ?_ hstop
      intro tok ts₁ h₁ htok
      refine bind (hs piped e tok ts₁ (by omega) htok) fun wider ts₂ h₂ => ?_
      exact ih (by omega) (by omega) (by omega) wider
    · refine idle (extend_of_notMem hcur) (fun _ h => extend_of_notMem ?_) hstop
      rwa [h, c.labels.kind_map]

/-- Statements end at the end of the tokens at the latest. -/
theorem statements {stops : List Token.Kind} {statement statement' : Parser Stmt}
    (heof : .eof ∈ stops)
    (hs : ∀ piped ts, ts.ahead.length ≤ n →
      Agrees c piped 1 (Stmt.relabel c.labels) ts statement statement')
    (hn : ts.ahead.length ≤ n) (hb : ts.ahead.length ≤ bound) (hb' : ts.ahead.length ≤ bound') :
    Agrees c piped 0 (Stmt.retokenAll c.labels.everywhere) ts (statements stops statement bound)
      (statements stops statement' bound') := by
  induction bound generalizing piped ts bound' with
  | zero =>
    intro hstop
    have hnil : ts.ahead = [] := List.length_eq_zero_iff.mp (by omega)
    have hcur : ts.current.kind = .eof := by rw [Tokens.current_of_nil hnil, hstop]
    refine idle rfl (fun _ h => statements_of_mem ?_) hstop
    rwa [h, c.labels.kind_map, hcur]
  | succ bound ih =>
    intro hstop
    by_cases hcur : ts.current.kind ∈ stops
    · refine idle (statements_of_mem hcur) (fun _ h => statements_of_mem ?_) hstop
      rwa [h, c.labels.kind_map]
    · have hne : ts.ahead ≠ [] := Tokens.ahead_ne_nil hstop fun hk => hcur (hk ▸ heof)
      have hpos := List.length_pos_iff.mpr hne
      obtain ⟨bound', rfl⟩ := Nat.exists_eq_add_one.mpr (Nat.lt_of_lt_of_le hpos hb')
      have hcur' : (c.tokens ts).current.kind ∉ stops := by
        rwa [Continuation.current_tokens (.inl hne), c.labels.kind_map]
      refine congr ?_ (statements_of_notMem hcur) (statements_of_notMem hcur') hstop
      refine bind (hs _ ts (by omega)) fun s ts₁ h₁ => ?_
      exact bind (ih (by omega) (by omega) (by omega)) fun body ts₂ h₂ => pure rfl

end Loops
end Agrees
end Parser
end PipeCompiler
