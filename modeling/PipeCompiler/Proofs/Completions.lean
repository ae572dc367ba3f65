import PipeCompiler.Proofs.PipeTargets
import PipeCompiler.Proofs.SpelledTokens

/-! What is cut short can be completed.

A run that fails at the end of input has read the beginning of a phrase. Some tokens behind it make
it a whole one: a name where an expression is missing, and the brackets that are still open. Only a
pipe can stand in the way, if what follows it cannot become a target any more. `Mends ts m Q` is the
contract of a run that fails for want of more tokens, and there is one rule for each way of putting
parsers together. -/
namespace PipeCompiler

open PipeCompiler.Parser
open Grammar (AsFinal Greedy HasTarget IsName IsPipeTarget Level Listed Phrase closers first)
open Tokens (before)

/-- What follows each pipe begins with a target, or does so once more is written behind it. -/
def PipesOpen (ts : List Token) : Prop :=
  ∀ before tok after, ts = before ++ tok :: after → tok.kind = .pipe →
    ∃ text us, seen? text = some us ∧ HasTarget (after ++ us) .eof

theorem PipesOpen.rest {us vs : List Token} (h : PipesOpen (us ++ vs)) : PipesOpen vs := by
  intro before tok after hsplit hk
  exact h (us ++ before) tok after (by simp [hsplit]) hk

/-- The kinds of the tokens that complete a phrase. -/
def fillers : List Token.Kind :=
  [.ident, .assign, .lparen, .rparen, .rbracket, .lbrace, .rbrace, .bar, .inWord]

theorem spelled_samples (kinds : List Token.Kind) (h : ∀ k ∈ kinds, k ∈ fillers) :
    Spelled (kinds.map .sample) := by
  intro tok htok
  obtain ⟨k, hk, rfl⟩ := List.mem_map.mp htok
  have hall : ∀ k ∈ fillers, k = .ident ∨
      ∃ x ∈ Token.Kind.operators ++ Token.Kind.words, x.2 = k := by decide
  exact isSpelled_sample (hall k (h k hk))

namespace Grammar

/-- With some tokens behind them, the tokens make a phrase of the form. -/
def Begun {α : Type} (phrase : α → Phrase) (ts : List Token) : Prop :=
  ∃ us a, Spelled us ∧ Greedy (phrase a) (ts ++ us) .eof

namespace Begun

variable {α β : Type} {p : α → Phrase} {q : β → Phrase} {ts ts' : List Token}

theorem whole {a : α} (h : Greedy (p a) ts .eof) : Begun p ts :=
  ⟨[], a, .nil, by rwa [List.append_nil]⟩

/-- One phrase within another, and then what the other one ends with. -/
theorem lift (kinds : List Token.Kind) (hkinds : ∀ k ∈ kinds, k ∈ fillers) (h : Begun p ts)
    (hq : ∀ us a, Greedy (p a) (ts ++ us) .eof →
      ∃ b, Greedy (q b) (ts' ++ (us ++ kinds.map .sample)) .eof) : Begun q ts' := by
  obtain ⟨us, a, hus, ha⟩ := h
  obtain ⟨b, hb⟩ := hq us a ha
  exact ⟨_, b, hus.append (spelled_samples kinds hkinds), hb⟩

/-- One phrase that ends with another. -/
theorem within (h : Begun p ts)
    (hq : ∀ us a, Greedy (p a) (ts ++ us) .eof → ∃ b, Greedy (q b) (ts' ++ us) .eof) :
    Begun q ts' :=
  lift [] nofun h fun us a ha => by simpa using hq us a ha

/-- What is missing in a phrase is filled in. -/
theorem fill (kinds : List Token.Kind) (hkinds : ∀ k ∈ kinds, k ∈ fillers)
    (h : Begun p (ts ++ kinds.map .sample)) : Begun p ts := by
  obtain ⟨us, a, hus, ha⟩ := h
  exact ⟨_, a, (spelled_samples kinds hkinds).append hus, by rwa [List.append_assoc] at ha⟩

end Begun

variable {ts : List Token}

theorem Greedy.statement_beforeBrace {s : Stmt} (h : Greedy (.statement s) ts .eof) :
    Greedy (.statement s) ts .rbrace := by
  by_cases hr : ∀ tok, s ≠ .ret tok .missing
  · exact h.statement_asFinal (.ofCloser (by decide)) (by decide) hr
  · cases h with
    | leave ht hk => exact .leave ht (by decide)
    | ret ht hv hk => exact .ret ht (hv.asFinal (.ofCloser (by decide)) rfl) (by decide)
    | _ => exact absurd nofun hr

/-- Statements that end with the input end with a closing brace as well. -/
theorem Greedy.statements_beforeBrace {body : List Stmt} (h : Greedy (.statements body) ts .eof) :
    Greedy (.statements body) ts .rbrace := by
  induction body generalizing ts with
  | nil =>
    cases h
    exact .noStatements (by decide)
  | cons s body ih =>
    cases h with
    | @moreStatements ts us _ _ _ hs hk hb =>
      cases us with
      | nil => exact .moreStatements hs.statement_beforeBrace (by decide) (ih hb)
      | cons tok us => exact .moreStatements hs hk (ih hb)
    | closedStatement hs ht hb => exact .closedStatement hs ht (ih hb)

end Grammar

open Grammar (Begun)

/-- The tokens end where the input does, and every pipe among them has a target or can get one. -/
structure Tokens.Open (ts : Tokens) : Prop where
  stop : ts.stop.kind = .eof
  ahead : ∀ tok ∈ ts.ahead, tok.kind ≠ .eof
  pipes : PipesOpen ts.ahead

namespace Tokens.Open

variable {ts : Tokens}

theorem rest {used : List Token} (h : (before used ts).Open) : ts.Open :=
  ⟨h.stop, fun tok htok => h.ahead tok (List.mem_append_right _ htok), h.pipes.rest⟩

theorem ahead_eq_nil (h : ts.Open) (hk : ts.current.kind = .eof) : ts.ahead = [] := by
  cases hahead : ts.ahead with
  | nil => rfl
  | cons tok rest =>
    have hk : tok.kind = .eof := by simpa [Tokens.current, hahead] using hk
    exact absurd hk (h.ahead tok (by simp [hahead]))

/-- An expression is read up to the same place if more tokens follow at the end of input, and these
close something around it. -/
theorem read {cs : List Token} {e : Expr} (h : ts.Open)
    (he : Greedy (.expr .pipeline e) cs ts.current.kind) (us : List Token)
    (hk : first (ts.ahead ++ us) .eof ∈ closers) :
    Greedy (.expr .pipeline e) cs (first (ts.ahead ++ us) .eof) := by
  cases hahead : ts.ahead with
  | nil =>
    have hend : ts.current.kind = .eof := by simpa [Tokens.current, hahead] using h.stop
    rw [hahead] at hk
    exact (hend ▸ he).asFinal (.ofCloser hk) rfl
  | cons tok rest => simpa [Tokens.current, hahead] using he

end Tokens.Open

namespace Parser

variable {α β : Type} {ts : Tokens} {Q Q' : Prop}

/-- A run that fails, but not for good, has come so far that `Q` holds. -/
def Mends (ts : Tokens) (m : Parser α) (Q : Prop) : Prop :=
  ts.Open → ∀ e rest, m ts = .error e rest → ¬e.Definite → Q

namespace Mends

variable {m : Parser α} {f : α → Parser β}

theorem pure (a : α) : Mends ts (pure a) Q := by
  intro _ e rest hrun
  cases hrun

theorem mono (h : Mends ts m Q) (hq : Q → Q') : Mends ts m Q' :=
  fun hopen e rest hrun he => hq (h hopen e rest hrun he)

theorem ofOpen (h : ts.Open → Mends ts m Q) : Mends ts m Q :=
  fun hopen => h hopen hopen

theorem bind {R : List Token → Tokens → α → Prop} (hm : Mends ts m Q) (hfinds : Finds ts m R)
    (hf : ∀ used rest a, ts = before used rest → R used rest a → Mends rest (f a) Q) :
    Mends ts (m >>= f) Q := by
  intro hopen e rest' hrun he
  rcases run_bind_eq_error.mp hrun with hfail | ⟨a, rest, hok, hfail⟩
  · exact hm hopen e rest' hfail he
  · obtain ⟨used, rfl, hr⟩ := hfinds hopen.stop a rest hok
    exact hf used rest a rfl hr hopen.rest e rest' hfail he

/-- A last step that cannot fail. -/
theorem map {f : α → β} (hm : Mends ts m Q) : Mends ts (do return f (← m)) Q := by
  intro hopen e rest hrun he
  rcases run_bind_eq_error.mp hrun with hrun | ⟨a, rest', -, hrun⟩
  · exact hm hopen e rest hrun he
  · cases hrun

theorem peek {f : Token → Parser α} (h : Mends ts (f ts.current) Q) : Mends ts (peek >>= f) Q := h

theorem get {f : Tokens → Parser α} (h : Mends ts (f ts) Q) : Mends ts (get >>= f) Q := h

/-- Where a token does not fit, it is the end of input. -/
theorem throw {e : GrammarError} (htok : e.tok = ts.current) (hfault : e.fault ≠ .pipeTarget)
    (hend : ts.ahead = [] → Q) : Mends ts (throw e : Parser α) Q := by
  intro hopen e' rest hrun he
  cases hrun
  apply hend
  apply hopen.ahead_eq_nil
  by_contra hk
  exact he ⟨htok ▸ hk, hfault⟩

theorem unexpected (hend : ts.ahead = [] → Q) : Mends ts (unexpected : Parser α) Q :=
  .peek (.throw rfl (by simp) hend)

theorem advance {f : Token → Parser β} (hk : ts.current.kind ≠ .eof)
    (hf : ∀ tok rest, ts = before [tok] rest → Mends rest (f tok) Q) :
    Mends ts (advance >>= f) Q := by
  have hnone : Mends ts Parser.advance Q := by
    intro _ e rest hrun
    cases hrun
  refine .bind hnone (.advance hk) ?_
  rintro _ rest tok hts rfl
  exact hf tok rest hts

theorem expect {kind : Token.Kind} {f : Token → Parser β} (hk : kind ≠ .eof)
    (hend : ts.ahead = [] → Q)
    (hf : ∀ tok rest, ts = before [tok] rest → tok.kind = kind → Mends rest (f tok) Q) :
    Mends ts (expect kind >>= f) Q := by
  have hmiss : Mends ts (Parser.expect kind) Q := by
    refine .peek ?_
    split
    · intro _ e rest hrun
      cases hrun
    · exact .throw rfl (by simp) hend
  refine .bind hmiss (.expect hk) ?_
  rintro _ rest tok hts ⟨rfl, hkind⟩
  exact hf tok rest hts hkind

theorem missingName (hend : ts.ahead = [] → Q) : Mends ts Parser.name Q :=
  .expect (by simp) hend fun _ _ _ _ => .pure _

theorem name {f : Name → Parser β} (hend : ts.ahead = [] → Q)
    (hf : ∀ id rest, ts = before [id] rest → id.kind = .ident →
      Mends rest (f (.mk id id.literal)) Q) : Mends ts (name >>= f) Q := by
  refine .bind (.missingName hend) .name ?_
  rintro _ rest _ hts ⟨id, hi, rfl, rfl⟩
  exact hf id rest hts hi

theorem accept? {kinds : List Token.Kind} {f : Option Token → Parser β} (hk : .eof ∉ kinds)
    (hnone : ts.current.kind ∉ kinds → Mends ts (f none) Q)
    (hsome : ∀ tok rest, ts = before [tok] rest → tok.kind ∈ kinds → Mends rest (f (some tok)) Q) :
    Mends ts (accept? kinds >>= f) Q := by
  have hall : Mends ts (Parser.accept? kinds) Q := by
    refine .peek ?_
    split
    · intro _ e rest hrun
      cases hrun
    · exact .pure _
  refine .bind hall (.accept? hk) ?_
  rintro _ rest (_ | tok) rfl haccepted
  · obtain ⟨rfl, hother⟩ := haccepted
    exact hnone hother
  · obtain ⟨rfl, hmem⟩ := haccepted
    exact hsome tok rest rfl hmem

/-- In a loop that makes an expression wider, each turn can be completed. -/
theorem extend {suffix : Expr → Token → Parser Expr} (level : Level) {n : Nat}
    (hfinds : ∀ (ts : Tokens) es e tok, ts.ahead.length ≤ n → tok.kind ∈ level.suffixes →
      Greedy (.expr level e) es tok.kind → Finds ts (suffix e tok) fun used rest wider =>
        Greedy (.expr level wider) (es ++ tok :: used) rest.current.kind)
    (hstep : ∀ (ts : Tokens) es e tok, (before [tok] ts).Open → ts.ahead.length ≤ n →
      tok.kind ∈ level.suffixes → Greedy (.expr level e) es tok.kind →
      Mends ts (suffix e tok) (Begun (.expr level) (es ++ tok :: ts.ahead)))
    (bound : Nat) {es : List Token} {e : Expr} (hn : ts.ahead.length ≤ n)
    (he : Greedy (.expr level e) es ts.current.kind) :
    Mends ts (extend level.suffixes suffix bound e) (Begun (.expr level) (es ++ ts.ahead)) := by
  have heof : .eof ∉ level.suffixes := by cases level <;> decide
  induction bound generalizing ts es e with
  | zero => exact .pure _
  | succ bound ih =>
    refine .ofOpen fun hopen => .accept? heof (fun _ => .pure _) ?_
    rintro tok ts₁ rfl hk
    simp only [Tokens.ahead_length_before, List.length_singleton] at hn
    refine .bind (hstep ts₁ es e tok hopen (by omega) hk he)
      (hfinds ts₁ es e tok (by omega) hk he) ?_
    rintro used rest wider rfl hwider
    simp only [Tokens.ahead_length_before] at hn
    simpa [before] using ih (by omega) hwider

section Lists

variable {item : Parser α} {Item : α → List Token → Token.Kind → Prop}
  {L : List α → List Token → Prop} {closing : Token.Kind} {n : Nat}

/-- What a list is made of: how an item fails, what it is when it is read, and how items make a
list. -/
structure Itemized (n : Nat) (item : Parser α) (Item : α → List Token → Token.Kind → Prop)
    (L : List α → List Token → Prop) (closing : Token.Kind) : Prop where
  filler : closing ∈ fillers
  mends : ∀ ts : Tokens, ts.ahead.length ≤ n →
    Mends ts item (∃ us a, Spelled us ∧ Item a (ts.ahead ++ us) .eof)
  finds : ∀ ts : Tokens, ts.ahead.length ≤ n →
    Finds ts item fun used rest a => Item a used rest.current.kind
  ends : ∀ a us, Item a us .eof → Item a us closing
  last : ∀ a us close, Item a us closing → close.kind = closing → L [a] (us ++ [close])
  more : ∀ a b bs us comma vs, Item a us .comma → comma.kind = .comma → L (b :: bs) vs →
    L (a :: b :: bs) (us ++ comma :: vs)

/-- An item that ends with the input can be the last one. -/
theorem Itemized.final (h : Itemized n item Item L closing) {a : α} {us : List Token}
    (ha : Item a us .eof) : L [a] (us ++ [.sample closing]) :=
  h.last a us _ (h.ends a us ha) (by simp)

theorem Itemized.spelled_closing (h : Itemized n item Item L closing) :
    Spelled [.sample closing] := by
  exact spelled_samples [closing] (by simpa using h.filler)

theorem itemsFrom (h : Itemized n item Item L closing) (hc : closing ≠ .eof) (bound : Nat)
    (hn : ts.ahead.length ≤ n) :
    Mends ts (itemsFrom bound item closing)
      (∃ us b bs, Spelled us ∧ L (b :: bs) (ts.ahead ++ us)) := by
  induction bound using Nat.strong_induction_on generalizing ts with
  | _ bound ih =>
    refine .bind ((h.mends ts hn).mono ?_) (h.finds ts hn) ?_
    · rintro ⟨us, a, hus, ha⟩
      refine ⟨_, a, [], hus.append h.spelled_closing, ?_⟩
      simpa using h.final ha
    rintro fs ts₁ a rfl ha
    simp only [Tokens.ahead_length_before] at hn
    -- Behind an item only the closing token can be missing, and then at the end of input.
    have hlast : Mends ts₁ (do
        let _ ← Parser.expect closing
        return [a]) (∃ us b bs, Spelled us ∧ L (b :: bs) ((before fs ts₁).ahead ++ us)) := by
      refine .ofOpen fun hopen => .expect hc (fun hnil => ?_) fun _ _ _ _ => .pure _
      have hend : ts₁.current.kind = .eof := by simpa [Tokens.current, hnil] using hopen.stop
      refine ⟨_, a, [], h.spelled_closing, ?_⟩
      simpa [before, hnil] using h.final (hend ▸ ha)
    cases bound with
    | zero => exact hlast
    | succ bound =>
      rw [moreItems_itemsFrom]
      refine .accept? (by simp) (fun _ => hlast) ?_
      rintro comma ts₂ rfl hcomma
      have hcomma := List.mem_singleton.mp hcomma
      rw [Tokens.current_before_cons, hcomma] at ha
      simp only [Tokens.ahead_length_before] at hn
      refine .map ((ih bound (Nat.lt_succ_self bound) (by omega)).mono ?_)
      rintro ⟨us, b, bs, hus, hbs⟩
      refine ⟨us, a, b :: bs, hus, ?_⟩
      simpa [before] using h.more a b bs fs comma _ ha hcomma hbs

theorem items (h : Itemized n item Item L closing) (hc : closing ≠ .eof) (bound : Nat)
    (hn : ts.ahead.length ≤ n) :
    Mends ts (items bound item closing) (∃ us as, Spelled us ∧ L as (ts.ahead ++ us)) := by
  refine .accept? (by simpa using hc.symm) (fun _ => ?_) (fun _ _ _ _ => .pure _)
  refine (itemsFrom h hc bound hn).mono ?_
  rintro ⟨us, b, bs, hus, hbs⟩
  exact ⟨us, b :: bs, hus, hbs⟩

/-- Names with commas between them. -/
theorem names (hf : closing ∈ fillers) (hc : closing ≠ .eof) (bound : Nat) :
    Mends ts (Parser.items bound Parser.name closing)
      (∃ us params, Spelled us ∧ Listed IsName closing (ts.ahead ++ us) params) := by
  have hnames : Itemized ts.ahead.length Parser.name (fun n us _ => IsName us n)
      (fun params us => Listed IsName closing us params) closing :=
    { filler := hf
      mends := fun ts _ => .missingName fun hnil =>
        ⟨[.sample .ident], _, spelled_samples [.ident] (by decide), .sample .ident,
          Token.sample_kind _, by rw [hnil, List.nil_append], rfl⟩
      finds := fun ts _ => .name
      ends := fun _ _ h => h
      last := fun _ _ _ h hclose => .last h hclose
      more := fun _ _ _ _ _ _ h hcomma hrest => .more h hcomma hrest }
  exact items hnames hc bound le_rfl

end Lists

end Mends

end Parser

end PipeCompiler
