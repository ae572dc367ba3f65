import PipeCompiler.Proofs.GreedyGrammar

/-! Every pipe has a target.

A pipe needs a name or a call behind it, and where the operand behind it ends depends only on the
tokens there. So in whatever is read greedily, each pipe is followed by a target: this is a property
of the tokens, whichever phrase they make. -/
namespace PipeCompiler.Grammar

variable {ts us : List Token} {tok : Token} {next : Token.Kind}

/-- The tokens begin with something that can be piped into, if a token of the kind `next` follows
them all. -/
def HasTarget (ts : List Token) (next : Token.Kind) : Prop :=
  ∃ rs post target, ts = rs ++ post ∧ Greedy (.expr .or target) rs (first post next) ∧
    first post next ∉ Level.or.suffixes ∧ IsPipeTarget target

theorem HasTarget.append (h : HasTarget ts (first us next)) : HasTarget (ts ++ us) next := by
  obtain ⟨rs, post, target, rfl, hr, hk, htarget⟩ := h
  refine ⟨rs, post ++ us, target, List.append_assoc .., ?_, ?_, htarget⟩
  · rwa [first_append]
  · rwa [first_append]

/-- Behind each pipe among the tokens there is a target. -/
def Piped (ts : List Token) (next : Token.Kind) : Prop :=
  ∀ before tok after, ts = before ++ tok :: after → tok.kind = .pipe → HasTarget after next

namespace Piped

theorem ofNone (h : ∀ tok ∈ ts, tok.kind ≠ .pipe) : Piped ts next := by
  intro before tok after hts hk
  exact absurd hk (h tok (by simp [hts]))

theorem append (ht : Piped ts (first us next)) (hu : Piped us next) : Piped (ts ++ us) next := by
  intro before tok after hsplit hk
  rcases List.append_eq_append_iff.mp hsplit with ⟨mid, rfl, rfl⟩ | ⟨mid, rfl, hmid⟩
  · exact hu mid tok after rfl hk
  · cases mid with
    | nil => exact hu [] tok after hmid.symm hk
    | cons tok mid =>
      cases hmid
      exact (ht before tok mid rfl hk).append

theorem cons (hk : tok.kind ≠ .pipe) (h : Piped ts next) : Piped (tok :: ts) next := by
  have hone : Piped [tok] (first ts next) := ofNone (by simpa using hk)
  exact hone.append h

/-- Before a token of another kind. -/
theorem appendCons (ht : Piped ts tok.kind) (hk : tok.kind ≠ .pipe) (hu : Piped us next) :
    Piped (ts ++ tok :: us) next :=
  append ht (cons hk hu)

theorem nil : Piped [] next := ofNone nofun

theorem single (hk : tok.kind ≠ .pipe) : Piped [tok] next := cons hk nil

theorem names {closing : Token.Kind} {params : List Name} (h : Listed IsName closing ts params)
    (hc : closing ≠ .pipe) : Piped ts next := by
  apply ofNone
  induction h with
  | empty hclose => simpa [hclose] using hc
  | last hx hclose =>
    obtain ⟨id, hi, rfl, rfl⟩ := hx
    simpa [hi, hclose] using hc
  | more hx hcomma hys ih =>
    obtain ⟨id, hi, rfl, rfl⟩ := hx
    simpa [hi, hcomma] using ih

end Piped

/-- The phrase is not a list that ends with a pipe. -/
def Phrase.EndsPlainly : Phrase → Prop
  | .exprs closing _ => closing ≠ .pipe
  | _ => True

/-- In whatever is read greedily, each pipe has a target. -/
theorem Greedy.piped {phrase : Phrase} (h : Greedy phrase ts next) (hc : phrase.EndsPlainly) :
    Piped ts next := by
  induction h with
  | @declare tok id sign vs value next ht hi hs hv hk ih =>
    have htok : tok.kind ≠ .pipe := by rcases ht with ht | ht <;> simp [ht]
    exact .cons htok (.cons (by simp [hi]) (.cons (by simp [hs]) (ih trivial)))
  | @conciseFunction tok id paren sign ps bs params body next ht hi hp hps hs hb hk ih =>
    have hsign : sign.kind ≠ .pipe := by simp [hs]
    have hbody := Piped.append (.names hps (by decide)) (.cons hsign (ih trivial))
    exact .cons (by simp [ht]) (.cons (by simp [hi]) (.cons (by simp [hp]) hbody))
  | blockFunction ht hi hp hps hb ih =>
    have hbody := Piped.append (.names hps (by decide)) (ih trivial)
    exact .cons (by simp [ht]) (.cons (by simp [hi]) (.cons (by simp [hp]) hbody))
  | leave ht hk => exact .single (by simp [ht])
  | ret ht hv hk ih => exact .cons (by simp [ht]) (ih trivial)
  | @whileLoop tok brace cs bs test body next ht hcond hb ihc ihb =>
    have hbrace := List.mem_singleton.mp ((hb.derives.opens (by simp)).first_mem next)
    have hcs : Piped cs (first bs next) := hbrace ▸ ihc trivial
    exact .cons (by simp [ht]) (hcs.append (ihb trivial))
  | @forLoop tok id word brace xs bs items body next ht hi hw hx hb ihx ihb =>
    have hbrace := List.mem_singleton.mp ((hb.derives.opens (by simp)).first_mem next)
    have hxs : Piped xs (first bs next) := hbrace ▸ ihx trivial
    have hloop := hxs.append (ihb trivial)
    exact .cons (by simp [ht]) (.cons (by simp [hi]) (.cons (by simp [hw]) hloop))
  | assign hi hs hv hk ih => exact .cons (by simp [hi]) (.cons (by simp [hs]) (ih trivial))
  | exprStatement hv hk ha ih => exact ih trivial
  | noStatements hk => exact .nil
  | moreStatements hs hk hb ihs ihb => exact .append (ihs trivial) (ihb trivial)
  | closedStatement hs ht hb ihs ihb =>
    exact .appendCons (ht ▸ ihs trivial) (by simp [ht]) (ihb trivial)
  | block ht hb hclose ih =>
    exact .cons (by simp [ht]) (.appendCons (hclose ▸ ih trivial) (by simp [hclose]) .nil)
  | tighter he hk ih => exact ih trivial
  | @pipe tok ls rs left target next hl ht hr hk hp ihl ihr =>
    -- The one pipe that is not part of a smaller phrase.
    have hpipe : Piped (tok :: rs) next := by
      intro before tok' after hsplit hk'
      cases before with
      | nil =>
        cases hsplit
        exact ⟨rs, [], target, by simp, hr, hk, hp⟩
      | cons _ before =>
        cases hsplit
        exact ihr trivial before tok' after rfl hk'
    have hls : Piped ls tok.kind := ht ▸ ihl trivial
    exact hls.append hpipe
  | @binary level op ls rs left right next hl ho hr hk ihl ihr =>
    have hop : op.kind ≠ .pipe := by
      intro hpipe
      rw [hpipe] at ho
      cases level <;> simp [Level.operators] at ho
    exact .appendCons (ihl trivial) hop (ihr trivial)
  | @unary op ts operand next ho he ih =>
    have hop : op.kind ≠ .pipe := by rcases ho with ho | ho <;> simp [ho]
    exact .cons hop (ih trivial)
  | call hl ht hr ihl ihr =>
    have hargs := ihr (by simp [Phrase.EndsPlainly])
    exact .appendCons (ht ▸ ihl trivial) (by simp [ht]) hargs
  | choicePrimary he ih => exact ih trivial
  | blockPrimary hb ih => exact ih trivial
  | lambda ht hps hb ih =>
    exact .cons (by simp [ht]) (.append (.names hps (by decide)) (ih trivial))
  | thunk ht hb ih => exact .cons (by simp [ht]) (ih trivial)
  | array ht hx ih => exact .cons (by simp [ht]) (ih (by simp [Phrase.EndsPlainly]))
  | parens hp he hclose ih =>
    exact .cons (by simp [hp]) (.appendCons (hclose ▸ ih trivial) (by simp [hclose]) .nil)
  | number ht | string ht | null ht | name ht => exact .single (by simp [ht])
  | bool ht => exact .single (by rcases ht with ht | ht <;> simp [ht])
  | ifThen ht hcond hy hk ihc ihy =>
    exact .cons (by simp [ht]) (.append (ihc trivial) (ihy trivial))
  | @ifThenElse tok word cs ys ns test yes no next ht hcond hy hw hn ihc ihy ihn =>
    have hys : Piped ys word.kind := hw ▸ ihy trivial
    have hcs : Piped cs (first ys word.kind) := hw ▸ ihc trivial
    exact .cons (by simp [ht]) (.appendCons (hcs.append hys) (by simp [hw]) (ihn trivial))
  | blockConsequence hb ih => exact ih trivial
  | thenConsequence hw he ih => exact .cons (by simp [hw]) (ih trivial)
  | elseIf he ih => exact ih trivial
  | elseBranch he hk ih => exact ih trivial
  | blockBranch hb ih => exact ih trivial
  | exprBranch he hk hb ih => exact ih trivial
  | noExprs hclose => exact .single (hclose ▸ hc)
  | lastExpr he hclose ih =>
    exact .appendCons (hclose ▸ ih trivial) (hclose ▸ hc) .nil
  | moreExprs he hcomma hx ihe ihx =>
    exact .appendCons (hcomma ▸ ihe trivial) (by simp [hcomma]) (ihx hc)

end PipeCompiler.Grammar
