import PipeCompiler.Proofs.GreedyGrammar

/-! What the grammar sees of tokens.

The grammar looks at the kinds of tokens, and at the text of a number only to read it. So tokens
that do not differ in these are read as phrases of the same form, whatever names and strings they
are. -/
namespace PipeCompiler.Grammar

/-- All that the grammar sees of a token. -/
def form (tok : Token) : Token.Kind × Bytes :=
  (tok.kind, if tok.kind = .number then tok.literal else [])

/-- One token for the other, the grammar sees no difference. -/
def Alike (ts us : List Token) : Prop :=
  ts.map form = us.map form

theorem kind_eq_of_form_eq {tok tok' : Token} (h : form tok = form tok') : tok.kind = tok'.kind :=
  congrArg Prod.fst h

namespace Alike

variable {ts us vs : List Token} {tok : Token}

theorem refl (ts : List Token) : Alike ts ts := rfl

theorem append {ts' us' : List Token} (ht : Alike ts ts') (hu : Alike us us') :
    Alike (ts ++ us) (ts' ++ us') := by
  unfold Alike at *
  rw [List.map_append, List.map_append, ht, hu]

theorem cons {tok' : Token} (h : form tok = form tok') (hu : Alike ts us) :
    Alike (tok :: ts) (tok' :: us) := by
  unfold Alike at *
  rw [List.map_cons, List.map_cons, h, hu]

theorem eq_nil (h : Alike ts []) : ts = [] :=
  List.map_eq_nil_iff.mp h

theorem exists_cons (h : Alike ts (tok :: us)) :
    ∃ tok' us', ts = tok' :: us' ∧ tok'.kind = tok.kind ∧ Alike us' us := by
  obtain ⟨tok', us', rfl, htok, hus⟩ := List.map_eq_cons_iff.mp h
  exact ⟨tok', us', rfl, kind_eq_of_form_eq htok, hus⟩

theorem exists_singleton (h : Alike ts [tok]) : ∃ tok', ts = [tok'] ∧ tok'.kind = tok.kind := by
  obtain ⟨tok', _, rfl, hk, hnil⟩ := h.exists_cons
  cases hnil.eq_nil
  exact ⟨tok', rfl, hk⟩

theorem exists_append (h : Alike ts (us ++ vs)) :
    ∃ us' vs', ts = us' ++ vs' ∧ Alike us' us ∧ Alike vs' vs := by
  unfold Alike at h
  rw [List.map_append] at h
  obtain ⟨us', vs', rfl, hus, hvs⟩ := List.map_eq_append_iff.mp h
  exact ⟨us', vs', rfl, hus, hvs⟩

theorem first_eq (h : Alike ts us) (next : Token.Kind) : first ts next = first us next := by
  cases us with
  | nil => rw [h.eq_nil]
  | cons tok us =>
    obtain ⟨tok', us', rfl, hk, -⟩ := h.exists_cons
    exact hk

end Alike

theorem Listed.alike {closing : Token.Kind} {ts us : List Token} {params : List Name}
    (h : Listed IsName closing ts params) (ha : Alike us ts) :
    ∃ params', Listed IsName closing us params' ∧ (params ≠ [] → params' ≠ []) := by
  induction h generalizing us with
  | empty hc =>
    obtain ⟨close, rfl, hk⟩ := ha.exists_singleton
    exact ⟨[], .empty (hk.trans hc), fun h => h⟩
  | last hx hc =>
    obtain ⟨id, hi, rfl, rfl⟩ := hx
    obtain ⟨id', _, rfl, hid, ha⟩ := ha.exists_cons
    obtain ⟨close, rfl, hk⟩ := ha.exists_singleton
    have hname : IsName [id'] (.mk id' id'.literal) := ⟨id', hid.trans hi, rfl, rfl⟩
    exact ⟨_, .last hname (hk.trans hc), fun _ => List.cons_ne_nil _ _⟩
  | more hx hc hys ih =>
    obtain ⟨id, hi, rfl, rfl⟩ := hx
    obtain ⟨id', _, rfl, hid, ha⟩ := ha.exists_cons
    obtain ⟨comma, _, rfl, hk, ha⟩ := ha.exists_cons
    obtain ⟨params', hps, hne⟩ := ih ha
    obtain ⟨y, ys, rfl⟩ := List.exists_cons_of_ne_nil (hne (by simp))
    have hname : IsName [id'] (.mk id' id'.literal) := ⟨id', hid.trans hi, rfl, rfl⟩
    exact ⟨_, .more hname (hk.trans hc) hps, fun _ => List.cons_ne_nil _ _⟩

/-- The tokens are read as a phrase of the same form as the given one. -/
def ReadAs : Phrase → List Token → Token.Kind → Prop
  | .statement _, ts, next => ∃ s, Greedy (.statement s) ts next
  | .statements _, ts, next => ∃ body, Greedy (.statements body) ts next
  | .block _ _, ts, next => ∃ brace body, Greedy (.block brace body) ts next
  | .expr level e, ts, next => ∃ e', Greedy (.expr level e') ts next ∧
      (IsPipeTarget e → IsPipeTarget e')
  | .choice _, ts, next => ∃ e, Greedy (.choice e) ts next
  | .consequence _, ts, next => ∃ e, Greedy (.consequence e) ts next
  | .alternative _, ts, next => ∃ e, Greedy (.alternative e) ts next
  | .branch _, ts, next => ∃ e, Greedy (.branch e) ts next
  | .exprs closing es, ts, next => ∃ es', Greedy (.exprs closing es') ts next ∧ (es ≠ [] → es' ≠ [])

/-- Tokens that are alike are read as phrases of the same form. -/
theorem Greedy.alike {phrase : Phrase} {ts us : List Token} {next : Token.Kind}
    (h : Greedy phrase ts next) (ha : Alike us ts) : ReadAs phrase us next := by
  have hother {e : Expr} (h : ¬IsPipeTarget e) {e' : Expr} : IsPipeTarget e → IsPipeTarget e' :=
    fun ht => absurd ht h
  induction h generalizing us with
  | declare ht hi hs hv hk ih =>
    obtain ⟨tok, _, rfl, htok, ha⟩ := ha.exists_cons
    obtain ⟨id, _, rfl, hid, ha⟩ := ha.exists_cons
    obtain ⟨sign, _, rfl, hsign, ha⟩ := ha.exists_cons
    obtain ⟨value, hvalue, -⟩ := ih ha
    exact ⟨_, .declare (by rwa [htok]) (hid.trans hi) (hsign.trans hs) hvalue hk⟩
  | conciseFunction ht hi hp hps hs hb hk ih =>
    obtain ⟨tok, _, rfl, htok, ha⟩ := ha.exists_cons
    obtain ⟨id, _, rfl, hid, ha⟩ := ha.exists_cons
    obtain ⟨paren, _, rfl, hparen, ha⟩ := ha.exists_cons
    obtain ⟨ps, _, rfl, hps', ha⟩ := ha.exists_append
    obtain ⟨sign, _, rfl, hsign, ha⟩ := ha.exists_cons
    obtain ⟨params, hparams, -⟩ := hps.alike hps'
    obtain ⟨body, hbody, -⟩ := ih ha
    exact ⟨_, .conciseFunction (htok.trans ht) (hid.trans hi) (hparen.trans hp) hparams
      (hsign.trans hs) hbody hk⟩
  | blockFunction ht hi hp hps hb ih =>
    obtain ⟨tok, _, rfl, htok, ha⟩ := ha.exists_cons
    obtain ⟨id, _, rfl, hid, ha⟩ := ha.exists_cons
    obtain ⟨paren, _, rfl, hparen, ha⟩ := ha.exists_cons
    obtain ⟨ps, _, rfl, hps', ha⟩ := ha.exists_append
    obtain ⟨params, hparams, -⟩ := hps.alike hps'
    obtain ⟨brace, body, hbody⟩ := ih ha
    exact ⟨_, .blockFunction (htok.trans ht) (hid.trans hi) (hparen.trans hp) hparams hbody⟩
  | leave ht hk =>
    obtain ⟨tok, rfl, htok⟩ := ha.exists_singleton
    exact ⟨_, .leave (htok.trans ht) hk⟩
  | ret ht hv hk ih =>
    obtain ⟨tok, _, rfl, htok, ha⟩ := ha.exists_cons
    obtain ⟨value, hvalue, -⟩ := ih ha
    exact ⟨_, .ret (htok.trans ht) hvalue hk⟩
  | whileLoop ht hc hb ihc ihb =>
    obtain ⟨tok, _, rfl, htok, ha⟩ := ha.exists_cons
    obtain ⟨cs, bs, rfl, hcs, hbs⟩ := ha.exists_append
    obtain ⟨test, htest, -⟩ := ihc hcs
    obtain ⟨brace, body, hbody⟩ := ihb hbs
    exact ⟨_, .whileLoop (htok.trans ht) htest hbody⟩
  | forLoop ht hi hw hx hb ihx ihb =>
    obtain ⟨tok, _, rfl, htok, ha⟩ := ha.exists_cons
    obtain ⟨id, _, rfl, hid, ha⟩ := ha.exists_cons
    obtain ⟨word, _, rfl, hword, ha⟩ := ha.exists_cons
    obtain ⟨xs, bs, rfl, hxs, hbs⟩ := ha.exists_append
    obtain ⟨items, hitems, -⟩ := ihx hxs
    obtain ⟨brace, body, hbody⟩ := ihb hbs
    exact ⟨_, .forLoop (htok.trans ht) (hid.trans hi) (hword.trans hw) hitems hbody⟩
  | assign hi hs hv hk ih =>
    obtain ⟨id, _, rfl, hid, ha⟩ := ha.exists_cons
    obtain ⟨sign, _, rfl, hsign, ha⟩ := ha.exists_cons
    obtain ⟨value, hvalue, -⟩ := ih ha
    exact ⟨_, .assign (hid.trans hi) (hsign.trans hs) hvalue hk⟩
  | exprStatement hv hk hassign ih =>
    obtain ⟨value, hvalue, -⟩ := ih ha
    obtain ⟨tok, vs, rfl, htok, ha⟩ := ha.exists_cons
    refine ⟨_, .exprStatement hvalue hk ?_⟩
    intro hi
    rw [ha.first_eq]
    exact hassign (htok ▸ hi)
  | noStatements hk =>
    cases ha.eq_nil
    exact ⟨_, .noStatements hk⟩
  | moreStatements hs hk hb ihs ihb =>
    obtain ⟨ts, us, rfl, hts, hus⟩ := ha.exists_append
    obtain ⟨s, hs⟩ := ihs hts
    obtain ⟨body, hbody⟩ := ihb hus
    rw [← hus.first_eq] at hs hk
    exact ⟨_, .moreStatements hs hk hbody⟩
  | closedStatement hs ht hb ihs ihb =>
    obtain ⟨ts, _, rfl, hts, ha⟩ := ha.exists_append
    obtain ⟨tok, us, rfl, htok, hus⟩ := ha.exists_cons
    obtain ⟨s, hs⟩ := ihs hts
    obtain ⟨body, hbody⟩ := ihb hus
    exact ⟨_, .closedStatement hs (htok.trans ht) hbody⟩
  | block ht hb hc ih =>
    obtain ⟨brace, _, rfl, hbrace, ha⟩ := ha.exists_cons
    obtain ⟨bs, _, rfl, hbs, ha⟩ := ha.exists_append
    obtain ⟨close, rfl, hclose⟩ := ha.exists_singleton
    obtain ⟨body, hbody⟩ := ih hbs
    exact ⟨_, _, .block (hbrace.trans ht) hbody (hclose.trans hc)⟩
  | tighter he hk ih =>
    obtain ⟨e, he, htarget⟩ := ih ha
    exact ⟨e, .tighter he hk, htarget⟩
  | pipe hl ht hr hk hp ihl ihr =>
    obtain ⟨ls, _, rfl, hls, ha⟩ := ha.exists_append
    obtain ⟨tok, rs, rfl, htok, hrs⟩ := ha.exists_cons
    obtain ⟨left, hleft, -⟩ := ihl hls
    obtain ⟨target, htarget, hsame⟩ := ihr hrs
    exact ⟨_, .pipe hleft (htok.trans ht) htarget hk (hsame hp), hother (by simp [IsPipeTarget])⟩
  | binary hl ho hr hk ihl ihr =>
    obtain ⟨ls, _, rfl, hls, ha⟩ := ha.exists_append
    obtain ⟨op, rs, rfl, hop, hrs⟩ := ha.exists_cons
    obtain ⟨left, hleft, -⟩ := ihl hls
    obtain ⟨right, hright, -⟩ := ihr hrs
    rw [← hop] at hleft ho
    exact ⟨_, .binary hleft ho hright hk, hother (by simp [IsPipeTarget])⟩
  | unary ho he ih =>
    obtain ⟨op, _, rfl, hop, ha⟩ := ha.exists_cons
    obtain ⟨operand, hoperand, -⟩ := ih ha
    exact ⟨_, .unary (by rwa [hop]) hoperand, hother (by simp [IsPipeTarget])⟩
  | call hl ht hr ihl ihr =>
    obtain ⟨ls, _, rfl, hls, ha⟩ := ha.exists_append
    obtain ⟨tok, rs, rfl, htok, hrs⟩ := ha.exists_cons
    obtain ⟨callee, hcallee, -⟩ := ihl hls
    obtain ⟨args, hargs, -⟩ := ihr hrs
    exact ⟨_, .call hcallee (htok.trans ht) hargs, fun _ => .inr ⟨_, _, _, rfl⟩⟩
  | choicePrimary he ih =>
    obtain ⟨e, hchoice⟩ := ih ha
    exact ⟨e, .choicePrimary hchoice, hother (by cases he <;> simp [IsPipeTarget])⟩
  | blockPrimary hb ih =>
    obtain ⟨brace, body, hbody⟩ := ih ha
    exact ⟨_, .blockPrimary hbody, hother (by simp [IsPipeTarget])⟩
  | lambda ht hps hb ih =>
    obtain ⟨tok, _, rfl, htok, ha⟩ := ha.exists_cons
    obtain ⟨ps, bs, rfl, hps', hbs⟩ := ha.exists_append
    obtain ⟨params, hparams, -⟩ := hps.alike hps'
    obtain ⟨body, hbody⟩ := ih hbs
    exact ⟨_, .lambda (htok.trans ht) hparams hbody, hother (by simp [IsPipeTarget])⟩
  | thunk ht hb ih =>
    obtain ⟨tok, _, rfl, htok, ha⟩ := ha.exists_cons
    obtain ⟨body, hbody⟩ := ih ha
    exact ⟨_, .thunk (htok.trans ht) hbody, hother (by simp [IsPipeTarget])⟩
  | array ht hx ih =>
    obtain ⟨tok, _, rfl, htok, ha⟩ := ha.exists_cons
    obtain ⟨items, hitems, -⟩ := ih ha
    exact ⟨_, .array (htok.trans ht) hitems, hother (by simp [IsPipeTarget])⟩
  | parens hp he hc ih =>
    obtain ⟨paren, _, rfl, hparen, ha⟩ := ha.exists_cons
    obtain ⟨ts, _, rfl, hts, ha⟩ := ha.exists_append
    obtain ⟨close, rfl, hclose⟩ := ha.exists_singleton
    obtain ⟨e, he, htarget⟩ := ih hts
    exact ⟨e, .parens (hparen.trans hp) he (hclose.trans hc), htarget⟩
  | @number tok value next ht hv =>
    -- The one place where the grammar looks at the text of a token.
    obtain ⟨tok', _, rfl, hform, hnil⟩ := List.map_eq_cons_iff.mp ha
    cases List.map_eq_nil_iff.mp hnil
    have htok : tok'.kind = .number := (kind_eq_of_form_eq hform).trans ht
    have hliteral : tok'.literal = tok.literal := by simpa [form, ht, htok] using hform
    exact ⟨_, .number htok (hliteral ▸ hv), hother (by simp [IsPipeTarget])⟩
  | string ht =>
    obtain ⟨tok, rfl, htok⟩ := ha.exists_singleton
    exact ⟨_, .string (htok.trans ht), hother (by simp [IsPipeTarget])⟩
  | bool ht =>
    obtain ⟨tok, rfl, htok⟩ := ha.exists_singleton
    exact ⟨_, .bool (by rwa [htok]), hother (by simp [IsPipeTarget])⟩
  | null ht =>
    obtain ⟨tok, rfl, htok⟩ := ha.exists_singleton
    exact ⟨_, .null (htok.trans ht), hother (by simp [IsPipeTarget])⟩
  | name hi =>
    obtain ⟨id, rfl, hid⟩ := ha.exists_singleton
    exact ⟨_, .name (hid.trans hi), fun _ => .inl ⟨_, rfl⟩⟩
  | ifThen ht hc hy hk ihc ihy =>
    obtain ⟨tok, _, rfl, htok, ha⟩ := ha.exists_cons
    obtain ⟨cs, ys, rfl, hcs, hys⟩ := ha.exists_append
    obtain ⟨test, htest, -⟩ := ihc hcs
    obtain ⟨yes, hyes⟩ := ihy hys
    rw [← hys.first_eq] at htest
    exact ⟨_, .ifThen (htok.trans ht) htest hyes hk⟩
  | ifThenElse ht hc hy hw hn ihc ihy ihn =>
    obtain ⟨tok, _, rfl, htok, ha⟩ := ha.exists_cons
    obtain ⟨_, _, rfl, hcond, hrest⟩ := ha.exists_append
    obtain ⟨cs, ys, rfl, hcs, hys⟩ := hcond.exists_append
    obtain ⟨word, ns, rfl, hword, hns⟩ := hrest.exists_cons
    obtain ⟨test, htest, -⟩ := ihc hcs
    obtain ⟨yes, hyes⟩ := ihy hys
    obtain ⟨no, hno⟩ := ihn hns
    rw [← hys.first_eq] at htest
    exact ⟨_, .ifThenElse (htok.trans ht) htest hyes (hword.trans hw) hno⟩
  | blockConsequence hb ih =>
    obtain ⟨brace, body, hbody⟩ := ih ha
    exact ⟨_, .blockConsequence hbody⟩
  | thenConsequence hw he ih =>
    obtain ⟨word, _, rfl, hword, ha⟩ := ha.exists_cons
    obtain ⟨e, he⟩ := ih ha
    exact ⟨e, .thenConsequence (hword.trans hw) he⟩
  | elseIf he ih =>
    obtain ⟨e, he⟩ := ih ha
    exact ⟨e, .elseIf he⟩
  | elseBranch he hk ih =>
    obtain ⟨e, he⟩ := ih ha
    exact ⟨e, .elseBranch he (ha.first_eq _ ▸ hk)⟩
  | blockBranch hb ih =>
    obtain ⟨brace, body, hbody⟩ := ih ha
    exact ⟨_, .blockBranch hbody⟩
  | exprBranch he hk hb ih =>
    obtain ⟨e, he, -⟩ := ih ha
    exact ⟨e, .exprBranch he hk (ha.first_eq _ ▸ hb)⟩
  | noExprs hc =>
    obtain ⟨close, rfl, hclose⟩ := ha.exists_singleton
    exact ⟨[], .noExprs (hclose.trans hc), fun h => h⟩
  | lastExpr he hc ih =>
    obtain ⟨ts, _, rfl, hts, ha⟩ := ha.exists_append
    obtain ⟨close, rfl, hclose⟩ := ha.exists_singleton
    obtain ⟨e, he, -⟩ := ih hts
    exact ⟨[e], .lastExpr he (hclose.trans hc), fun _ => List.cons_ne_nil _ _⟩
  | moreExprs he hc hx ihe ihx =>
    obtain ⟨ts, _, rfl, hts, ha⟩ := ha.exists_append
    obtain ⟨comma, us, rfl, hcomma, hus⟩ := ha.exists_cons
    obtain ⟨e, he, -⟩ := ihe hts
    obtain ⟨es, hes, hne⟩ := ihx hus
    obtain ⟨x, xs, rfl⟩ := List.exists_cons_of_ne_nil (hne (by simp))
    exact ⟨_, .moreExprs he (hcomma.trans hc) hes, fun _ => List.cons_ne_nil _ _⟩

end PipeCompiler.Grammar
