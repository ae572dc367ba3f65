import PipeCompiler.Proofs.Reading

/-! Every greedy derivation is found.

Where the tokens of a phrase can be read greedily, the parser of the phrase reads them so and leaves
off at the token that follows. The induction is on the greedy derivation, and every side condition
of it is a decision that the parser takes. -/
namespace PipeCompiler

open PipeCompiler.Parser
open Grammar (Greedy IsName Level Listed Opens Phrase first)
open Tokens (before)

namespace Phrases

/-- The parser of a level, if `inner` reads the phrases nested in it. -/
def level (inner : Phrases) : Level → Parser Expr
  | .pipeline => inner.pipeline
  | .or => inner.operation
  | .and => (tiers.drop 1).foldr (binaryChain inner.bound) inner.unaryChain
  | .equality => (tiers.drop 2).foldr (binaryChain inner.bound) inner.unaryChain
  | .comparison => (tiers.drop 3).foldr (binaryChain inner.bound) inner.unaryChain
  | .sum => (tiers.drop 4).foldr (binaryChain inner.bound) inner.unaryChain
  | .product => (tiers.drop 5).foldr (binaryChain inner.bound) inner.unaryChain
  | .unary => inner.unaryChain
  | .call => inner.call
  | .primary => inner.primary

/-- What follows the first token of a suffix. -/
def suffix (inner : Phrases) : Level → Expr → Token → Parser Expr
  | .pipeline => inner.pipeTarget
  | .call => inner.arguments
  | level => rightOperand (inner.level level.tighter)

private theorem suffix_of_mem (inner : Phrases) {level : Level} {k : Token.Kind}
    (h : k ∈ level.operators) : inner.suffix level = rightOperand (inner.level level.tighter) := by
  cases level with
  | pipeline | call => simp [Level.operators] at h
  | _ => rfl

/-- The loop that makes an expression of a level wider. -/
def widen (inner : Phrases) (level : Level) : Nat → Expr → Parser Expr :=
  extend level.suffixes (inner.suffix level)

private theorem level_eq (inner : Phrases) {level : Level} (hu : level ≠ .unary)
    (hp : level ≠ .primary) :
    inner.level level = (do inner.widen level inner.bound (← inner.level level.tighter)) := by
  cases level with
  | unary => exact absurd rfl hu
  | primary => exact absurd rfl hp
  | _ => rfl

/-- The parser of the level has read the tokens `used` as `e`, and its loop goes on from there. -/
def Reaches (inner : Phrases) (level : Level) (e : Expr) (used : List Token) (rest : Tokens) :
    Prop :=
  ∃ bound, rest.ahead.length ≤ bound ∧
    inner.level level (before used rest) = inner.widen level bound e rest

namespace Reaches

variable {inner : Phrases} {level : Level} {e wider : Expr} {tok : Token} {used us : List Token}
  {rest : Tokens}

/-- The loop ends where no suffix follows. -/
theorem takes (h : inner.Reaches level e used rest) (hk : rest.current.kind ∉ level.suffixes) :
    Takes used rest (inner.level level) e := by
  obtain ⟨bound, -, hrun⟩ := h
  exact hrun.trans (extend_of_notMem hk)

/-- Where there is no loop, nothing is left to do. -/
theorem ofTakes (h : Takes used rest (inner.level level) e) (hl : level.suffixes = []) :
    inner.Reaches level e used rest := by
  refine ⟨rest.ahead.length, Nat.le_refl _, h.trans ?_⟩
  exact (extend_of_notMem (by simp [hl])).symm

/-- An expression of a tighter level is where the loop of a level begins. -/
theorem loosen (h : Takes used rest (inner.level level.tighter) e)
    (hb : rest.ahead.length ≤ inner.bound) (hu : level ≠ .unary) (hp : level ≠ .primary) :
    inner.Reaches level e used rest := by
  refine ⟨inner.bound, hb, ?_⟩
  rw [level_eq inner hu hp]
  exact run_bind_of_ok h

/-- One turn of the loop. -/
theorem extend (h : inner.Reaches level e used (before (tok :: us) rest))
    (ht : tok.kind ∈ level.suffixes) (hs : Takes us rest (inner.suffix level e tok) wider) :
    inner.Reaches level wider (used ++ tok :: us) rest := by
  obtain ⟨bound, hb, hrun⟩ := h
  simp only [Tokens.ahead_length_before, List.length_cons] at hb
  obtain ⟨bound, rfl⟩ := Nat.exists_eq_add_one.mpr (show 0 < bound by omega)
  refine ⟨bound, by omega, ?_⟩
  rw [Tokens.before_append, hrun]
  have hsome : Takes [tok] (before us rest) (accept? level.suffixes) (some tok) := .accept ht
  exact (run_bind_of_ok hsome).trans (run_bind_of_ok hs)

end Reaches

end Phrases

/-- A statement that begins with no word of its own is an assignment or an expression. -/
theorem Parser.Takes.bareStatement {inner : Phrases} {tok : Token} {us : List Token} {rest : Tokens}
    {s : Stmt} (hk : tok.kind ∈ Level.pipeline.opens)
    (h : Takes (tok :: us) rest (inner.simple tok) s) :
    Takes (tok :: us) rest inner.bareStatement s := by
  have hword : tok.kind ∉ [.letWord, .varWord, .fnWord, .returnWord, .whileWord, .forWord] := by
    revert hk
    generalize tok.kind = k
    revert k
    decide
  simp only [List.mem_cons, List.not_mem_nil, or_false, not_or] at hword
  refine .peek ?_
  rw [Tokens.current_before_cons]
  split
  · rename_i hk
    exact absurd hk hword.1
  · rename_i hk
    exact absurd hk hword.2.1
  · rename_i hk
    exact absurd hk hword.2.2.1
  · rename_i hk
    exact absurd hk hword.2.2.2.1
  · rename_i hk
    exact absurd hk hword.2.2.2.2.1
  · rename_i hk
    exact absurd hk hword.2.2.2.2.2
  · exact h

/-- The parser of the phrase reads the tokens before any rest that begins with the kind `next`. -/
def Found : Phrase → List Token → Token.Kind → Prop
  | .statement s, ts, next => ∀ n (rest : Tokens), rest.current.kind = next →
      ts.length + rest.ahead.length ≤ n → Takes ts rest (Phrases.upTo n).bareStatement s
  | .statements body, ts, next => ∀ n bound (rest : Tokens) stops, rest.current.kind = next →
      ts.length + rest.ahead.length ≤ n → ts.length ≤ bound → next ∈ stops →
      stops ⊆ [.rbrace, .eof] →
      Takes ts rest (statements stops (Phrases.upTo n).statement bound) body
  | .block brace body, ts, _ => ∀ n (rest : Tokens), ts.length + rest.ahead.length ≤ n + 1 →
      Takes ts rest (Phrases.upTo n).blockBody (brace, body)
  | .expr level e, ts, next => ∀ n (rest : Tokens), rest.current.kind = next →
      ts.length + rest.ahead.length ≤ n + 1 → (Phrases.upTo n).Reaches level e ts rest
  | .choice e, ts, next => ∀ n (rest : Tokens), rest.current.kind = next →
      ts.length + rest.ahead.length ≤ n + 1 → Takes ts rest (Phrases.upTo n).choice e
  | .consequence e, ts, next => ∀ n (rest : Tokens), rest.current.kind = next →
      ts.length + rest.ahead.length ≤ n → Takes ts rest (Phrases.upTo n).consequence e
  | .alternative e, ts, next => ∀ n (rest : Tokens), rest.current.kind = next →
      ts.length + rest.ahead.length ≤ n → Takes ts rest (Phrases.upTo n).otherwise e
  | .branch e, ts, next => ∀ n (rest : Tokens), rest.current.kind = next →
      ts.length + rest.ahead.length ≤ n → Takes ts rest (Phrases.upTo n).blockOrExpr e
  | .exprs closing es, ts, _ => ∀ n bound (rest : Tokens), ts.length + rest.ahead.length ≤ n →
      ts.length ≤ bound → closing ∈ [.rparen, .rbracket] →
      Takes ts rest (items bound (Phrases.upTo n).expr closing) es ∧
        (es ≠ [] → Takes ts rest (itemsFrom bound (Phrases.upTo n).expr closing) es)

namespace Found

variable {e : Expr} {brace : Token} {body : List Stmt} {ts : List Token} {next : Token.Kind}
  {level : Level} {kinds : List Token.Kind}

/-- Any expression, read as a nested one. -/
theorem takesExpr (h : Found (.expr .pipeline e) ts next) (hts : Opens ts kinds)
    (hk : next ≠ .pipe) {n : Nat} {rest : Tokens} (hrest : rest.current.kind = next)
    (hn : ts.length + rest.ahead.length ≤ n) : Takes ts rest (Phrases.upTo n).expr e := by
  obtain ⟨tok, us, rfl, -⟩ := hts
  simp only [List.length_cons] at hn
  obtain ⟨m, rfl⟩ := Nat.exists_eq_add_one.mpr (show 0 < n by omega)
  refine (h m rest hrest (by simp; omega)).takes ?_
  rw [hrest]
  simpa [Level.suffixes] using hk

/-- A block, read as a nested one. -/
theorem takesBlock (h : Found (.block brace body) ts next) (hts : Opens ts kinds) {n : Nat}
    {rest : Tokens} (hn : ts.length + rest.ahead.length ≤ n) :
    Takes ts rest (Phrases.upTo n).block (brace, body) := by
  obtain ⟨tok, us, rfl, -⟩ := hts
  simp only [List.length_cons] at hn
  obtain ⟨m, rfl⟩ := Nat.exists_eq_add_one.mpr (show 0 < n by omega)
  exact h m rest (by simp; omega)

/-- An expression of the next tighter level, whose loop has ended. -/
theorem loosen (h : Found (.expr level.tighter e) ts next) (hts : Opens ts level.tighter.opens)
    (hk : next ∉ level.tighter.suffixes) : Found (.expr level e) ts next := by
  intro n rest hrest hn
  have hreach := h n rest hrest hn
  have htakes := hreach.takes (by rw [hrest]; exact hk)
  obtain ⟨tok, us, rfl, htok⟩ := hts
  have hb : rest.ahead.length ≤ (Phrases.upTo n).bound := by
    simp only [List.length_cons] at hn
    simp only [Phrases.upTo_bound]
    omega
  by_cases hp : level = .primary
  · subst hp
    exact hreach
  by_cases hu : level = .unary
  · subst hu
    have hno : tok.kind ∉ [.bang, .minus] := by
      revert htok
      generalize tok.kind = k
      revert k
      decide
    exact .ofTakes (.bindNone (.decline hno) htakes) rfl
  · exact .loosen htakes hb hu hp

end Found

section Statements

variable {tok id sign paren word brace : Token} {us vs ps bs cs : List Token} {next : Token.Kind}
  {value test : Expr} {body : List Stmt} {params : List Name}

private theorem found_declare (ht : tok.kind = .letWord ∨ tok.kind = .varWord)
    (hi : id.kind = .ident) (hs : sign.kind = .assign) (hv : Found (.expr .pipeline value) vs next)
    (hvs : Opens vs Level.pipeline.opens) (hk : next ≠ .pipe) :
    Found (.statement (.declare tok (tok.kind = .letWord) (.mk id id.literal) value))
      (tok :: id :: sign :: vs) next := by
  intro n rest hrest hn
  simp only [List.length_cons] at hn
  have hvalue : Takes vs rest (Phrases.upTo n).expr value :=
    hv.takesExpr hvs hk hrest (by omega)
  have hall : Takes (tok :: id :: sign :: vs) rest (Phrases.upTo n).declaration
      (.declare tok (tok.kind = .letWord) (.mk id id.literal) value) :=
    .bindToken (.advance tok) (.bindToken (.name ⟨id, hi, rfl, rfl⟩)
      (.bindToken (.expect hs) (.map hvalue)))
  generalize Stmt.declare tok _ _ value = s at hall ⊢
  refine .peek ?_
  rw [Tokens.current_before_cons]
  rcases ht with ht | ht
  · rw [ht]
    exact hall
  · rw [ht]
    exact hall

private theorem found_conciseFunction (ht : tok.kind = .fnWord) (hi : id.kind = .ident)
    (hp : paren.kind = .lparen) (hps : Listed IsName .rparen ps params) (hs : sign.kind = .assign)
    (hv : Found (.expr .pipeline value) bs next) (hbs : Opens bs Level.pipeline.opens)
    (hk : next ≠ .pipe) :
    Found (.statement (.function tok (.mk id id.literal) params value true))
      (tok :: id :: paren :: (ps ++ sign :: bs)) next := by
  intro n rest hrest hn
  simp only [List.length_cons, List.length_append] at hn
  have hvalue : Takes bs rest (Phrases.upTo n).expr value :=
    hv.takesExpr hbs hk hrest (by omega)
  refine .peek ?_
  rw [Tokens.current_before_cons, ht]
  refine .bindToken (.advance tok) (.bindToken (.name ⟨id, hi, rfl, rfl⟩)
    (.bindToken (.expect hp) ?_))
  refine .bind (.names (by decide) hps ?_) ?_
  · simp only [Phrases.upTo_bound]
    omega
  · exact .bindToken (.accept (by simp [hs])) (.map hvalue)

private theorem found_blockFunction (ht : tok.kind = .fnWord) (hi : id.kind = .ident)
    (hp : paren.kind = .lparen) (hps : Listed IsName .rparen ps params)
    (hb : Found (.block brace body) bs next) (hbs : Opens bs [.lbrace]) :
    Found (.statement (.function tok (.mk id id.literal) params (.block brace body) false))
      (tok :: id :: paren :: (ps ++ bs)) next := by
  intro n rest hrest hn
  simp only [List.length_cons, List.length_append] at hn
  have hblock : Takes bs rest (Phrases.upTo n).block (brace, body) :=
    hb.takesBlock hbs (by omega)
  have hno : (before bs rest).current.kind ∉ [.assign] := by
    rw [Tokens.current_before, List.mem_singleton.mp (hbs.first_mem _)]
    decide
  refine .peek ?_
  rw [Tokens.current_before_cons, ht]
  refine .bindToken (.advance tok) (.bindToken (.name ⟨id, hi, rfl, rfl⟩)
    (.bindToken (.expect hp) ?_))
  refine .bind (.names (by decide) hps ?_) ?_
  · simp only [Phrases.upTo_bound]
    omega
  · exact .bindNone (.decline hno) (.bindLast hblock (.pure _))

private theorem found_leave (ht : tok.kind = .returnWord)
    (hk : next ∈ [.rbrace, .semicolon, .eof]) :
    Found (.statement (.ret tok .missing)) [tok] next := by
  intro n rest hrest hn
  have hend : Takes [] rest ((Phrases.upTo n).returned tok) (.ret tok .missing) := by
    refine .peek ?_
    rw [Tokens.before_nil, hrest]
    simp only [List.mem_cons, List.not_mem_nil, or_false] at hk
    rcases hk with rfl | rfl | rfl <;> exact .pure _
  refine .peek ?_
  rw [Tokens.current_before_cons, ht]
  exact .bindToken (.advance tok) hend

private theorem found_ret (ht : tok.kind = .returnWord) (hv : Found (.expr .pipeline value) vs next)
    (hvs : Opens vs Level.pipeline.opens) (hk : next ≠ .pipe) :
    Found (.statement (.ret tok value)) (tok :: vs) next := by
  intro n rest hrest hn
  simp only [List.length_cons] at hn
  have hvalue : Takes vs rest (Phrases.upTo n).expr value :=
    hv.takesExpr hvs hk hrest (by omega)
  have hno : first vs rest.current.kind ∉ [.rbrace, .semicolon, .eof] := by
    have hmem := hvs.first_mem rest.current.kind
    revert hmem
    generalize first vs _ = k
    revert k
    decide
  simp only [List.mem_cons, List.not_mem_nil, or_false, not_or] at hno
  have hreturned : Takes vs rest ((Phrases.upTo n).returned tok) (.ret tok value) := by
    refine .peek ?_
    rw [Tokens.current_before]
    split
    · rename_i hk
      exact absurd hk hno.1
    · rename_i hk
      exact absurd hk hno.2.1
    · rename_i hk
      exact absurd hk hno.2.2
    · exact .map hvalue
  refine .peek ?_
  rw [Tokens.current_before_cons, ht]
  exact .bindToken (.advance tok) hreturned

private theorem found_whileLoop (ht : tok.kind = .whileWord)
    (hc : Found (.expr .pipeline test) cs .lbrace)
    (hcs : Opens cs Level.pipeline.opens) (hb : Found (.block brace body) bs next)
    (hbs : Opens bs [.lbrace]) :
    Found (.statement (.whileLoop tok test (.block brace body))) (tok :: (cs ++ bs)) next := by
  intro n rest hrest hn
  simp only [List.length_cons, List.length_append] at hn
  have hblock : Takes bs rest (Phrases.upTo n).block (brace, body) :=
    hb.takesBlock hbs (by omega)
  have htest : Takes cs (before bs rest) (Phrases.upTo n).expr test := by
    apply hc.takesExpr hcs (by decide)
    · rw [Tokens.current_before, List.mem_singleton.mp (hbs.first_mem _)]
    · simp only [Tokens.ahead_length_before]
      omega
  refine .peek ?_
  rw [Tokens.current_before_cons, ht]
  exact .bindToken (.advance tok) (.bind htest (.bindLast hblock (.pure _)))

private theorem found_forLoop (ht : tok.kind = .forWord) (hi : id.kind = .ident)
    (hw : word.kind = .inWord)
    (hc : Found (.expr .pipeline test) cs .lbrace) (hcs : Opens cs Level.pipeline.opens)
    (hb : Found (.block brace body) bs next) (hbs : Opens bs [.lbrace]) :
    Found (.statement (.forLoop tok (.mk id id.literal) test (.block brace body)))
      (tok :: id :: word :: (cs ++ bs)) next := by
  intro n rest hrest hn
  simp only [List.length_cons, List.length_append] at hn
  have hblock : Takes bs rest (Phrases.upTo n).block (brace, body) :=
    hb.takesBlock hbs (by omega)
  have hlist : Takes cs (before bs rest) (Phrases.upTo n).expr test := by
    apply hc.takesExpr hcs (by decide)
    · rw [Tokens.current_before, List.mem_singleton.mp (hbs.first_mem _)]
    · simp only [Tokens.ahead_length_before]
      omega
  refine .peek ?_
  rw [Tokens.current_before_cons, ht]
  exact .bindToken (.advance tok) (.bindToken (.name ⟨id, hi, rfl, rfl⟩)
    (.bindToken (.expect hw) (.bind hlist (.bindLast hblock (.pure _)))))

private theorem found_assign (hi : id.kind = .ident) (hs : sign.kind = .assign)
    (hv : Found (.expr .pipeline value) vs next) (hvs : Opens vs Level.pipeline.opens)
    (hk : next ≠ .pipe) :
    Found (.statement (.assign sign (.mk id id.literal) value)) (id :: sign :: vs) next := by
  intro n rest hrest hn
  simp only [List.length_cons] at hn
  have hvalue : Takes vs rest (Phrases.upTo n).expr value :=
    hv.takesExpr hvs hk hrest (by omega)
  have hstart : (before (id :: sign :: vs) rest).startsAssignment = true := by
    simp [before, Tokens.startsAssignment, hi, hs]
  apply Takes.bareStatement
  · rw [hi]
    decide
  · refine .get ?_
    rw [if_pos hstart]
    exact .bindToken (.name ⟨id, hi, rfl, rfl⟩) (.bindToken (.expect hs) (.map hvalue))

private theorem found_exprStatement (hv : Found (.expr .pipeline value) (tok :: vs) next)
    (ht : tok.kind ∈ Level.pipeline.opens) (hk : next ≠ .pipe)
    (ha : tok.kind = .ident → first vs next ≠ .assign) :
    Found (.statement (.expr tok value)) (tok :: vs) next := by
  intro n rest hrest hn
  have hvalue : Takes (tok :: vs) rest (Phrases.upTo n).expr value :=
    hv.takesExpr (.cons ht) hk hrest hn
  have hno : ¬(before (tok :: vs) rest).startsAssignment = true := by
    intro hstart
    obtain ⟨hi, hassign⟩ : tok.kind = .ident ∧ first vs rest.current.kind = .assign := by
      cases vs with
      | nil =>
        cases hahead : rest.ahead with
        | nil => simp [before, Tokens.startsAssignment, hahead] at hstart
        | cons sign more =>
          simpa [before, Tokens.startsAssignment, hahead, Tokens.current] using hstart
      | cons v vs => simpa [before, Tokens.startsAssignment] using hstart
    exact ha hi (hrest ▸ hassign)
  refine .bareStatement ht (.get ?_)
  rw [if_neg hno]
  exact .map hvalue

/-- No statement begins like the end of a body. -/
theorem opens_statement {k : Token.Kind} (h : k ∈ (Phrase.statement .missing).opens) :
    k ∉ [.rbrace, .eof] := by
  revert k
  decide

/-- One more statement before a body, with or without a semicolon. -/
theorem found_cons {ts ends : List Token} {s : Stmt} {n : Nat} {rest : Tokens}
    {stops : List Token.Kind}
    (hs : Takes ts (before (ends ++ us) rest) (Phrases.upTo n).bareStatement s)
    (hts : Opens ts (Phrase.statement s).opens)
    (hends : ∃ semicolon, Takes ends (before us rest) (accept? [.semicolon]) semicolon)
    (hstops : stops ⊆ [.rbrace, .eof]) {bound : Nat}
    (hb : Takes us rest (statements stops (Phrases.upTo n).statement bound) body) :
    Takes (ts ++ ends ++ us) rest (statements stops (Phrases.upTo n).statement (bound + 1))
      (s :: body) := by
  obtain ⟨semicolon, hsemicolon⟩ := hends
  have hno : (before (ts ++ ends ++ us) rest).current.kind ∉ stops := by
    obtain ⟨tok, vs, rfl, hk⟩ := hts
    exact fun hmem => opens_statement hk (hstops hmem)
  have hstatement : Takes (ts ++ ends) (before us rest) (Phrases.upTo n).statement s := by
    rw [Tokens.before_append] at hs
    exact .bind hs (.bindLast hsemicolon (.pure s))
  unfold Takes
  rw [statements_of_notMem hno]
  exact Takes.bind hstatement (.map hb)

private theorem found_noStatements : Found (.statements []) [] next := by
  intro n bound rest stops hrest hn hb hk hstops
  cases bound with
  | zero => exact .pure []
  | succ bound => exact statements_of_mem (by rw [Tokens.before_nil, hrest]; exact hk)

private theorem found_moreStatements {ts : List Token} {s : Stmt}
    (hs : Found (.statement s) ts (first us next)) (hts : Opens ts (Phrase.statement s).opens)
    (hk : first us next ≠ .semicolon) (hb : Found (.statements body) us next) :
    Found (.statements (s :: body)) (ts ++ us) next := by
  intro n bound rest stops hrest hn hbound hstop hstops
  have hpos : 0 < ts.length := by
    obtain ⟨tok, vs, rfl, -⟩ := hts
    simp
  simp only [List.length_append] at hn hbound
  obtain ⟨bound, rfl⟩ := Nat.exists_eq_add_one.mpr (show 0 < bound by omega)
  have hfirst : (before us rest).current.kind = first us next := by
    rw [Tokens.current_before, hrest]
  have hsemicolon : Takes [] (before us rest) (accept? [.semicolon]) none :=
    .decline (by rw [hfirst]; simpa using hk)
  have hstatement : Takes ts (before ([] ++ us) rest) (Phrases.upTo n).bareStatement s :=
    hs n _ hfirst (by simp only [Tokens.ahead_length_before, List.nil_append]; omega)
  have hbody := hb n bound rest stops hrest (by omega) (by omega) hstop hstops
  simpa using found_cons hstatement hts ⟨none, hsemicolon⟩ hstops hbody

private theorem found_closedStatement {ts : List Token} {s : Stmt}
    (hs : Found (.statement s) ts .semicolon)
    (hts : Opens ts (Phrase.statement s).opens) (ht : tok.kind = .semicolon)
    (hb : Found (.statements body) us next) :
    Found (.statements (s :: body)) (ts ++ tok :: us) next := by
  intro n bound rest stops hrest hn hbound hstop hstops
  simp only [List.length_append, List.length_cons] at hn hbound
  obtain ⟨bound, rfl⟩ := Nat.exists_eq_add_one.mpr (show 0 < bound by omega)
  have hsemicolon : Takes [tok] (before us rest) (accept? [.semicolon]) (some tok) :=
    .accept (by simp [ht])
  have hstatement : Takes ts (before ([tok] ++ us) rest) (Phrases.upTo n).bareStatement s :=
    hs n _ ht (by
      simp only [Tokens.ahead_length_before, List.length_append, List.length_singleton]
      omega)
  have hbody := hb n bound rest stops hrest (by omega) (by omega) hstop hstops
  simpa using found_cons hstatement hts ⟨some tok, hsemicolon⟩ hstops hbody

private theorem found_block {close : Token} (ht : brace.kind = .lbrace)
    (hb : Found (.statements body) bs .rbrace) (hc : close.kind = .rbrace) :
    Found (.block brace body) (brace :: (bs ++ [close])) next := by
  intro n rest hn
  simp only [List.length_cons, List.length_append, List.length_nil] at hn
  have hbody : Takes bs (before [close] rest)
      (statements [.rbrace, .eof] (Phrases.upTo n).statement (Phrases.upTo n).bound) body := by
    apply hb n _ (before [close] rest) _ hc
    · simp only [Tokens.ahead_length_before, List.length_singleton]
      omega
    · simp only [Phrases.upTo_bound]
      omega
    · decide
    · exact fun k hk => hk
  exact .bindToken (.expect ht) (.bind hbody (.bindToken (.expect hc) (.pure _)))

end Statements

section Expressions

variable {tok op word : Token} {ts us ls rs ps bs cs ys ns : List Token} {next : Token.Kind}
  {e left right test yes no body : Expr} {es : List Expr} {params : List Name} {level : Level}

/-- One more suffix of the level. -/
theorem found_extend {wider : Expr} (hl : Found (.expr level left) ls tok.kind)
    (hls : Opens ls level.opens) (ht : tok.kind ∈ level.suffixes)
    (hs : ∀ n (rest : Tokens), rest.current.kind = next → rs.length + rest.ahead.length ≤ n →
      Takes rs rest ((Phrases.upTo n).suffix level left tok) wider) :
    Found (.expr level wider) (ls ++ tok :: rs) next := by
  intro n rest hrest hn
  have hpos : 0 < ls.length := by
    obtain ⟨first, vs, rfl, -⟩ := hls
    simp
  simp only [List.length_append, List.length_cons] at hn
  have hreach := hl n (before (tok :: rs) rest) rfl
    (by simp only [Tokens.ahead_length_before, List.length_cons]; omega)
  exact hreach.extend ht (hs n rest hrest (by omega))

/-- An expression of a level that ends, taken by the parser of the level. -/
theorem Found.takesLevel (h : Found (.expr level e) ts next) (hk : next ∉ level.suffixes)
    {n : Nat} {rest : Tokens} (hrest : rest.current.kind = next)
    (hn : ts.length + rest.ahead.length ≤ n + 1) :
    Takes ts rest ((Phrases.upTo n).level level) e :=
  (h n rest hrest hn).takes (by rw [hrest]; exact hk)

private theorem found_pipe {target : Expr} (hl : Found (.expr .pipeline left) ls .pipe)
    (hls : Opens ls Level.pipeline.opens) (ht : tok.kind = .pipe)
    (hr : Found (.expr .or target) rs next) (hk : next ∉ Level.or.suffixes)
    (hp : Grammar.IsPipeTarget target) :
    Found (.expr .pipeline (.pipe tok left target)) (ls ++ tok :: rs) next := by
  refine found_extend (by rwa [ht]) hls (by simp [ht, Level.suffixes]) fun n rest hrest hn => ?_
  have htarget : Takes rs rest (Phrases.upTo n).operation target :=
    hr.takesLevel hk hrest (by omega)
  refine .peek (.bindLast htarget ?_)
  rw [if_pos (Phrases.isPipeTarget_iff.mpr hp)]
  exact .pure _

private theorem found_binary (hl : Found (.expr level left) ls op.kind) (hls : Opens ls level.opens)
    (ho : op.kind ∈ level.operators) (hr : Found (.expr level.tighter right) rs next)
    (hk : next ∉ level.tighter.suffixes) :
    Found (.expr level (.binary op left op.literal right)) (ls ++ op :: rs) next := by
  refine found_extend hl hls (Level.mem_suffixes ho) fun n rest hrest hn => ?_
  rw [Phrases.suffix_of_mem _ ho]
  exact .map (hr.takesLevel hk hrest (by omega))

private theorem found_unary (ho : op.kind = .bang ∨ op.kind = .minus)
    (he : Found (.expr .unary e) ts next) (hts : Opens ts Level.unary.opens) :
    Found (.expr .unary (.unary op op.literal e)) (op :: ts) next := by
  intro n rest hrest hn
  obtain ⟨first, us, rfl, -⟩ := hts
  simp only [List.length_cons] at hn
  obtain ⟨m, rfl⟩ := Nat.exists_eq_add_one.mpr (show 0 < n by omega)
  have hoperand : Takes (first :: us) rest (Phrases.upTo m).unaryChain e :=
    he.takesLevel List.not_mem_nil hrest (by simp only [List.length_cons]; omega)
  have hmem : op.kind ∈ [.bang, .minus] := by simpa using ho
  exact .ofTakes (.bindToken (.accept hmem) (.map hoperand)) rfl

private theorem found_call (hl : Found (.expr .call left) ls .lparen)
    (hls : Opens ls Level.call.opens)
    (ht : tok.kind = .lparen) (hr : Found (.exprs .rparen es) rs next) :
    Found (.expr .call (.call tok left es)) (ls ++ tok :: rs) next := by
  refine found_extend (by rwa [ht]) hls (by simp [ht, Level.suffixes]) fun n rest hrest hn => ?_
  exact .map (hr n _ rest hn (by simp only [Phrases.upTo_bound]; omega) (by decide)).1

/-- What no operator holds together. -/
theorem found_primary
    (h : ∀ n (rest : Tokens), rest.current.kind = next → ts.length + rest.ahead.length ≤ n + 1 →
      Takes ts rest (Phrases.upTo n).primary e) : Found (.expr .primary e) ts next :=
  fun n rest hrest hn => .ofTakes (h n rest hrest hn) rfl

private theorem found_choicePrimary (h : Found (.choice e) ts next) (hts : Opens ts [.ifWord]) :
    Found (.expr .primary e) ts next := by
  refine found_primary fun n rest hrest hn => ?_
  have hchoice := h n rest hrest hn
  obtain ⟨tok, us, rfl, hk⟩ := hts
  refine .peek ?_
  rw [Tokens.current_before_cons, List.mem_singleton.mp hk]
  exact hchoice

private theorem found_blockPrimary {brace : Token} {stmts : List Stmt}
    (h : Found (.block brace stmts) ts next) (hts : Opens ts [.lbrace]) :
    Found (.expr .primary (.block brace stmts)) ts next := by
  refine found_primary fun n rest hrest hn => ?_
  have hblock := h n rest hn
  obtain ⟨tok, us, rfl, hk⟩ := hts
  refine .peek ?_
  rw [Tokens.current_before_cons, List.mem_singleton.mp hk]
  exact .bindLast hblock (.pure _)

/-- An anonymous function: its parameters, if it has any, end with a bar. -/
theorem found_lambda
    (hps : tok.kind = .bar ∧ Listed IsName .bar ps params ∨ tok.kind = .or ∧ ps = [] ∧ params = [])
    (hb : Found (.branch body) bs next) :
    Found (.expr .primary (.lambda tok params body)) (tok :: (ps ++ bs)) next := by
  refine found_primary fun n rest hrest hn => ?_
  simp only [List.length_cons, List.length_append] at hn
  have hbody : Takes bs rest (Phrases.upTo n).blockOrExpr body := hb n rest hrest (by omega)
  refine .peek ?_
  rcases hps with ⟨hk, hlist⟩ | ⟨hk, rfl, rfl⟩
  · rw [Tokens.current_before_cons, hk]
    refine .bindToken (.advance tok) ?_
    rw [if_pos hk, Phrases.upTo_bound]
    exact .bind (.names (by decide) hlist (by omega)) (.map hbody)
  · rw [Tokens.current_before_cons, hk]
    refine .bindToken (.advance tok) ?_
    rw [if_neg (by simp [hk]), pure_bind]
    exact .map hbody

private theorem found_array (ht : tok.kind = .lbracket) (hx : Found (.exprs .rbracket es) ts next) :
    Found (.expr .primary (.array tok es)) (tok :: ts) next := by
  refine found_primary fun n rest hrest hn => ?_
  simp only [List.length_cons] at hn
  have hitems := (hx n _ rest (by omega) (show ts.length ≤ n by omega) (by decide)).1
  refine .peek ?_
  rw [Tokens.current_before_cons, ht]
  refine .bindToken (.advance tok) ?_
  rw [Phrases.upTo_bound]
  exact .map hitems

private theorem found_parens {close : Token} (ht : tok.kind = .lparen)
    (he : Found (.expr .pipeline e) ts .rparen) (hts : Opens ts Level.pipeline.opens)
    (hc : close.kind = .rparen) : Found (.expr .primary e) (tok :: (ts ++ [close])) next := by
  refine found_primary fun n rest hrest hn => ?_
  simp only [List.length_cons, List.length_append, List.length_nil] at hn
  have hinside : Takes ts (before [close] rest) (Phrases.upTo n).expr e :=
    he.takesExpr hts (by decide) hc (by
      simp only [Tokens.ahead_length_before, List.length_singleton]
      omega)
  refine .peek ?_
  rw [Tokens.current_before_cons, ht]
  exact .bindToken (.advance tok) (.bind hinside (.bindToken (.expect hc) (.pure e)))

/-- A primary expression of one token. -/
theorem found_token (h : ∀ (inner : Phrases) (rest : Tokens), Takes [tok] rest inner.primary e) :
    Found (.expr .primary e) [tok] next :=
  found_primary fun _ rest _ _ => h _ rest

theorem found_blockBranch {brace : Token} {stmts : List Stmt}
    (h : Found (.block brace stmts) ts next) (hts : Opens ts [.lbrace]) :
    Found (.branch (.block brace stmts)) ts next := by
  intro n rest hrest hn
  have hblock := h.takesBlock hts hn
  obtain ⟨tok, us, rfl, hk⟩ := hts
  refine .peek ?_
  rw [Tokens.current_before_cons, if_pos (List.mem_singleton.mp hk)]
  exact .bindLast hblock (.pure _)

private theorem found_exprBranch (h : Found (.expr .pipeline e) ts next)
    (hts : Opens ts Level.pipeline.opens) (hk : next ≠ .pipe) (hb : first ts next ≠ .lbrace) :
    Found (.branch e) ts next := by
  intro n rest hrest hn
  have hexpr := h.takesExpr hts hk hrest hn
  refine .peek ?_
  rw [Tokens.current_before, hrest, if_neg hb]
  exact hexpr

private theorem found_blockConsequence {brace : Token} {stmts : List Stmt}
    (h : Found (.block brace stmts) ts next) (hts : Opens ts [.lbrace]) :
    Found (.consequence (.block brace stmts)) ts next := by
  intro n rest hrest hn
  have hbranch := found_blockBranch h hts n rest hrest hn
  have hfirst : first ts rest.current.kind = .lbrace := List.mem_singleton.mp (hts.first_mem _)
  refine .peek ?_
  rw [Tokens.current_before, if_neg (not_not.mpr hfirst)]
  exact hbranch

private theorem found_thenConsequence (hw : word.kind = .thenWord)
    (he : Found (.branch e) ts next) :
    Found (.consequence e) (word :: ts) next := by
  intro n rest hrest hn
  simp only [List.length_cons] at hn
  refine .peek ?_
  rw [Tokens.current_before_cons, if_pos (by simp [hw])]
  exact .bindToken (.expect hw) (he n rest hrest (by omega))

private theorem found_elseIf (h : Found (.choice e) ts next) (hts : Opens ts [.ifWord]) :
    Found (.alternative e) ts next := by
  intro n rest hrest hn
  obtain ⟨tok, us, rfl, hk⟩ := hts
  have hn' : 0 < n := by
    simp only [List.length_cons] at hn
    omega
  obtain ⟨m, rfl⟩ := Nat.exists_eq_add_one.mpr hn'
  refine .peek ?_
  rw [Tokens.current_before_cons, if_pos (List.mem_singleton.mp hk)]
  exact h m rest hrest hn

private theorem found_elseBranch (h : Found (.branch e) ts next) (hk : first ts next ≠ .ifWord) :
    Found (.alternative e) ts next := by
  intro n rest hrest hn
  refine .peek ?_
  rw [Tokens.current_before, hrest, if_neg hk]
  exact h n rest hrest hn

/-- The parts of a choice, and the token behind its consequence. -/
theorem found_choice (hc : Found (.expr .pipeline test) cs (first ys (first ns next)))
    (hcs : Opens cs Level.pipeline.opens) (hy : Found (.consequence yes) ys (first ns next))
    (hys : Opens ys [.lbrace, .thenWord])
    (hn : ∀ n (rest : Tokens), rest.current.kind = next → ns.length + rest.ahead.length ≤ n →
      Takes ns rest (Phrases.upTo n).alternative no) :
    Found (.choice (.cond tok test yes no)) (tok :: (cs ++ (ys ++ ns))) next := by
  intro n rest hrest hlen
  simp only [List.length_cons, List.length_append] at hlen
  have hfirst : (before ns rest).current.kind = first ns next := by
    rw [Tokens.current_before, hrest]
  have htest : Takes cs (before (ys ++ ns) rest) (Phrases.upTo n).expr test := by
    apply hc.takesExpr hcs
    · intro hpipe
      have hmem := hys.first_mem (first ns next)
      rw [hpipe] at hmem
      revert hmem
      decide
    · rw [Tokens.before_append, Tokens.current_before, hfirst]
    · simp only [Tokens.ahead_length_before, List.length_append]
      omega
  have hyes : Takes ys (before ns rest) (Phrases.upTo n).consequence yes := by
    apply hy n _ hfirst
    simp only [Tokens.ahead_length_before]
    omega
  exact .bindToken (.advance tok) (.bind htest (.bind hyes (.map (hn n rest hrest (by omega)))))

private theorem found_ifThen (hc : Found (.expr .pipeline test) cs (first ys next))
    (hcs : Opens cs Level.pipeline.opens) (hy : Found (.consequence yes) ys next)
    (hys : Opens ys [.lbrace, .thenWord]) (hk : next ≠ .elseWord) :
    Found (.choice (.cond tok test yes .missing)) (tok :: (cs ++ ys)) next := by
  have hall : Found (.choice (.cond tok test yes .missing)) (tok :: (cs ++ (ys ++ []))) next := by
    refine found_choice hc hcs hy hys fun n rest hrest _ => ?_
    have helse : rest.current.kind ∉ [.elseWord] := by simpa [hrest] using hk
    exact .bindNone (.decline helse) (.pure _)
  simpa using hall

private theorem found_ifThenElse (hc : Found (.expr .pipeline test) cs (first ys .elseWord))
    (hcs : Opens cs Level.pipeline.opens) (hy : Found (.consequence yes) ys .elseWord)
    (hys : Opens ys [.lbrace, .thenWord]) (hw : word.kind = .elseWord)
    (hn : Found (.alternative no) ns next) :
    Found (.choice (.cond tok test yes no)) (tok :: (cs ++ ys ++ word :: ns)) next := by
  have hall : Found (.choice (.cond tok test yes no)) (tok :: (cs ++ (ys ++ word :: ns))) next := by
    refine found_choice (by simpa [hw] using hc) hcs (by simpa [hw] using hy) hys
      fun n rest hrest hlen => ?_
    simp only [List.length_cons] at hlen
    exact .bindToken (.accept (by simp [hw])) (hn n rest hrest (by omega))
  simpa using hall

/-- A list that has an item is read from its first item on. -/
theorem takes_items {closing : Token.Kind} {n bound : Nat} {rest : Tokens}
    (hc : closing ∈ [.rparen, .rbracket]) (hts : Opens ts Level.pipeline.opens)
    (h : Takes ts rest (itemsFrom bound (Phrases.upTo n).expr closing) es) :
    Takes ts rest (items bound (Phrases.upTo n).expr closing) es := by
  have hno : (before ts rest).current.kind ∉ [closing] := by
    have hmem := hts.first_mem rest.current.kind
    rw [Tokens.current_before]
    revert hmem
    generalize first ts _ = k
    clear h
    revert k closing
    decide
  exact .bindNone (.decline hno) h

private theorem found_noExprs {closing : Token.Kind} {close : Token} (hc : close.kind = closing) :
    Found (.exprs closing []) [close] next := by
  intro n bound rest hn hb hclosing
  refine ⟨?_, fun hne => absurd rfl hne⟩
  exact .bindToken (.accept (by simp [hc])) (.pure [])

private theorem found_lastExpr {closing : Token.Kind} {close : Token}
    (he : Found (.expr .pipeline e) ts closing) (hts : Opens ts Level.pipeline.opens)
    (hc : close.kind = closing) : Found (.exprs closing [e]) (ts ++ [close]) next := by
  intro n bound rest hn hb hclosing
  simp only [List.length_append, List.length_singleton] at hn hb
  obtain ⟨hpipe, hcomma⟩ : closing ≠ .pipe ∧ closing ≠ .comma := by
    clear hn hb he hc
    revert closing
    decide
  obtain ⟨bound, rfl⟩ := Nat.exists_eq_add_one.mpr (show 0 < bound by omega)
  have hitem : Takes ts (before [close] rest) (Phrases.upTo n).expr e :=
    he.takesExpr hts hpipe hc (by
      simp only [Tokens.ahead_length_before, List.length_singleton]
      omega)
  have hno : (before [close] rest).current.kind ∉ [.comma] := by simpa [hc] using hcomma
  have hall : Takes (ts ++ [close]) rest (itemsFrom (bound + 1) (Phrases.upTo n).expr closing)
      [e] := by
    refine .bind hitem ?_
    rw [moreItems_itemsFrom]
    exact .bind (.decline hno) (.bind (.expect hc) (.pure [e]))
  exact ⟨takes_items hclosing (hts.append _) hall, fun _ => hall⟩

private theorem found_moreExprs {closing : Token.Kind} {comma : Token} {x : Expr} {xs : List Expr}
    (he : Found (.expr .pipeline e) ts .comma) (hts : Opens ts Level.pipeline.opens)
    (hc : comma.kind = .comma) (hx : Found (.exprs closing (x :: xs)) us next) :
    Found (.exprs closing (e :: x :: xs)) (ts ++ comma :: us) next := by
  intro n bound rest hn hb hclosing
  simp only [List.length_append, List.length_cons] at hn hb
  obtain ⟨bound, rfl⟩ := Nat.exists_eq_add_one.mpr (show 0 < bound by omega)
  have hitem : Takes ts (before (comma :: us) rest) (Phrases.upTo n).expr e :=
    he.takesExpr hts (by decide) hc (by
      simp only [Tokens.ahead_length_before, List.length_cons]
      omega)
  have hmore := (hx n bound rest (by omega) (by omega) hclosing).2 (by simp)
  have hall : Takes (ts ++ comma :: us) rest
      (itemsFrom (bound + 1) (Phrases.upTo n).expr closing) (e :: x :: xs) := by
    refine .bind hitem ?_
    rw [moreItems_itemsFrom]
    exact .bindToken (.accept (by simp [hc])) (.map hmore)
  exact ⟨takes_items hclosing (hts.append _) hall, fun _ => hall⟩

end Expressions

/-- The parser finds every greedy derivation. -/
theorem Grammar.Greedy.found {phrase : Phrase} {toks : List Token} {next : Token.Kind}
    (h : Greedy phrase toks next) : Found phrase toks next := by
  induction h with
  | declare ht hi hs hv hk ih => exact found_declare ht hi hs ih (hv.derives.opens (by simp)) hk
  | conciseFunction ht hi hp hps hs hb hk ih =>
    exact found_conciseFunction ht hi hp hps hs ih (hb.derives.opens (by simp)) hk
  | blockFunction ht hi hp hps hb ih =>
    exact found_blockFunction ht hi hp hps ih (hb.derives.opens (by simp))
  | leave ht hk => exact found_leave ht hk
  | ret ht hv hk ih => exact found_ret ht ih (hv.derives.opens (by simp)) hk
  | whileLoop ht hc hb ihc ihb =>
    exact found_whileLoop ht ihc (hc.derives.opens (by simp)) ihb (hb.derives.opens (by simp))
  | forLoop ht hi hw hx hb ihx ihb =>
    exact found_forLoop ht hi hw ihx (hx.derives.opens (by simp)) ihb (hb.derives.opens (by simp))
  | assign hi hs hv hk ih => exact found_assign hi hs ih (hv.derives.opens (by simp)) hk
  | exprStatement hv hk ha ih =>
    obtain ⟨tok, us, heq, hopen⟩ := hv.derives.opens (by simp)
    cases heq
    exact found_exprStatement ih hopen hk ha
  | noStatements hk => exact found_noStatements
  | moreStatements hs hk hb ihs ihb =>
    exact found_moreStatements ihs (hs.derives.opens (by simp)) hk ihb
  | closedStatement hs ht hb ihs ihb =>
    exact found_closedStatement ihs (hs.derives.opens (by simp)) ht ihb
  | block ht hb hc ih => exact found_block ht ih hc
  | tighter he hk ih => exact ih.loosen (he.derives.opens (by simp)) hk
  | pipe hl ht hr hk hp ihl ihr => exact found_pipe ihl (hl.derives.opens (by simp)) ht ihr hk hp
  | binary hl ho hr hk ihl ihr => exact found_binary ihl (hl.derives.opens (by simp)) ho ihr hk
  | unary ho he ih => exact found_unary ho ih (he.derives.opens (by simp))
  | call hl ht hr ihl ihr => exact found_call ihl (hl.derives.opens (by simp)) ht ihr
  | choicePrimary he ih => exact found_choicePrimary ih (he.derives.opens (by simp))
  | blockPrimary hb ih => exact found_blockPrimary ih (hb.derives.opens (by simp))
  | lambda ht hps hb ih => exact found_lambda (.inl ⟨ht, hps⟩) ih
  | thunk ht hb ih => exact found_lambda (.inr ⟨ht, rfl, rfl⟩) ih
  | array ht hx ih => exact found_array ht ih
  | parens hp he hc ih => exact found_parens hp ih (he.derives.opens (by simp)) hc
  | @number tok value next ht hv =>
    refine found_token fun inner rest => .peek ?_
    rw [Tokens.current_before_cons, ht]
    refine .bindToken (.advance tok) ?_
    rw [hv]
    exact .pure _
  | @string tok next ht =>
    refine found_token fun inner rest => .peek ?_
    rw [Tokens.current_before_cons, ht]
    exact .bindToken (.advance tok) (.pure _)
  | @bool tok next ht =>
    refine found_token fun inner rest => ?_
    have hall : Takes [tok] rest (do
        let _ ← advance
        return Expr.bool tok (tok.kind = .trueWord)) (.bool tok (tok.kind = .trueWord)) :=
      .bindToken (.advance tok) (.pure _)
    refine .peek ?_
    rw [Tokens.current_before_cons]
    split
    all_goals first
      | exact hall
      | simp_all
  | @null tok next ht =>
    refine found_token fun inner rest => .peek ?_
    rw [Tokens.current_before_cons, ht]
    exact .bindToken (.advance tok) (.pure _)
  | @name id next hi =>
    refine found_token fun inner rest => .peek ?_
    rw [Tokens.current_before_cons, hi]
    exact .map (.name ⟨id, hi, rfl, rfl⟩)
  | ifThen ht hc hy hk ihc ihy =>
    exact found_ifThen ihc (hc.derives.opens (by simp)) ihy (hy.derives.opens (by simp)) hk
  | ifThenElse ht hc hy hw hn ihc ihy ihn =>
    exact found_ifThenElse ihc (hc.derives.opens (by simp)) ihy (hy.derives.opens (by simp)) hw ihn
  | blockConsequence hb ih => exact found_blockConsequence ih (hb.derives.opens (by simp))
  | thenConsequence hw he ih => exact found_thenConsequence hw ih
  | elseIf he ih => exact found_elseIf ih (he.derives.opens (by simp))
  | elseBranch he hk ih => exact found_elseBranch ih hk
  | blockBranch hb ih => exact found_blockBranch ih (hb.derives.opens (by simp))
  | exprBranch he hk hb ih => exact found_exprBranch ih (he.derives.opens (by simp)) hk hb
  | noExprs hc => exact found_noExprs hc
  | lastExpr he hc ih => exact found_lastExpr ih (he.derives.opens (by simp)) hc
  | moreExprs he hc hx ihe ihx => exact found_moreExprs ihe (he.derives.opens (by simp)) hc ihx

/-- Statements that can be read greedily to the end of input are a program. -/
theorem Grammar.Greedy.program {body : List Stmt} {toks : List Token} {stop : Token}
    (h : Greedy (.statements body) toks .eof) (hstop : stop.kind = .eof) :
    Parser.program ⟨toks, stop⟩ = .ok ⟨body⟩ ⟨[], stop⟩ := by
  have hrun : Takes toks ⟨[], stop⟩
      (statements [.eof] (Phrases.upTo toks.length).statement toks.length) body :=
    h.found _ _ _ _ hstop (by simp) (Nat.le_refl _) (by simp) (by simp)
  have hall : Takes toks ⟨[], stop⟩ (do
      return (⟨← statements [.eof] (Phrases.upTo toks.length).statement toks.length⟩ : Program))
      ⟨body⟩ := .map hrun
  unfold Takes before at hall
  rw [List.append_nil] at hall
  exact hall

end PipeCompiler
