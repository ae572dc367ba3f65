import PipeCompiler.Proofs.Completions

/-! Programs that are cut short.

Each production of the grammar, taken at the place where it runs out of tokens: what has been read
is the beginning of the phrase, and tokens to complete it are named. -/
namespace PipeCompiler

open PipeCompiler.Parser
open Grammar (AsFinal Begun Greedy HasTarget IsName IsPipeTarget Level Listed Phrase closers first)
open Tokens (before)

/-- A block, as it is read. -/
abbrev Grammar.Phrase.ofBlock (b : Token × List Stmt) : Phrase :=
  .block b.1 b.2

/-- In up to `n` tokens, what the parsers for nested phrases leave unfinished can be completed. -/
structure Phrases.Mends (n : Nat) : Prop where
  expr : ∀ ts : Tokens, ts.ahead.length ≤ n →
    Parser.Mends ts (upTo n).expr (Begun (.expr .pipeline) ts.ahead)
  unary : ∀ ts : Tokens, ts.ahead.length ≤ n →
    Parser.Mends ts (upTo n).unary (Begun (.expr .unary) ts.ahead)
  cond : ∀ ts : Tokens, ts.ahead.length ≤ n → ts.current.kind = .ifWord →
    Parser.Mends ts (upTo n).cond (Begun .choice ts.ahead)
  block : ∀ ts : Tokens, ts.ahead.length ≤ n →
    Parser.Mends ts (upTo n).block (Begun .ofBlock ts.ahead)

namespace Grammar

/-- Where an expression is missing, any name will do. -/
theorem begun_expr (level : Level) : Begun (.expr level) [] := by
  have hname : Greedy (.expr .primary (.name (.mk (.sample .ident) _))) [.sample .ident] .eof :=
    .name (by simp)
  have hcall : Greedy (.expr .call _) [.sample .ident] .eof := .tighter hname List.not_mem_nil
  apply Begun.fill [.ident] (by decide)
  by_cases hl : level = .primary
  · exact hl ▸ .whole hname
  · exact .whole (hcall.ofCall hl (by cases level <;> decide))

private theorem begun_statement : Begun .statement [] := by
  have hname : Greedy (.expr .primary (.name (.mk (.sample .ident) _))) [.sample .ident] .eof :=
    .name (by simp)
  apply Begun.fill [.ident] (by decide)
  exact .whole (.exprStatement (hname.loosest (by decide)) (by decide) (by simp))

theorem begun_block : Begun .ofBlock [] := by
  apply Begun.fill [.lbrace, .rbrace] (by decide)
  have hblock : Greedy (.ofBlock (.sample .lbrace, [])) [.sample .lbrace, .sample .rbrace] .eof :=
    .block (Token.sample_kind _) (.noStatements (by decide)) (Token.sample_kind _)
  exact .whole hblock

end Grammar

open Grammar (begun_block begun_expr begun_statement)

namespace Phrases

variable {n : Nat} {ts : Tokens}

theorem Mends.exprs (hin : Phrases.Mends n) {closing : Token.Kind}
    (hc : closing ∈ [.rparen, .rbracket]) (hn : ts.ahead.length ≤ n) :
    Parser.Mends ts (items (upTo n).bound (upTo n).expr closing)
      (Begun (.exprs closing) ts.ahead) := by
  have hall : ∀ k ∈ [.rparen, .rbracket], k ∈ fillers ∧ k ≠ .eof ∧ k ∈ closers := by decide
  obtain ⟨hfiller, heof, hcloses⟩ := hall closing hc
  have hitems : Parser.Mends.Itemized n (upTo n).expr
      (fun e us next => Greedy (.expr .pipeline e) us next)
      (fun es us => Greedy (.exprs closing es) us .eof) closing :=
    { filler := hfiller
      mends := hin.expr
      finds := fun ts hn => ((finds_upTo n).expr ts hn).mono fun _ _ _ _ h => h.1
      ends := fun _ _ h => h.asFinal (.ofCloser hcloses) rfl
      last := fun _ _ _ h hclose => .lastExpr h hclose
      more := fun _ _ _ _ _ _ h hcomma hrest => .moreExprs h hcomma hrest }
  exact Parser.Mends.items hitems heof _ hn

section Statements

theorem Mends.declaration (hin : Phrases.Mends n) (hn : ts.ahead.length ≤ n)
    (hk : ts.current.kind = .letWord ∨ ts.current.kind = .varWord) :
    Parser.Mends ts (upTo n).declaration (Begun .statement ts.ahead) := by
  refine .advance (by rcases hk with hk | hk <;> simp [hk]) ?_
  rintro tok ts₁ rfl
  have hdeclare (id sign : Token) (vs : List Token) (hi : id.kind = .ident)
      (hs : sign.kind = .assign) (hv : Begun (.expr .pipeline) vs) :
      Begun .statement (tok :: id :: sign :: vs) :=
    hv.within fun us value hvalue => ⟨_, .declare hk hi hs hvalue (by decide)⟩
  refine .name ?_ ?_
  · intro hnil
    have hfilled :=
      hdeclare (.sample .ident) (.sample .assign) [] (by simp) (by simp) (begun_expr _)
    exact .fill [.ident, .assign] (by decide) (by simpa [before, hnil] using hfilled)
  rintro id ts₂ rfl hi
  refine .expect (by simp) ?_ ?_
  · intro hnil
    have hfilled := hdeclare id (.sample .assign) [] hi (by simp) (begun_expr _)
    exact .fill [.assign] (by decide) (by simpa [before, hnil] using hfilled)
  rintro sign ts₃ rfl hs
  simp only [Tokens.ahead_length_before] at hn
  exact .map ((hin.expr ts₃ (by omega)).mono (hdeclare id sign ts₃.ahead hi hs))

theorem Mends.function (hin : Phrases.Mends n) (hn : ts.ahead.length ≤ n)
    (hk : ts.current.kind = .fnWord) :
    Parser.Mends ts (upTo n).function (Begun .statement ts.ahead) := by
  refine .advance (by simp [hk]) ?_
  rintro tok ts₁ rfl
  rw [Tokens.current_before_cons] at hk
  -- With a name and parameters, an empty block is all that is missing.
  have hfunction (id paren : Token) (ps : List Token) (hi : id.kind = .ident)
      (hp : paren.kind = .lparen)
      (hps : ∃ us params, Spelled us ∧ Listed IsName .rparen (ps ++ us) params) :
      Begun .statement (tok :: id :: paren :: ps) := by
    obtain ⟨us, params, hus, hps⟩ := hps
    obtain ⟨vs, ⟨brace, body⟩, hvs, hb⟩ := begun_block
    have hall := Greedy.blockFunction hk hi hp hps hb
    exact ⟨us ++ vs, _, hus.append hvs, by simpa using hall⟩
  have hnoParams : ∃ us params, Spelled us ∧ Listed IsName .rparen ([] ++ us) params :=
    ⟨[.sample .rparen], [], spelled_samples [.rparen] (by decide), .empty (by simp)⟩
  refine .name ?_ ?_
  · intro hnil
    have hfilled := hfunction (.sample .ident) (.sample .lparen) [] (by simp) (by simp) hnoParams
    exact .fill [.ident, .lparen] (by decide) (by simpa [before, hnil] using hfilled)
  rintro id ts₂ rfl hi
  refine .expect (by simp) ?_ ?_
  · intro hnil
    have hfilled := hfunction id (.sample .lparen) [] hi (by simp) hnoParams
    exact .fill [.lparen] (by decide) (by simpa [before, hnil] using hfilled)
  rintro paren ts₃ rfl hp
  refine .bind ((Parser.Mends.names (by decide) (by decide) _).mono (hfunction id paren _ hi hp))
    (.names (by simp)) ?_
  rintro ps ts₄ params rfl hps
  simp only [Tokens.ahead_length_before] at hn
  refine .accept? (by simp) ?_ ?_
  · intro _
    refine .bind ((hin.block ts₄ (by omega)).mono ?_) ((finds_upTo n).block ts₄ (by omega))
      fun _ _ _ _ _ => .pure _
    intro hb
    apply hb.within
    rintro us ⟨brace, body⟩ hb
    exact ⟨_, by simpa [before] using Greedy.blockFunction hk hi hp hps hb⟩
  · rintro sign ts₅ rfl hs
    simp only [Tokens.ahead_length_before] at hn
    refine .map ((hin.expr ts₅ (by omega)).mono ?_)
    intro hb
    apply hb.within
    intro us body hb
    have hs := List.mem_singleton.mp hs
    exact ⟨_, by simpa [before] using Greedy.conciseFunction hk hi hp hps hs hb (by decide)⟩

theorem Mends.returned (hin : Phrases.Mends n) (hn : ts.ahead.length ≤ n) {tok : Token}
    (hk : tok.kind = .returnWord) :
    Parser.Mends ts ((upTo n).returned tok) (Begun .statement (tok :: ts.ahead)) := by
  refine .peek ?_
  split
  · exact .pure _
  · exact .pure _
  · exact .pure _
  · refine .map ((hin.expr ts hn).mono ?_)
    intro hv
    exact hv.within fun us value hvalue => ⟨_, .ret hk hvalue (by decide)⟩

/-- A block that a statement ends with. -/
theorem Mends.body (hin : Phrases.Mends n) (hn : ts.ahead.length ≤ n)
    {f : Token → List Stmt → Stmt} {vs : List Token}
    (h : ∀ us brace body, Greedy (.block brace body) (ts.ahead ++ us) .eof →
      Greedy (.statement (f brace body)) (vs ++ us) .eof) :
    Parser.Mends ts (do
      let (brace, body) ← (upTo n).block
      return f brace body) (Begun .statement vs) := by
  refine .map ((hin.block ts hn).mono ?_)
  intro hb
  exact hb.within fun us b hb => ⟨_, h us b.1 b.2 hb⟩

/-- An expression before a block that a statement ends with. -/
theorem Mends.bodyAfter (hin : Phrases.Mends n) (hn : ts.ahead.length ≤ n) (vs : List Token)
    {f : Expr → Token → List Stmt → Stmt}
    (h : ∀ cs bs e brace body, Greedy (.expr .pipeline e) cs .lbrace →
      Greedy (.block brace body) bs .eof →
      Greedy (.statement (f e brace body)) (vs ++ (cs ++ bs)) .eof) :
    Parser.Mends ts (do
      let e ← (upTo n).expr
      let (brace, body) ← (upTo n).block
      return f e brace body) (Begun .statement (vs ++ ts.ahead)) := by
  obtain ⟨blanks, ⟨brace, body⟩, hblanks, hblock⟩ := begun_block
  refine .bind ((hin.expr ts hn).mono ?_) ((finds_upTo n).expr ts hn) ?_
  · rintro ⟨us, e, hus, he⟩
    have hall := h _ _ e brace body (he.asFinal (.ofCloser (by decide)) rfl) hblock
    exact ⟨us ++ blanks, _, hus.append hblanks, by simpa using hall⟩
  · rintro cs ts₁ e rfl ⟨he, -⟩
    simp only [Tokens.ahead_length_before] at hn
    refine .ofOpen fun hopen => hin.body (by omega) fun us brace body hb => ?_
    have hbrace := List.mem_singleton.mp ((hb.derives.opens (by simp)).first_mem .eof)
    have hcs := hopen.read he us (by rw [hbrace]; decide)
    rw [hbrace] at hcs
    simpa [before] using h cs _ e brace body hcs hb

theorem Mends.whileLoop (hin : Phrases.Mends n) (hn : ts.ahead.length ≤ n)
    (hk : ts.current.kind = .whileWord) :
    Parser.Mends ts (upTo n).whileLoop (Begun .statement ts.ahead) := by
  refine .advance (by simp [hk]) ?_
  rintro tok ts₁ rfl
  simp only [Tokens.ahead_length_before] at hn
  refine hin.bodyAfter (f := fun test brace body => .whileLoop tok test (.block brace body))
    (by omega) [tok] fun cs bs test brace body hc hb => ?_
  have hloop : Greedy (.statement _) (tok :: (cs ++ bs)) .eof := .whileLoop hk hc hb
  exact hloop

theorem Mends.forLoop (hin : Phrases.Mends n) (hn : ts.ahead.length ≤ n)
    (hk : ts.current.kind = .forWord) :
    Parser.Mends ts (upTo n).forLoop (Begun .statement ts.ahead) := by
  refine .advance (by simp [hk]) ?_
  rintro tok ts₁ rfl
  rw [Tokens.current_before_cons] at hk
  have hempty (id word : Token) (hi : id.kind = .ident) (hw : word.kind = .inWord) :
      Begun .statement [tok, id, word] := by
    obtain ⟨us, e, hus, he⟩ := begun_expr .pipeline
    obtain ⟨vs, ⟨brace, body⟩, hvs, hb⟩ := begun_block
    have hloop := Greedy.forLoop hk hi hw (he.asFinal (.ofCloser (by decide)) rfl) hb
    exact ⟨us ++ vs, _, hus.append hvs, by simpa using hloop⟩
  refine .name ?_ ?_
  · intro hnil
    have hfilled := hempty (.sample .ident) (.sample .inWord) (by simp) (by simp)
    exact .fill [.ident, .inWord] (by decide) (by simpa [before, hnil] using hfilled)
  rintro id ts₂ rfl hi
  refine .expect (by simp) ?_ ?_
  · intro hnil
    have hfilled := hempty id (.sample .inWord) hi (by simp)
    exact .fill [.inWord] (by decide) (by simpa [before, hnil] using hfilled)
  rintro word ts₃ rfl hw
  simp only [Tokens.ahead_length_before] at hn
  refine hin.bodyAfter
    (f := fun items brace body => .forLoop tok (.mk id id.literal) items (.block brace body))
    (by omega) [tok, id, word] fun xs bs items brace body hx hb => ?_
  have hloop : Greedy (.statement _) (tok :: id :: word :: (xs ++ bs)) .eof :=
    .forLoop hk hi hw hx hb
  exact hloop

/-- A name alone is an expression, so reading it does not fail. -/
theorem mends_name {id : Token} {Q : Prop} (hi : id.kind = .ident) (hts : ts.ahead = [id])
    (hn : ts.ahead.length ≤ n) : Parser.Mends ts (upTo n).expr Q := by
  intro hopen e rest hrun
  have hname : Greedy (.expr .pipeline (.name (.mk id id.literal))) [id] .eof :=
    Greedy.loosest (.name hi : Greedy (.expr .primary _) _ _) (by decide)
  have htakes : Takes [id] ⟨[], ts.stop⟩ (upTo n).expr (.name (.mk id id.literal)) :=
    hname.found.takesExpr ⟨id, [], rfl, List.mem_singleton_self _⟩ (by decide) hopen.stop
      (by simpa [hts] using hn)
  have hsame : before [id] ⟨[], ts.stop⟩ = ts := by
    cases ts
    simp_all [before]
  unfold Takes at htakes
  rw [hsame, hrun] at htakes
  cases htakes

theorem Mends.simple (hin : Phrases.Mends n) (hn : ts.ahead.length ≤ n) :
    Parser.Mends ts ((upTo n).simple ts.current) (Begun .statement ts.ahead) := by
  refine .get ?_
  split
  · rename_i hstart
    refine .name ?_ ?_
    · intro hnil
      simp [Tokens.startsAssignment, hnil] at hstart
    rintro id ts₁ rfl hi
    refine .expect (by simp) ?_ ?_
    · intro hnil
      simp [Tokens.startsAssignment, before, hnil] at hstart
    rintro sign ts₂ rfl hs
    simp only [Tokens.ahead_length_before] at hn
    refine .map ((hin.expr ts₂ (by omega)).mono ?_)
    intro hv
    exact hv.within fun us value hvalue => ⟨_, .assign hi hs hvalue (by decide)⟩
  · rename_i hstart
    refine .map ?_
    rcases hahead : ts.ahead with _ | ⟨tok, vs⟩
    · exact (hin.expr ts hn).mono fun _ => begun_statement
    by_cases hname : tok.kind = .ident ∧ vs = []
    · exact mends_name hname.1 (by rw [hahead, hname.2]) hn
    refine (hin.expr ts hn).mono ?_
    intro hv
    rw [hahead] at hv
    apply hv.within
    intro us value hvalue
    refine ⟨_, .exprStatement hvalue (by decide) ?_⟩
    intro hi
    cases vs with
    | nil => exact absurd ⟨hi, rfl⟩ hname
    | cons sign vs => simpa [Tokens.startsAssignment, hahead, hi] using hstart

theorem Mends.bareStatement (hin : Phrases.Mends n) (ts : Tokens) (hn : ts.ahead.length ≤ n) :
    Parser.Mends ts (upTo n).bareStatement (Begun .statement ts.ahead) := by
  refine .peek ?_
  split
  · rename_i hk
    exact hin.declaration hn (.inl hk)
  · rename_i hk
    exact hin.declaration hn (.inr hk)
  · rename_i hk
    exact hin.function hn hk
  · rename_i hk
    refine .advance (by simp [hk]) ?_
    rintro tok ts₁ rfl
    simp only [Tokens.ahead_length_before] at hn
    exact hin.returned (by omega) hk
  · rename_i hk
    exact hin.whileLoop hn hk
  · rename_i hk
    exact hin.forLoop hn hk
  · exact hin.simple hn

theorem Mends.statement (hin : Phrases.Mends n) (ts : Tokens) (hn : ts.ahead.length ≤ n) :
    Parser.Mends ts (upTo n).statement (Begun .statement ts.ahead) := by
  refine .bind (hin.bareStatement ts hn) ((finds_upTo n).bareStatement ts hn) ?_
  intro _ _ _ _ _
  exact .accept? (by simp) (fun _ => .pure _) fun _ _ _ _ => .pure _

/-- Where the input ends, statements end. -/
theorem mends_atEnd {stops : List Token.Kind} {statement : Parser Stmt} {Q : Prop} (bound : Nat)
    (heof : .eof ∈ stops) (hnil : ts.ahead = []) :
    Parser.Mends ts (statements stops statement bound) Q := by
  refine .ofOpen fun hopen => ?_
  have hend : ts.current.kind = .eof := by simpa [Tokens.current, hnil] using hopen.stop
  cases bound with
  | zero => exact .pure _
  | succ bound =>
    refine .peek ?_
    rw [if_pos (List.contains_iff_mem.mpr (hend ▸ heof))]
    exact .pure _

/-- One statement after the other, and the one that fails is the last one. -/
theorem Mends.statements (hin : Phrases.Mends n) {stops : List Token.Kind} (heof : .eof ∈ stops)
    (bound : Nat) (ts : Tokens) (hn : ts.ahead.length ≤ n) :
    Parser.Mends ts (statements stops (upTo n).statement bound) (Begun .statements ts.ahead) := by
  induction bound generalizing ts with
  | zero => exact .pure _
  | succ bound ih =>
    refine .peek ?_
    split
    · exact .pure _
    refine .bind ((hin.statement ts hn).mono ?_) ((finds_upTo n).statement ts hn) ?_
    · intro hs
      apply hs.within
      intro us s hs
      have hnone : Greedy (.statements []) [] .eof := .noStatements (by decide)
      have hlast := Greedy.moreStatements hs (by decide) hnone
      exact ⟨_, by simpa using hlast⟩
    · rintro used ts₁ s rfl hs
      simp only [Tokens.ahead_length_before] at hn
      refine .map ?_
      by_cases hnil : ts₁.ahead = []
      · exact mends_atEnd bound heof hnil
      refine (ih ts₁ (by omega)).mono ?_
      intro hbody
      apply hbody.within
      intro us body hbody
      obtain ⟨tok, rest, hahead⟩ := List.exists_cons_of_ne_nil hnil
      rcases hs with ⟨vs, semi, rfl, hsemi, hs⟩ | ⟨hs, hsemi⟩
      · have hall := Greedy.closedStatement hs hsemi hbody
        exact ⟨_, by simpa [before] using hall⟩
      · have hfirst : ts₁.current.kind = first (ts₁.ahead ++ us) .eof := by
          simp [Tokens.current, hahead]
        rw [hfirst] at hs hsemi
        have hall := Greedy.moreStatements hs hsemi hbody
        exact ⟨_, by simpa [before] using hall⟩

theorem Mends.blockBody (hin : Phrases.Mends n) (ts : Tokens) (hn : ts.ahead.length ≤ n + 1) :
    Parser.Mends ts (upTo n).blockBody (Begun .ofBlock ts.ahead) := by
  refine .expect (by simp) ?_ ?_
  · intro hnil
    rw [hnil]
    exact begun_block
  rintro brace ts₁ rfl hk
  simp only [Tokens.ahead_length_before, List.length_singleton] at hn
  have hclosed (bs : List Token) (body : List Stmt) (hbody : Greedy (.statements body) bs .eof) :
      Greedy (.ofBlock (brace, body)) (brace :: (bs ++ [.sample .rbrace])) .eof :=
    .block hk hbody.statements_beforeBrace (Token.sample_kind _)
  refine .bind ((hin.statements (by simp) _ ts₁ (by omega)).mono ?_) ((finds_upTo n).statements
    (by simp) (fun _ h => h) _ ts₁ (by omega) (by rw [(finds_upTo n).bound]; omega)) ?_
  · intro hbody
    apply hbody.lift [.rbrace] (by decide)
    intro us body hbody
    exact ⟨_, by simpa [before] using hclosed _ body hbody⟩
  rintro bs ts₂ body rfl ⟨hbody, -⟩
  refine .ofOpen fun hopen => .expect (by simp) ?_ fun _ _ _ _ => .pure _
  intro hnil
  have hend : ts₂.current.kind = .eof := by simpa [Tokens.current, hnil] using hopen.stop
  apply Begun.fill [.rbrace] (by decide)
  apply Begun.whole
  simpa [before, hnil] using hclosed bs body (hend ▸ hbody)

end Statements

section Branches

/-- Where nothing is left, a name is filled in: it is no block and no choice. -/
theorem begun_branch :
    ∃ us e, Spelled us ∧ Greedy (.branch e) us .eof ∧ first us .eof ≠ .ifWord := by
  have hname : Greedy (.expr .primary (.name (.mk (.sample .ident) _))) [.sample .ident] .eof :=
    .name (by simp)
  exact ⟨[.sample .ident], _, spelled_samples [.ident] (by decide),
    .exprBranch (hname.loosest (by decide)) (by decide) (by simp), by simp⟩

theorem Mends.blockOrExpr (hin : Phrases.Mends n) (ts : Tokens) (hn : ts.ahead.length ≤ n) :
    Parser.Mends ts (upTo n).blockOrExpr (Begun .branch ts.ahead) := by
  refine .peek ?_
  split
  · refine .map ((hin.block ts hn).mono ?_)
    intro hb
    exact hb.within fun us b hb => ⟨_, .blockBranch hb⟩
  · rename_i hk
    refine (hin.expr ts hn).mono ?_
    intro he
    cases hahead : ts.ahead with
    | nil =>
      obtain ⟨us, e, hus, he, -⟩ := begun_branch
      exact ⟨us, e, hus, he⟩
    | cons tok rest =>
      rw [hahead] at he
      apply he.within
      intro us e he
      have hfirst : tok.kind ≠ .lbrace := by simpa [Tokens.current, hahead] using hk
      exact ⟨e, .exprBranch he (by decide) hfirst⟩

theorem Mends.consequence (hin : Phrases.Mends n) (ts : Tokens) (hn : ts.ahead.length ≤ n) :
    Parser.Mends ts (upTo n).consequence (Begun .consequence ts.ahead) := by
  refine .peek ?_
  by_cases hbrace : ts.current.kind = .lbrace
  · simp only [hbrace, ne_eq, not_true_eq_false, if_false, Phrases.blockOrExpr]
    refine .peek ?_
    rw [if_pos hbrace]
    refine .map ((hin.block ts hn).mono ?_)
    intro hb
    exact hb.within fun us b hb => ⟨_, .blockConsequence hb⟩
  · simp only [hbrace, ne_eq, not_false_eq_true, if_true]
    refine .expect (by simp) ?_ ?_
    · intro hnil
      rw [hnil]
      exact begun_block.within fun us b hb => ⟨_, .blockConsequence hb⟩
    rintro word ts₁ rfl hw
    simp only [Tokens.ahead_length_before] at hn
    refine (hin.blockOrExpr ts₁ (by omega)).mono ?_
    intro hb
    exact hb.within fun us e he => ⟨e, .thenConsequence hw he⟩

/-- An alternative fails behind the word `else`. -/
theorem Mends.alternative (hin : Phrases.Mends n) (ts : Tokens) (hn : ts.ahead.length ≤ n) :
    Parser.Mends ts (upTo n).alternative (∃ word rest, ts.ahead = word :: rest ∧
      word.kind = .elseWord ∧ Begun .alternative rest) := by
  refine .accept? (by simp) (fun _ => .pure _) ?_
  rintro word ts₁ rfl hk
  have hk := List.mem_singleton.mp hk
  simp only [Tokens.ahead_length_before] at hn
  refine .peek ?_
  split
  · rename_i hif
    refine (hin.cond ts₁ (by omega) hif).mono ?_
    intro hc
    exact ⟨word, ts₁.ahead, rfl, hk, hc.within fun us e he => ⟨e, .elseIf he⟩⟩
  · rename_i hif
    refine (hin.blockOrExpr ts₁ (by omega)).mono ?_
    intro hb
    refine ⟨word, ts₁.ahead, rfl, hk, ?_⟩
    cases hahead : ts₁.ahead with
    | nil =>
      obtain ⟨us, e, hus, he, hfirst⟩ := begun_branch
      exact ⟨us, e, hus, .elseBranch he hfirst⟩
    | cons tok rest =>
      rw [hahead] at hb
      apply hb.within
      intro us e he
      have hfirst : tok.kind ≠ .ifWord := by simpa [Tokens.current, hahead] using hif
      exact ⟨e, .elseBranch he hfirst⟩

theorem Mends.choice (hin : Phrases.Mends n) (ts : Tokens) (hn : ts.ahead.length ≤ n + 1)
    (hk : ts.current.kind = .ifWord) :
    Parser.Mends ts (upTo n).choice (Begun .choice ts.ahead) := by
  refine .advance (by simp [hk]) ?_
  rintro tok ts₁ rfl
  rw [Tokens.current_before_cons] at hk
  simp only [Tokens.ahead_length_before, List.length_singleton] at hn
  refine .bind ((hin.expr ts₁ (by omega)).mono ?_) ((finds_upTo n).expr ts₁ (by omega)) ?_
  · -- The condition is unfinished, and an empty block follows from it.
    rintro ⟨us, test, hus, hc⟩
    obtain ⟨vs, ⟨brace, body⟩, hvs, hb⟩ := begun_block
    have hbrace := List.mem_singleton.mp ((hb.derives.opens (by simp)).first_mem .eof)
    have hc : Greedy (.expr .pipeline test) (ts₁.ahead ++ us) (first vs .eof) :=
      hc.asFinal (.ofCloser (by rw [show first vs .eof = .lbrace from hbrace]; decide)) rfl
    have hall := Greedy.ifThen hk hc (.blockConsequence hb) (by decide)
    exact ⟨us ++ vs, _, hus.append hvs, by simpa [before] using hall⟩
  rintro cs ts₂ test rfl ⟨hc, -⟩
  simp only [Tokens.ahead_length_before] at hn
  refine .ofOpen fun hopen => .bind ((hin.consequence ts₂ (by omega)).mono ?_)
    ((finds_upTo n).consequence ts₂ (by omega)) ?_
  · intro hy
    apply hy.within
    intro us yes hy
    have hopens : first (ts₂.ahead ++ us) .eof ∈ [.lbrace, .thenWord] :=
      (hy.derives.opens (by simp)).first_mem .eof
    have hcloses : ∀ k ∈ [.lbrace, .thenWord], k ∈ closers := by decide
    have hc := hopen.read hc us (hcloses _ hopens)
    have hall := Greedy.ifThen hk hc hy (by decide)
    exact ⟨_, by simpa [before] using hall⟩
  rintro ys ts₃ yes rfl hy
  rw [Tokens.current_before] at hc
  simp only [Tokens.ahead_length_before] at hn
  refine .map ((hin.alternative ts₃ (by omega)).mono ?_)
  rintro ⟨word, rest, hrest, hw, hno⟩
  have hword : ts₃.current.kind = .elseWord := by simpa [Tokens.current, hrest] using hw
  rw [hword] at hc hy
  apply hno.within
  intro us no hno
  have hall := Greedy.ifThenElse hk hc hy hw hno
  exact ⟨_, by simpa [before, hrest] using hall⟩

theorem Mends.lambda (hin : Phrases.Mends n) (hn : ts.ahead.length ≤ n + 1)
    (hk : ts.current.kind = .bar ∨ ts.current.kind = .or) :
    Parser.Mends ts (upTo n).lambda (Begun (.expr .primary) ts.ahead) := by
  refine .advance (by rcases hk with hk | hk <;> simp [hk]) ?_
  rintro tok ts₁ rfl
  rw [Tokens.current_before_cons] at hk
  simp only [Tokens.ahead_length_before, List.length_singleton] at hn
  rcases hk with hk | hk
  · rw [if_pos hk]
    refine .bind ((Parser.Mends.names (by decide) (by decide) _).mono ?_)
      (.names (by simp)) ?_
    · rintro ⟨us, params, hus, hps⟩
      obtain ⟨vs, body, hvs, hb, -⟩ := begun_branch
      have hall := Greedy.lambda hk hps hb
      exact ⟨us ++ vs, _, hus.append hvs, by simpa [before] using hall⟩
    rintro ps ts₂ params rfl hps
    simp only [Tokens.ahead_length_before] at hn
    refine .map ((hin.blockOrExpr ts₂ (by omega)).mono ?_)
    intro hb
    apply hb.within
    intro us body hb
    exact ⟨_, by simpa [before] using Greedy.lambda hk hps hb⟩
  · rw [if_neg (by simp [hk]), pure_bind]
    refine .map ((hin.blockOrExpr ts₁ (by omega)).mono ?_)
    intro hb
    exact hb.within fun us body hb => ⟨_, .thunk hk hb⟩

end Branches

section Expressions

theorem Mends.primary (hin : Phrases.Mends n) (ts : Tokens) (hn : ts.ahead.length ≤ n + 1) :
    Parser.Mends ts (upTo n).primary (Begun (.expr .primary) ts.ahead) := by
  have hmissing : ts.ahead = [] → Begun (.expr .primary) ts.ahead := by
    intro hnil
    rw [hnil]
    exact begun_expr .primary
  refine .peek ?_
  split
  · rename_i hk
    refine (hin.choice ts hn hk).mono ?_
    intro hc
    exact hc.within fun us e he => ⟨e, .choicePrimary he⟩
  · refine .map ((hin.blockBody ts hn).mono ?_)
    intro hb
    exact hb.within fun us b hb => ⟨_, .blockPrimary hb⟩
  · rename_i hk
    exact hin.lambda hn (.inl hk)
  · rename_i hk
    exact hin.lambda hn (.inr hk)
  · rename_i hk
    refine .advance (by simp [hk]) ?_
    rintro tok ts₁ rfl
    simp only [Tokens.ahead_length_before, List.length_singleton] at hn
    refine .map ((hin.exprs (by decide) (by omega)).mono ?_)
    intro hx
    exact hx.within fun us items hx => ⟨_, .array hk hx⟩
  · rename_i hk
    refine .advance (by simp [hk]) ?_
    rintro tok ts₁ rfl
    simp only [Tokens.ahead_length_before, List.length_singleton] at hn
    have hclosed (es : List Token) (e : Expr) (he : Greedy (.expr .pipeline e) es .eof) :
        Greedy (.expr .primary e) (tok :: (es ++ [.sample .rparen])) .eof :=
      .parens hk (he.asFinal (.ofCloser (by decide)) rfl) (Token.sample_kind _)
    refine .bind ((hin.expr ts₁ (by omega)).mono ?_) ((finds_upTo n).expr ts₁ (by omega)) ?_
    · intro he
      apply he.lift [.rparen] (by decide)
      intro us e he
      exact ⟨e, by simpa [before] using hclosed _ e he⟩
    rintro es ts₂ e rfl ⟨he, -⟩
    refine .ofOpen fun hopen => .expect (by simp) ?_ fun _ _ _ _ => .pure _
    intro hnil
    have hend : ts₂.current.kind = .eof := by simpa [Tokens.current, hnil] using hopen.stop
    apply Begun.fill [.rparen] (by decide)
    apply Begun.whole
    simpa [before, hnil] using hclosed es e (hend ▸ he)
  · rename_i hk
    refine .advance (by simp [hk]) ?_
    rintro tok ts₁ rfl
    split
    · exact .pure _
    · -- A token that is no numeral stays one.
      intro _ e rest hrun he
      cases hrun
      have hnumber : tok.kind ≠ .eof := by simpa using hk ▸ Token.Kind.noConfusion
      exact absurd ⟨hnumber, by simp⟩ he
  · rename_i hk
    exact .advance (by simp [hk]) fun _ _ _ => .pure _
  · rename_i hk
    exact .advance (by simp [hk]) fun _ _ _ => .pure _
  · rename_i hk
    exact .advance (by simp [hk]) fun _ _ _ => .pure _
  · rename_i hk
    exact .advance (by simp [hk]) fun _ _ _ => .pure _
  · exact .name hmissing fun _ _ _ _ => .pure _
  · exact .unexpected hmissing

theorem Mends.arguments (hin : Phrases.Mends n) {es : List Token} {callee : Expr} {tok : Token}
    (hn : ts.ahead.length ≤ n) (hk : tok.kind ∈ Level.call.suffixes)
    (hcallee : Greedy (.expr .call callee) es tok.kind) :
    Parser.Mends ts ((upTo n).arguments callee tok)
      (Begun (.expr .call) (es ++ tok :: ts.ahead)) := by
  have hk := List.mem_singleton.mp hk
  refine .map ((hin.exprs (by decide) hn).mono ?_)
  intro hargs
  apply hargs.within
  intro us args hargs
  exact ⟨_, by simpa using Greedy.call (hk ▸ hcallee) hk hargs⟩

theorem Mends.call (hin : Phrases.Mends n) (ts : Tokens) (hn : ts.ahead.length ≤ n + 1) :
    Parser.Mends ts (upTo n).call (Begun (.expr .call) ts.ahead) := by
  refine .bind ((hin.primary ts hn).mono ?_) ((finds_upTo n).primary ts hn) ?_
  · intro hp
    exact hp.within fun us e he => ⟨e, .tighter he List.not_mem_nil⟩
  rintro us ts₁ e rfl he
  obtain ⟨tok, vs, rfl, -⟩ := he.derives.opens (by simp)
  simp only [Tokens.ahead_length_before, List.length_cons] at hn
  exact Parser.Mends.extend .call (fun _ _ _ _ => (finds_upTo n).arguments)
    (fun _ _ _ _ _ => hin.arguments) _ (show ts₁.ahead.length ≤ n by omega)
    (.tighter he List.not_mem_nil)

theorem Mends.unaryChain (hin : Phrases.Mends n) (ts : Tokens) (hn : ts.ahead.length ≤ n + 1) :
    Parser.Mends ts (upTo n).unaryChain (Begun (.expr .unary) ts.ahead) := by
  refine .accept? (by simp) ?_ ?_
  · intro _
    refine (hin.call ts hn).mono ?_
    intro hc
    exact hc.within fun us e he => ⟨e, .tighter he (by decide)⟩
  · rintro op ts₁ rfl hk
    simp only [Tokens.ahead_length_before, List.length_singleton] at hn
    refine .map ((hin.unary ts₁ (by omega)).mono ?_)
    intro ho
    exact ho.within fun us e he => ⟨_, .unary (by simpa using hk) he⟩

/-- The operand of a binary operator is of the next tighter level, and so is what it begins. -/
structure MendsOperand (level : Level) (operand : Parser Expr) (n : Nat) : Prop where
  finds : FindsOperand level operand n
  mends : ∀ ts : Tokens, ts.ahead.length ≤ n →
    Parser.Mends ts operand (Begun (.expr level.tighter) ts.ahead)

/-- One tier of binary operators. -/
theorem MendsOperand.binaryChain {level : Level} {operand : Parser Expr}
    (ho : MendsOperand level operand (n + 1)) (hl : level.suffixes = level.operators)
    (ts : Tokens) (hn : ts.ahead.length ≤ n + 1) :
    Parser.Mends ts (binaryChain n level.operators operand) (Begun (.expr level) ts.ahead) := by
  have heof : .eof ∉ level.tighter.suffixes := by cases level <;> decide
  refine .bind ((ho.mends ts hn).mono ?_) (ho.finds ts hn) ?_
  · intro hbegun
    exact hbegun.within fun us e he => ⟨e, .tighter he heof⟩
  rintro us ts₁ e rfl ⟨he, hk⟩
  obtain ⟨tok, vs, rfl, -⟩ := he.derives.opens (by simp)
  simp only [Tokens.ahead_length_before, List.length_cons] at hn
  rw [← hl]
  refine .extend level (fun _ _ _ _ => ho.finds.rightOperand hl) ?_ n
    (show ts₁.ahead.length ≤ n by omega) (.tighter he hk)
  intro ts₂ es left op _ hn hop hleft
  refine .map ((ho.mends ts₂ (by omega)).mono ?_)
  intro hr
  apply hr.within
  intro us right hright
  exact ⟨_, by simpa using Greedy.binary hleft (hl ▸ hop) hright heof⟩

theorem Mends.operation (hin : Phrases.Mends n) (ts : Tokens) (hn : ts.ahead.length ≤ n + 1) :
    Parser.Mends ts (upTo n).operation (Begun (.expr .or) ts.ahead) := by
  have hunary : FindsOperand .product (upTo n).unaryChain (n + 1) :=
    fun ts hn => ((finds_upTo n).unaryChain ts hn).mono fun _ _ _ _ he => ⟨he, List.not_mem_nil⟩
  have unary : MendsOperand .product _ (n + 1) := ⟨hunary, hin.unaryChain⟩
  have product : MendsOperand .sum _ (n + 1) := ⟨unary.finds.binaryChain rfl, unary.binaryChain rfl⟩
  have sum : MendsOperand .comparison _ (n + 1) :=
    ⟨product.finds.binaryChain rfl, product.binaryChain rfl⟩
  have comparison : MendsOperand .equality _ (n + 1) :=
    ⟨sum.finds.binaryChain rfl, sum.binaryChain rfl⟩
  have equality : MendsOperand .and _ (n + 1) :=
    ⟨comparison.finds.binaryChain rfl, comparison.binaryChain rfl⟩
  have and : MendsOperand .or _ (n + 1) :=
    ⟨equality.finds.binaryChain rfl, equality.binaryChain rfl⟩
  rw [Phrases.operation, (finds_upTo n).bound]
  exact and.binaryChain rfl ts hn

/-- Unless it is read as a target already, what can become a target behind a pipe goes on to the end
of input. -/
theorem target_goesOn {us : List Token} (hn : ts.ahead.length ≤ n + 1)
    (ht : HasTarget (ts.ahead ++ us) .eof)
    (hno : ∀ target rest, (upTo n).operation ts = .ok target rest → ¬IsPipeTarget target) :
    ∃ vs target, vs <+: us ∧ Greedy (.expr .or target) (ts.ahead ++ vs) .eof ∧
      IsPipeTarget target := by
  obtain ⟨rs, post, target, hsplit, hr, hk, htarget⟩ := ht
  rcases List.append_eq_append_iff.mp hsplit with ⟨vs, hrs, rfl⟩ | ⟨mid, hahead, rfl⟩
  · subst hrs
    exact ⟨vs, target, List.prefix_append _ _, hr.asFinal (.ofCloser (by decide)) rfl, htarget⟩
  · cases mid with
    | nil =>
      rw [List.append_nil] at hahead
      refine ⟨[], target, List.nil_prefix, ?_, htarget⟩
      rw [hahead, List.append_nil]
      exact hr.asFinal (.ofCloser (by decide)) rfl
    | cons tok mid =>
      -- The target has ended before the end of input, so the parser has seen all of it.
      have htakes : Takes rs ⟨tok :: mid, ts.stop⟩ (upTo n).operation target :=
        hr.found.takesLevel hk rfl (by simpa [hahead] using hn)
      refine absurd htarget (hno target ⟨tok :: mid, ts.stop⟩ ?_)
      have hsame : before rs ⟨tok :: mid, ts.stop⟩ = ts := by
        cases ts
        simp_all [before]
      rw [← hsame]
      exact htakes

private theorem mends_pipeTarget {es : List Token} {left : Expr} {tok : Token}
    (hopen : (before [tok] ts).Open) (hn : ts.ahead.length ≤ n)
    (hk : tok.kind ∈ Level.pipeline.suffixes)
    (hleft : Greedy (.expr .pipeline left) es tok.kind) :
    Parser.Mends ts ((upTo n).pipeTarget left tok)
      (Begun (.expr .pipeline) (es ++ tok :: ts.ahead)) := by
  have hk := List.mem_singleton.mp hk
  obtain ⟨text, us, htext, htarget⟩ := hopen.pipes [] tok ts.ahead rfl hk
  have hus := spelled_of_seen htext
  refine .peek ?_
  intro _ e rest hrun _
  -- Whether the operand fails or is no target, it can go on and become one.
  have hno : ∀ target rest, (upTo n).operation ts = .ok target rest → ¬IsPipeTarget target := by
    intro target rest' hok hp
    rw [run_bind_of_ok hok, if_pos (isPipeTarget_iff.mpr hp)] at hrun
    cases hrun
  obtain ⟨vs, target, hvs, hr, hp⟩ := target_goesOn (by omega) htarget hno
  have hall := Greedy.pipe (hk ▸ hleft) hk hr (by decide) hp
  exact ⟨vs, _, fun tok htok => hus tok (hvs.subset htok), by simpa using hall⟩

theorem Mends.pipeline (hin : Phrases.Mends n) (ts : Tokens) (hn : ts.ahead.length ≤ n + 1) :
    Parser.Mends ts (upTo n).pipeline (Begun (.expr .pipeline) ts.ahead) := by
  refine .bind ((hin.operation ts hn).mono ?_) ((finds_upTo n).operation ts hn) ?_
  · intro ho
    exact ho.within fun us e he => ⟨e, .tighter he (by decide)⟩
  rintro us ts₁ e rfl ⟨he, hk⟩
  obtain ⟨tok, vs, rfl, -⟩ := he.derives.opens (by simp)
  simp only [Tokens.ahead_length_before, List.length_cons] at hn
  exact Parser.Mends.extend .pipeline
    (fun _ _ _ _ hn hpipe hleft => have hpipe := List.mem_singleton.mp hpipe
      (finds_upTo n).pipeTarget (by omega) hpipe (hpipe ▸ hleft))
    (fun _ _ _ _ => mends_pipeTarget) _ (show ts₁.ahead.length ≤ n by omega) (.tighter he hk)

end Expressions

private theorem mends_upTo (n : Nat) : Phrases.Mends n := by
  induction n with
  | zero =>
    have hnil {ts : Tokens} (hn : ts.ahead.length ≤ 0) : ts.ahead = [] :=
      List.length_eq_zero_iff.mp (Nat.le_zero.mp hn)
    constructor
    · intro ts hn
      rw [hnil hn]
      exact .unexpected fun _ => begun_expr .pipeline
    · intro ts hn
      rw [hnil hn]
      exact .unexpected fun _ => begun_expr .unary
    · intro ts hn hk
      refine .ofOpen fun hopen => ?_
      simp [Tokens.current, hnil hn, hopen.stop] at hk
    · intro ts hn
      rw [hnil hn]
      exact .peek (.throw rfl (by simp) fun _ => begun_block)
  | succ n ih => exact ⟨ih.pipeline, ih.unaryChain, ih.choice, ih.blockBody⟩

end Phrases

/-- A program that is cut short can be completed, if every pipe in it has a target or can get
one. -/
theorem Parser.program_mends {ts rest : Tokens} {e : GrammarError} (hopen : ts.Open)
    (h : program ts = .error e rest) (he : ¬e.Definite) : Begun .statements ts.ahead := by
  have hmends : Mends ts program (Begun .statements ts.ahead) := by
    refine .get ?_
    exact .map ((Phrases.mends_upTo _).statements (by simp) _ ts le_rfl)
  exact hmends hopen e rest h he

end PipeCompiler
