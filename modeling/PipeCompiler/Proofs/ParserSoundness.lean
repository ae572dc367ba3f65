import PipeCompiler.Lowering
import PipeCompiler.Proofs.Reading

/-! Every parsed program has a derivation.

Each production finds a greedy derivation of its result, provided that the parsers for the phrases
nested in it do. Loops are bounded by the number of tokens, so that all of this is about inputs that
the bounds have room for: there a loop only ends where its condition fails. Nesting starts from
parsers that always fail, so all layers are sound, and a program that is read to the end of input
accounts for every token before it. -/
namespace PipeCompiler

open PipeCompiler.Parser Grammar
open Tokens (before)

/-- The parsers for nested phrases find greedy derivations in up to `n` tokens. -/
structure Phrases.Finds (inner : Phrases) (n : Nat) : Prop where
  bound : inner.bound = n
  expr : ∀ ts : Tokens, ts.ahead.length ≤ n → Parser.Finds ts inner.expr fun used rest e =>
    Greedy (.expr .pipeline e) used rest.current.kind ∧ rest.current.kind ≠ .pipe
  unary : ∀ ts : Tokens, ts.ahead.length ≤ n → Parser.Finds ts inner.unary fun used rest e =>
    Greedy (.expr .unary e) used rest.current.kind
  cond : ∀ ts : Tokens, ts.ahead.length ≤ n → ts.current.kind = .ifWord →
    Parser.Finds ts inner.cond fun used rest e => Greedy (.choice e) used rest.current.kind
  block : ∀ ts : Tokens, ts.ahead.length ≤ n → Parser.Finds ts inner.block fun used rest b =>
    Greedy (.block b.1 b.2) used rest.current.kind

namespace Phrases

variable {inner : Phrases} {n : Nat} {ts : Tokens}

/-- Behind a first item, more of them and the closing token make the list complete. -/
theorem Finds.moreItems (hin : inner.Finds n) (closing : Token.Kind) (bound : Nat) (ts : Tokens)
    (hn : ts.ahead.length ≤ n) :
    Parser.Finds ts (moreItems inner.expr bound) fun used rest es =>
      ∀ {fs : List Token} {e : Expr} {close : Token} {next : Token.Kind},
        Greedy (.expr .pipeline e) fs ts.current.kind → close.kind = closing →
        rest.current.kind = closing →
        Greedy (.exprs closing (e :: es)) (fs ++ (used ++ [close])) next := by
  induction bound generalizing ts with
  | zero => exact .pure fun he hc hk => .lastExpr (hk ▸ he) hc
  | succ bound ih =>
    refine .bind (.accept? (by simp)) ?_
    rintro _ ts₁ (_ | comma) rfl hcomma
    · obtain ⟨rfl, -⟩ := hcomma
      exact .pure fun he hc hk => .lastExpr (hk ▸ he) hc
    · obtain ⟨rfl, hcomma⟩ := hcomma
      have hcomma := List.mem_singleton.mp hcomma
      simp only [Tokens.ahead_length_before, List.length_singleton] at hn
      refine .bind (hin.expr ts₁ (by omega)) ?_
      rintro us ts₂ x rfl ⟨hx, -⟩
      simp only [Tokens.ahead_length_before] at hn
      refine .bind (ih ts₂ (by omega)) ?_
      rintro vs ts₃ xs rfl hxs
      refine .pure fun {fs e close next} he hc hk => ?_
      rw [Tokens.current_before_cons, hcomma] at he
      have hrest : Greedy (.exprs closing (x :: xs)) _ next := hxs hx hc hk
      simpa using Greedy.moreExprs he hcomma hrest

theorem Finds.exprs (hin : inner.Finds n) {closing : Token.Kind} (hc : closing ≠ .eof)
    (hn : ts.ahead.length ≤ n) :
    Parser.Finds ts (items inner.bound inner.expr closing) fun used rest es =>
      Greedy (.exprs closing es) used rest.current.kind := by
  refine .bind (.accept? (by simpa using hc.symm)) ?_
  rintro _ ts₁ (_ | close) rfl hclose
  · obtain ⟨rfl, -⟩ := hclose
    refine .bind (hin.expr ts₁ hn) ?_
    rintro fs ts₂ e rfl ⟨he, -⟩
    simp only [Tokens.before_nil, Tokens.ahead_length_before] at hn
    refine .bind (hin.moreItems closing _ ts₂ (by omega)) ?_
    rintro us ts₃ es rfl hes
    refine .bind (.expect hc) ?_
    rintro _ ts₄ close rfl ⟨rfl, hclose⟩
    exact .pure (by simpa using hes he hclose hclose)
  · obtain ⟨rfl, hclose⟩ := hclose
    exact .pure (.noExprs (List.mem_singleton.mp hclose))

theorem Finds.declaration (hin : inner.Finds n) (hn : ts.ahead.length ≤ n)
    (hk : ts.current.kind = .letWord ∨ ts.current.kind = .varWord) :
    Parser.Finds ts inner.declaration fun used rest s =>
      Greedy (.statement s) used rest.current.kind := by
  refine .bind (.advance (by rcases hk with hk | hk <;> simp [hk])) ?_
  rintro _ ts₁ tok rfl rfl
  refine .bind .name ?_
  rintro _ ts₂ _ rfl ⟨id, hi, rfl, rfl⟩
  refine .bind (.expect (by simp)) ?_
  rintro _ ts₃ sign rfl ⟨rfl, hs⟩
  simp only [Tokens.ahead_length_before] at hn
  refine .bind (hin.expr ts₃ (by omega)) ?_
  rintro vs ts₄ value rfl ⟨hv, hpipe⟩
  refine .pure ?_
  rw [List.append_nil]
  exact .declare hk hi hs hv hpipe

theorem Finds.function (hin : inner.Finds n) (hn : ts.ahead.length ≤ n)
    (hk : ts.current.kind = .fnWord) :
    Parser.Finds ts inner.function fun used rest s =>
      Greedy (.statement s) used rest.current.kind := by
  refine .bind (.advance (by simp [hk])) ?_
  rintro _ ts₁ tok rfl rfl
  refine .bind .name ?_
  rintro _ ts₂ _ rfl ⟨id, hi, rfl, rfl⟩
  refine .bind (.expect (by simp)) ?_
  rintro _ ts₃ paren rfl ⟨rfl, hp⟩
  refine .bind (.names (by simp)) ?_
  rintro ps ts₄ params rfl hps
  refine .bind (.accept? (by simp)) ?_
  rintro _ ts₅ (_ | sign) rfl hsign
  · obtain ⟨rfl, -⟩ := hsign
    simp only [Tokens.ahead_length_before] at hn
    refine .bind (hin.block ts₅ (by omega)) ?_
    rintro bs ts₆ ⟨brace, body⟩ rfl hb
    exact .pure (by simpa using Greedy.blockFunction hk hi hp hps hb)
  · obtain ⟨rfl, hs⟩ := hsign
    simp only [Tokens.ahead_length_before] at hn
    refine .bind (hin.expr ts₅ (by omega)) ?_
    rintro bs ts₆ body rfl ⟨hb, hpipe⟩
    have hs := List.mem_singleton.mp hs
    exact .pure (by simpa using Greedy.conciseFunction hk hi hp hps hs hb hpipe)

theorem Finds.returned (hin : inner.Finds n) (hn : ts.ahead.length ≤ n) {tok : Token}
    (hk : tok.kind = .returnWord) :
    Parser.Finds ts (inner.returned tok) fun used rest s =>
      Greedy (.statement s) (tok :: used) rest.current.kind := by
  refine .peek ?_
  split
  · rename_i hend
    exact .pure (.leave hk (by simp [hend]))
  · rename_i hend
    exact .pure (.leave hk (by simp [hend]))
  · rename_i hend
    exact .pure (.leave hk (by simp [hend]))
  · refine .bind (hin.expr ts hn) ?_
    rintro vs ts₁ value rfl ⟨hv, hpipe⟩
    exact .pure (by simpa using Greedy.ret hk hv hpipe)

/-- What comes before the body of a loop ends at the brace of the body. -/
theorem Finds.loopBody (hin : inner.Finds n) (hn : ts.ahead.length ≤ n) {value : Expr}
    {vs : List Token} (hv : Greedy (.expr .pipeline value) vs ts.current.kind) :
    Parser.Finds ts inner.block fun used rest b =>
      Greedy (.expr .pipeline value) vs .lbrace ∧
        Greedy (.block b.1 b.2) used rest.current.kind := by
  refine (hin.block ts hn).mono ?_
  rintro bs rest b rfl hb
  have hbrace := List.mem_singleton.mp ((hb.derives.opens (by simp)).first_mem rest.current.kind)
  rw [Tokens.current_before, hbrace] at hv
  exact ⟨hv, hb⟩

theorem Finds.whileLoop (hin : inner.Finds n) (hn : ts.ahead.length ≤ n)
    (hk : ts.current.kind = .whileWord) :
    Parser.Finds ts inner.whileLoop fun used rest s =>
      Greedy (.statement s) used rest.current.kind := by
  refine .bind (.advance (by simp [hk])) ?_
  rintro _ ts₁ tok rfl rfl
  simp only [Tokens.ahead_length_before] at hn
  refine .bind (hin.expr ts₁ (by omega)) ?_
  rintro cs ts₂ test rfl ⟨hc, -⟩
  simp only [Tokens.ahead_length_before] at hn
  refine .bind (hin.loopBody (by omega) hc) ?_
  rintro bs ts₃ ⟨brace, body⟩ rfl ⟨hc, hb⟩
  exact .pure (by simpa using Greedy.whileLoop hk hc hb)

theorem Finds.forLoop (hin : inner.Finds n) (hn : ts.ahead.length ≤ n)
    (hk : ts.current.kind = .forWord) :
    Parser.Finds ts inner.forLoop fun used rest s =>
      Greedy (.statement s) used rest.current.kind := by
  refine .bind (.advance (by simp [hk])) ?_
  rintro _ ts₁ tok rfl rfl
  refine .bind .name ?_
  rintro _ ts₂ _ rfl ⟨id, hi, rfl, rfl⟩
  refine .bind (.expect (by simp)) ?_
  rintro _ ts₃ word rfl ⟨rfl, hw⟩
  simp only [Tokens.ahead_length_before] at hn
  refine .bind (hin.expr ts₃ (by omega)) ?_
  rintro xs ts₄ items rfl ⟨hx, -⟩
  simp only [Tokens.ahead_length_before] at hn
  refine .bind (hin.loopBody (by omega) hx) ?_
  rintro bs ts₅ ⟨brace, body⟩ rfl ⟨hx, hb⟩
  exact .pure (by simpa using Greedy.forLoop hk hi hw hx hb)

theorem Finds.simple (hin : inner.Finds n) (hn : ts.ahead.length ≤ n) :
    Parser.Finds ts (inner.simple ts.current) fun used rest s =>
      Greedy (.statement s) used rest.current.kind := by
  intro hstop
  refine Parser.Finds.get ?_ hstop
  split
  · refine .bind .name ?_
    rintro _ ts₁ _ rfl ⟨id, hi, rfl, rfl⟩
    refine .bind (.expect (by simp)) ?_
    rintro _ ts₂ sign rfl ⟨rfl, hs⟩
    simp only [Tokens.ahead_length_before] at hn
    refine .bind (hin.expr ts₂ (by omega)) ?_
    rintro vs ts₃ value rfl ⟨hv, hpipe⟩
    exact .pure (by simpa using Greedy.assign hi hs hv hpipe)
  · rename_i hstart
    refine .bind (hin.expr ts hn) ?_
    rintro vs ts₁ value rfl ⟨hv, hpipe⟩
    obtain ⟨tok, us, rfl, -⟩ := hv.derives.opens (by simp)
    have hno : tok.kind = .ident → first us ts₁.current.kind ≠ .assign := by
      intro hi hassign
      apply hstart
      cases us with
      | nil =>
        cases hahead : ts₁.ahead with
        | nil =>
          have hend : ts₁.current.kind = .eof := by
            simpa [before, Tokens.current, hahead] using hstop
          simp [hend] at hassign
        | cons sign more =>
          simpa [before, Tokens.startsAssignment, hahead, Tokens.current, hi] using hassign
      | cons sign us => simpa [before, Tokens.startsAssignment, hi] using hassign
    exact .pure (by simpa using Greedy.exprStatement hv hpipe hno)

theorem Finds.bareStatement (hin : inner.Finds n) (ts : Tokens) (hn : ts.ahead.length ≤ n) :
    Parser.Finds ts inner.bareStatement fun used rest s =>
      Greedy (.statement s) used rest.current.kind := by
  refine .peek ?_
  split
  · rename_i hk
    exact hin.declaration hn (.inl hk)
  · rename_i hk
    exact hin.declaration hn (.inr hk)
  · rename_i hk
    exact hin.function hn hk
  · rename_i hk
    refine .bind (.advance (by simp [hk])) ?_
    rintro _ ts₁ tok rfl rfl
    simp only [Tokens.ahead_length_before] at hn
    exact hin.returned (by omega) hk
  · rename_i hk
    exact hin.whileLoop hn hk
  · rename_i hk
    exact hin.forLoop hn hk
  · exact hin.simple hn

theorem Finds.statement (hin : inner.Finds n) (ts : Tokens) (hn : ts.ahead.length ≤ n) :
    Parser.Finds ts inner.statement fun used rest s =>
      (∃ us tok, used = us ++ [tok] ∧ tok.kind = .semicolon ∧ Greedy (.statement s) us .semicolon) ∨
      Greedy (.statement s) used rest.current.kind ∧ rest.current.kind ≠ .semicolon := by
  refine .bind (hin.bareStatement ts hn) ?_
  rintro us ts₁ s rfl hs
  refine .bind (.accept? (by simp)) ?_
  rintro _ ts₂ (_ | tok) rfl htok
  · obtain ⟨rfl, hnone⟩ := htok
    exact .pure (.inr ⟨by simpa using hs, by simpa using hnone⟩)
  · obtain ⟨rfl, hk⟩ := htok
    have hk := List.mem_singleton.mp hk
    rw [Tokens.current_before_cons, hk] at hs
    exact .pure (.inl ⟨us, tok, by simp, hk, hs⟩)

/-- Statements up to one of the stops. -/
theorem Finds.statements (hin : inner.Finds n) {stops : List Token.Kind} (heof : .eof ∈ stops)
    (hstops : stops ⊆ [.rbrace, .eof]) (bound : Nat) (ts : Tokens) (hn : ts.ahead.length ≤ n)
    (hb : ts.ahead.length ≤ bound) :
    Parser.Finds ts (statements stops inner.statement bound) fun used rest body =>
      Greedy (.statements body) used rest.current.kind ∧ rest.current.kind ∈ stops := by
  induction bound generalizing ts with
  | zero =>
    intro hstop body rest hrun
    cases hrun
    have hnil : ts.ahead = [] := List.length_eq_zero_iff.mp (Nat.le_zero.mp hb)
    have hend : ts.current.kind = .eof := by simpa [Tokens.current, hnil] using hstop
    exact ⟨[], rfl, .noStatements (by simp [hend]), by rwa [hend]⟩
  | succ bound ih =>
    refine .peek ?_
    split
    · rename_i hc
      have hmem : ts.current.kind ∈ stops := List.contains_iff_mem.mp hc
      exact .pure ⟨.noStatements (hstops hmem), hmem⟩
    · refine .bind (hin.statement ts hn) ?_
      rintro used ts₁ s rfl hs
      have hpos : 0 < used.length := by
        rcases hs with ⟨us, tok, rfl, -⟩ | ⟨hs, -⟩
        · simp
        · obtain ⟨tok, vs, rfl, -⟩ := hs.derives.opens (by simp)
          simp
      simp only [Tokens.ahead_length_before] at hn hb
      refine .bind (ih ts₁ (by omega) (by omega)) ?_
      rintro vs ts₂ body rfl ⟨hbody, hmem⟩
      refine .pure ⟨?_, hmem⟩
      rw [List.append_nil]
      rcases hs with ⟨us, tok, rfl, hk, hs⟩ | ⟨hs, hk⟩
      · simpa using Greedy.closedStatement hs hk hbody
      · rw [Tokens.current_before] at hs hk
        exact .moreStatements hs hk hbody

theorem Finds.blockBody (hin : inner.Finds n) (ts : Tokens) (hn : ts.ahead.length ≤ n + 1) :
    Parser.Finds ts inner.blockBody fun used rest b =>
      Greedy (.block b.1 b.2) used rest.current.kind := by
  refine .bind (.expect (by simp)) ?_
  rintro _ ts₁ brace rfl ⟨rfl, hk⟩
  simp only [Tokens.ahead_length_before, List.length_singleton] at hn
  have hb : ts₁.ahead.length ≤ inner.bound := by
    rw [hin.bound]
    omega
  refine .bind (hin.statements (by simp) (fun _ h => h) inner.bound ts₁ (by omega) hb) ?_
  rintro bs ts₂ body rfl ⟨hbody, -⟩
  refine .bind (.expect (by simp)) ?_
  rintro _ ts₃ close rfl ⟨rfl, hc⟩
  rw [Tokens.current_before_cons, hc] at hbody
  exact .pure (by simpa using Greedy.block hk hbody hc)

theorem Finds.blockOrExpr (hin : inner.Finds n) (ts : Tokens) (hn : ts.ahead.length ≤ n) :
    Parser.Finds ts inner.blockOrExpr fun used rest e =>
      Greedy (.branch e) used rest.current.kind := by
  refine .peek ?_
  split
  · refine .bind (hin.block ts hn) ?_
    rintro bs ts₁ ⟨brace, body⟩ rfl hb
    exact .pure (by simpa using Greedy.blockBranch hb)
  · rename_i hk
    refine (hin.expr ts hn).mono ?_
    rintro used rest e rfl ⟨he, hpipe⟩
    rw [Tokens.current_before] at hk
    exact .exprBranch he hpipe hk

theorem Finds.consequence (hin : inner.Finds n) (ts : Tokens) (hn : ts.ahead.length ≤ n) :
    Parser.Finds ts inner.consequence fun used rest e =>
      Greedy (.consequence e) used rest.current.kind := by
  refine .peek ?_
  by_cases hbrace : ts.current.kind = .lbrace
  · simp only [hbrace, ne_eq, not_true_eq_false, if_false, Phrases.blockOrExpr]
    refine .peek ?_
    rw [if_pos hbrace]
    refine .bind (hin.block ts hn) ?_
    rintro bs ts₁ ⟨brace, body⟩ rfl hb
    exact .pure (by simpa using Greedy.blockConsequence hb)
  · simp only [hbrace, ne_eq, not_false_eq_true, if_true]
    refine .bind (.expect (by simp)) ?_
    rintro _ ts₁ word rfl ⟨rfl, hw⟩
    simp only [Tokens.ahead_length_before] at hn
    refine (hin.blockOrExpr ts₁ (by omega)).mono ?_
    rintro used rest e - he
    exact .thenConsequence hw he

/-- Without the word `else` nothing is read, and there is no alternative. -/
theorem Finds.alternative (hin : inner.Finds n) (ts : Tokens) (hn : ts.ahead.length ≤ n) :
    Parser.Finds ts inner.alternative fun used rest e =>
      (used = [] ∧ e = .missing ∧ rest.current.kind ≠ .elseWord) ∨
      ∃ word us, used = word :: us ∧ word.kind = .elseWord ∧
        Greedy (.alternative e) us rest.current.kind := by
  refine .bind (.accept? (by simp)) ?_
  rintro _ ts₁ (_ | word) rfl hword
  · obtain ⟨rfl, hnone⟩ := hword
    exact .pure (.inl ⟨rfl, rfl, by simpa using hnone⟩)
  · obtain ⟨rfl, hk⟩ := hword
    have hk := List.mem_singleton.mp hk
    simp only [Tokens.ahead_length_before] at hn
    refine .peek ?_
    split
    · rename_i hif
      refine (hin.cond ts₁ (by omega) hif).mono ?_
      rintro us rest e - he
      exact .inr ⟨word, us, rfl, hk, .elseIf he⟩
    · rename_i hif
      refine (hin.blockOrExpr ts₁ (by omega)).mono ?_
      rintro us rest e rfl he
      rw [Tokens.current_before] at hif
      exact .inr ⟨word, us, rfl, hk, .elseBranch he hif⟩

theorem Finds.choice (hin : inner.Finds n) (ts : Tokens) (hn : ts.ahead.length ≤ n + 1)
    (hk : ts.current.kind = .ifWord) :
    Parser.Finds ts inner.choice fun used rest e => Greedy (.choice e) used rest.current.kind := by
  refine .bind (.advance (by simp [hk])) ?_
  rintro _ ts₁ tok rfl rfl
  simp only [Tokens.ahead_length_before, List.length_singleton] at hn
  refine .bind (hin.expr ts₁ (by omega)) ?_
  rintro cs ts₂ test rfl ⟨hc, -⟩
  simp only [Tokens.ahead_length_before] at hn
  refine .bind (hin.consequence ts₂ (by omega)) ?_
  rintro ys ts₃ yes rfl hy
  rw [Tokens.current_before] at hc
  simp only [Tokens.ahead_length_before] at hn
  refine .bind (hin.alternative ts₃ (by omega)) ?_
  rintro used ts₄ no rfl (⟨rfl, rfl, helse⟩ | ⟨word, ns, rfl, hw, hn⟩)
  · exact .pure (by simpa using Greedy.ifThen hk hc hy helse)
  · rw [Tokens.current_before_cons, hw] at hc hy
    exact .pure (by simpa using Greedy.ifThenElse hk hc hy hw hn)

theorem Finds.lambda (hin : inner.Finds n) (hn : ts.ahead.length ≤ n + 1)
    (hk : ts.current.kind = .bar ∨ ts.current.kind = .or) :
    Parser.Finds ts inner.lambda fun used rest e =>
      Greedy (.expr .primary e) used rest.current.kind := by
  refine .bind (.advance (by rcases hk with hk | hk <;> simp [hk])) ?_
  rintro _ ts₁ tok rfl rfl
  simp only [Tokens.ahead_length_before, List.length_singleton] at hn
  rw [Tokens.current_before_cons] at hk
  rcases hk with hk | hk
  · rw [if_pos hk]
    refine .bind (.names (by simp)) ?_
    rintro ps ts₂ params rfl hps
    simp only [Tokens.ahead_length_before] at hn
    refine .bind (hin.blockOrExpr ts₂ (by omega)) ?_
    rintro bs ts₃ body rfl hb
    exact .pure (by simpa using Greedy.lambda hk hps hb)
  · rw [if_neg (by simp [hk]), pure_bind]
    refine .bind (hin.blockOrExpr ts₁ (by omega)) ?_
    rintro bs ts₂ body rfl hb
    exact .pure (by simpa using Greedy.thunk hk hb)

theorem Finds.primary (hin : inner.Finds n) (ts : Tokens) (hn : ts.ahead.length ≤ n + 1) :
    Parser.Finds ts inner.primary fun used rest e =>
      Greedy (.expr .primary e) used rest.current.kind := by
  refine .peek ?_
  split
  · rename_i hk
    exact (hin.choice ts hn hk).mono fun _ _ _ _ => .choicePrimary
  · refine .bind (hin.blockBody ts hn) ?_
    rintro bs ts₁ ⟨brace, body⟩ rfl hb
    exact .pure (by simpa using Greedy.blockPrimary hb)
  · rename_i hk
    exact hin.lambda hn (.inl hk)
  · rename_i hk
    exact hin.lambda hn (.inr hk)
  · rename_i hk
    refine .bind (.advance (by simp [hk])) ?_
    rintro _ ts₁ tok rfl rfl
    simp only [Tokens.ahead_length_before, List.length_singleton] at hn
    refine .bind (hin.exprs (by simp) (by omega)) ?_
    rintro xs ts₂ items rfl hx
    exact .pure (by simpa using Greedy.array hk hx)
  · rename_i hk
    refine .bind (.advance (by simp [hk])) ?_
    rintro _ ts₁ tok rfl rfl
    simp only [Tokens.ahead_length_before, List.length_singleton] at hn
    refine .bind (hin.expr ts₁ (by omega)) ?_
    rintro us ts₂ e rfl ⟨he, -⟩
    refine .bind (.expect (by simp)) ?_
    rintro _ ts₃ close rfl ⟨rfl, hc⟩
    rw [Tokens.current_before_cons, hc] at he
    exact .pure (by simpa using Greedy.parens hk he hc)
  · rename_i hk
    refine .bind (.advance (by simp [hk])) ?_
    rintro _ ts₁ tok rfl rfl
    split
    · rename_i value hv
      exact .pure (.number hk hv)
    · exact .throw _
  · rename_i hk
    refine .bind (.advance (by simp [hk])) ?_
    rintro _ ts₁ tok rfl rfl
    exact .pure (.string hk)
  · rename_i hk
    refine .bind (.advance (by simp [hk])) ?_
    rintro _ ts₁ tok rfl rfl
    exact .pure (.bool (.inl hk))
  · rename_i hk
    refine .bind (.advance (by simp [hk])) ?_
    rintro _ ts₁ tok rfl rfl
    exact .pure (.bool (.inr hk))
  · rename_i hk
    refine .bind (.advance (by simp [hk])) ?_
    rintro _ ts₁ tok rfl rfl
    exact .pure (.null hk)
  · refine .bind .name ?_
    rintro _ ts₁ _ rfl ⟨id, hi, rfl, rfl⟩
    exact .pure (.name hi)
  · exact .throw _

theorem Finds.arguments (hin : inner.Finds n) {es : List Token} {callee : Expr} {tok : Token}
    (hn : ts.ahead.length ≤ n) (hk : tok.kind ∈ Level.call.suffixes)
    (hcallee : Greedy (.expr .call callee) es tok.kind) :
    Parser.Finds ts (inner.arguments callee tok) fun used rest wider =>
      Greedy (.expr .call wider) (es ++ tok :: used) rest.current.kind := by
  have hk := List.mem_singleton.mp hk
  refine .bind (hin.exprs (by simp) hn) ?_
  rintro xs ts₁ args rfl hargs
  exact .pure (by simpa using Greedy.call (hk ▸ hcallee) hk hargs)

theorem Finds.call (hin : inner.Finds n) (ts : Tokens) (hn : ts.ahead.length ≤ n + 1) :
    Parser.Finds ts inner.call fun used rest e =>
      Greedy (.expr .call e) used rest.current.kind ∧ rest.current.kind ∉ Level.call.suffixes := by
  refine .bind (hin.primary ts hn) ?_
  rintro us ts₁ e rfl he
  obtain ⟨tok, vs, rfl, -⟩ := he.derives.opens (by simp)
  simp only [Tokens.ahead_length_before, List.length_cons] at hn
  exact Parser.Finds.extend .call (n := n) (fun _ _ _ _ => hin.arguments) inner.bound (by omega)
    (by rw [hin.bound]; omega) (.tighter he List.not_mem_nil)

theorem Finds.unaryChain (hin : inner.Finds n) (ts : Tokens) (hn : ts.ahead.length ≤ n + 1) :
    Parser.Finds ts inner.unaryChain fun used rest e =>
      Greedy (.expr .unary e) used rest.current.kind := by
  refine .bind (.accept? (by simp)) ?_
  rintro _ ts₁ (_ | op) rfl hop
  · obtain ⟨rfl, -⟩ := hop
    exact (hin.call ts₁ hn).mono fun _ _ _ _ he => .tighter he.1 he.2
  · obtain ⟨rfl, hk⟩ := hop
    simp only [Tokens.ahead_length_before, List.length_singleton] at hn
    refine .bind (hin.unary ts₁ (by omega)) ?_
    rintro us ts₂ operand rfl he
    exact .pure (by simpa using Greedy.unary (by simpa using hk) he)

/-- The operand of a binary operator is of the next tighter level. -/
def FindsOperand (level : Level) (operand : Parser Expr) (n : Nat) : Prop :=
  ∀ ts : Tokens, ts.ahead.length ≤ n → Parser.Finds ts operand fun used rest e =>
    Greedy (.expr level.tighter e) used rest.current.kind ∧
      rest.current.kind ∉ level.tighter.suffixes

theorem FindsOperand.rightOperand {level : Level} {operand : Parser Expr}
    (ho : FindsOperand level operand (n + 1)) (hl : level.suffixes = level.operators)
    {es : List Token} {left : Expr} {op : Token} (hn : ts.ahead.length ≤ n)
    (hop : op.kind ∈ level.suffixes) (hleft : Greedy (.expr level left) es op.kind) :
    Parser.Finds ts (rightOperand operand left op) fun used rest wider =>
      Greedy (.expr level wider) (es ++ op :: used) rest.current.kind := by
  refine .bind (ho ts (by omega)) ?_
  rintro rs ts₁ right rfl ⟨hright, hend⟩
  exact .pure (by simpa using Greedy.binary hleft (hl ▸ hop) hright hend)

/-- One tier of binary operators. -/
theorem FindsOperand.binaryChain {level : Level} {operand : Parser Expr}
    (ho : FindsOperand level operand (n + 1)) (hl : level.suffixes = level.operators)
    (ts : Tokens) (hn : ts.ahead.length ≤ n + 1) :
    Parser.Finds ts (binaryChain n level.operators operand) fun used rest e =>
      Greedy (.expr level e) used rest.current.kind ∧ rest.current.kind ∉ level.suffixes := by
  refine .bind (ho ts hn) ?_
  rintro us ts₁ e rfl ⟨he, hk⟩
  obtain ⟨tok, vs, rfl, -⟩ := he.derives.opens (by simp)
  simp only [Tokens.ahead_length_before, List.length_cons] at hn
  rw [← hl]
  exact .extend level (n := n) (fun _ _ _ _ => ho.rightOperand hl) n (by omega) (by omega)
    (.tighter he hk)

theorem Finds.operation (hin : inner.Finds n) (ts : Tokens) (hn : ts.ahead.length ≤ n + 1) :
    Parser.Finds ts inner.operation fun used rest e =>
      Greedy (.expr .or e) used rest.current.kind ∧ rest.current.kind ∉ Level.or.suffixes := by
  have unary : FindsOperand .product inner.unaryChain (n + 1) :=
    fun ts hn => (hin.unaryChain ts hn).mono fun _ _ _ _ he => ⟨he, List.not_mem_nil⟩
  have product : FindsOperand .sum _ (n + 1) := unary.binaryChain rfl
  have sum : FindsOperand .comparison _ (n + 1) := product.binaryChain rfl
  have comparison : FindsOperand .equality _ (n + 1) := sum.binaryChain rfl
  have equality : FindsOperand .and _ (n + 1) := comparison.binaryChain rfl
  have and : FindsOperand .or _ (n + 1) := equality.binaryChain rfl
  rw [Phrases.operation, hin.bound]
  exact and.binaryChain rfl ts hn

theorem Finds.pipeTarget (hin : inner.Finds n) {es : List Token} {left : Expr} {tok : Token}
    (hn : ts.ahead.length ≤ n + 1) (hk : tok.kind = .pipe)
    (hleft : Greedy (.expr .pipeline left) es .pipe) :
    Parser.Finds ts (inner.pipeTarget left tok) fun used rest wider =>
      Greedy (.expr .pipeline wider) (es ++ tok :: used) rest.current.kind := by
  refine .peek (.bind (hin.operation ts hn) ?_)
  rintro rs rest target rfl ⟨htarget, hend⟩
  split
  · rename_i hp
    exact .pure (by simpa using Greedy.pipe hleft hk htarget hend (isPipeTarget_iff.mp hp))
  · exact .throw _

theorem Finds.pipeline (hin : inner.Finds n) (ts : Tokens) (hn : ts.ahead.length ≤ n + 1) :
    Parser.Finds ts inner.pipeline fun used rest e =>
      Greedy (.expr .pipeline e) used rest.current.kind ∧ rest.current.kind ≠ .pipe := by
  refine .bind (hin.operation ts hn) ?_
  rintro us ts₁ e rfl ⟨he, hk⟩
  obtain ⟨tok, vs, rfl, -⟩ := he.derives.opens (by simp)
  simp only [Tokens.ahead_length_before, List.length_cons] at hn
  have hloop : Parser.Finds ts₁ (extend Level.pipeline.suffixes inner.pipeTarget inner.bound e) _ :=
    .extend .pipeline (n := n) (fun ts₂ es left pipe hn hpipe hleft =>
      have hpipe := List.mem_singleton.mp hpipe
      hin.pipeTarget (by omega) hpipe (hpipe ▸ hleft)) inner.bound (by omega)
      (by rw [hin.bound]; omega) (.tighter he hk)
  refine hloop.mono ?_
  rintro used rest wider - ⟨hwider, hend⟩
  exact ⟨hwider, by simpa [Level.suffixes] using hend⟩

theorem Finds.around (hin : inner.Finds n) : inner.around.Finds (n + 1) where
  bound := congrArg (· + 1) hin.bound
  expr := hin.pipeline
  unary := hin.unaryChain
  cond := hin.choice
  block := hin.blockBody

private theorem finds_atStop : atStop.Finds 0 where
  bound := rfl
  expr _ _ := .peek (.throw _)
  unary _ _ := .peek (.throw _)
  cond _ _ _ := .peek (.throw _)
  block _ _ := .peek (.throw _)

theorem finds_upTo (n : Nat) : (upTo n).Finds n := by
  induction n with
  | zero => exact finds_atStop
  | succ n ih => exact ih.around

end Phrases

/-- A program is read to the end of input, and it is what all tokens before that are read as
greedily. -/
theorem Parser.program_greedy {ts ts' : Tokens} {p : Program} (hstop : ts.stop.kind = .eof)
    (hahead : ∀ tok ∈ ts.ahead, tok.kind ≠ .eof) (h : program ts = .ok p ts') :
    ts'.ahead = [] ∧ Greedy (.statements p.body) ts.ahead .eof := by
  obtain ⟨_, _, hget, h⟩ := run_bind_eq_ok.mp h
  cases hget
  obtain ⟨body, ts₁, hrun, h⟩ := run_bind_eq_ok.mp h
  cases h
  have hfinds : Finds ts (statements [.eof] _ _) _ :=
    (Phrases.finds_upTo ts.ahead.length).statements (by simp) (by simp) ts.ahead.length ts
      (Nat.le_refl _) (Nat.le_refl _)
  obtain ⟨used, rfl, hbody, hmem⟩ := hfinds hstop body ts' hrun
  have heof : ts'.current.kind = .eof := List.mem_singleton.mp hmem
  have hnil : ts'.ahead = [] := by
    -- A token of the rest would be one that is not the end of input.
    cases hrest : ts'.ahead with
    | nil => rfl
    | cons tok rest =>
      have hkind : tok.kind = .eof := by simpa [Tokens.current, hrest] using heof
      exact absurd hkind (hahead tok (by simp [before, hrest]))
  rw [heof] at hbody
  exact ⟨hnil, by simpa [before, hnil] using hbody⟩

namespace Tokens

private theorem stopAfter_kind (toks : List Token) : (stopAfter toks).kind = .eof := by
  unfold stopAfter
  split <;> rfl

theorem ofList_stop (toks : List Token) : (ofList toks).stop.kind = .eof := by
  unfold ofList
  dsimp only
  split
  · rename_i stop rest hdrop
    have hhead := List.head?_dropWhile_not (fun tok : Token => decide (tok.kind ≠ .eof))
      (toks.filter (·.kind ≠ .newline))
    rw [hdrop] at hhead
    simpa using hhead
  · exact stopAfter_kind _

/-- Since line breaks are no ends of input, it does not matter which of the two goes first. -/
theorem takeWhile_filter (toks : List Token) :
    (toks.filter (·.kind ≠ .newline)).takeWhile (·.kind ≠ .eof) =
      (toks.takeWhile (·.kind ≠ .eof)).filter (·.kind ≠ .newline) := by
  induction toks with
  | nil => rfl
  | cons tok toks ih =>
    by_cases heof : tok.kind = .eof
    · simp [heof]
    · by_cases hline : tok.kind = .newline
      · simpa [hline] using ih
      · simpa [heof, hline] using ih

/-- A parser sees the tokens before the first end of input that are no line breaks. -/
theorem ofList_ahead (toks : List Token) :
    (ofList toks).ahead = (toks.takeWhile (·.kind ≠ .eof)).filter (·.kind ≠ .newline) := by
  rw [← takeWhile_filter]
  unfold ofList
  dsimp only
  split
  · rfl
  · rename_i hdrop
    have hall := List.takeWhile_append_dropWhile (p := fun tok : Token => decide (tok.kind ≠ .eof))
      (l := toks.filter (·.kind ≠ .newline))
    rw [hdrop, List.append_nil] at hall
    exact hall.symm

theorem kind_ne_eof {toks : List Token} {tok : Token} (h : tok ∈ (ofList toks).ahead) :
    tok.kind ≠ .eof := by
  rw [ofList_ahead] at h
  have hall := List.all_eq_true.mp List.all_takeWhile tok ((List.mem_filter.mp h).1)
  simpa using hall

theorem parse_eq_ok {ts : Tokens} {p : Program} :
    ts.parse.1 = .ok p ↔ ∃ ts', Parser.program ts = .ok p ts' := by
  unfold parse
  cases Parser.program ts with
  | ok q ts' => simp
  | error e ts' => simp

theorem parse_derives {toks : List Token} {p : Program} (h : (ofList toks).parse.1 = .ok p) :
    Derives (.statements p.body) (ofList toks).ahead := by
  obtain ⟨ts', hrun⟩ := parse_eq_ok.mp h
  exact (Parser.program_greedy (ofList_stop toks) (fun _ => kind_ne_eof) hrun).2.derives

end Tokens

/-- Whatever list of tokens is parsed, the grammar derives the program from the tokens that were
there: those before the first end of input, without line breaks. -/
theorem parse_sound {toks : List Token} {p : Program} (h : (Tokens.ofList toks).parse.1 = .ok p) :
    Derives (.statements p.body)
      ((toks.takeWhile (·.kind ≠ .eof)).filter (·.kind ≠ .newline)) := by
  rw [← Tokens.ofList_ahead]
  exact Tokens.parse_derives h

/-- A token of a list that was made by hand. -/
def Token.handmade (kind : Token.Kind) (literal : String) : Token :=
  ⟨kind, literal, [], .start⟩

/-- `a - b - c |> f;` over two lines, with something behind the end of input. -/
def Grammar.pipedDifference : List Token :=
  [.handmade .ident "a", .handmade .minus "-", .handmade .ident "b", .handmade .newline "\n",
    .handmade .minus "-", .handmade .ident "c", .handmade .pipe "|>", .handmade .ident "f",
    .handmade .semicolon ";", .handmade .eof "", .handmade .ident "g"]

theorem parse_sound_pipedDifference :
    ∃ p, (Tokens.ofList pipedDifference).parse.1 = .ok p ∧
      Derives (.statements p.body)
        ((pipedDifference.takeWhile (·.kind ≠ .eof)).filter (·.kind ≠ .newline)) :=
  ⟨_, rfl, parse_sound rfl⟩

end PipeCompiler
