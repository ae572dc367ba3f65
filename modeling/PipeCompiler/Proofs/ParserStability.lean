import PipeCompiler.Proofs.Continuations

/-! No phrase looks beyond its own end.

Each production agrees with itself on other tokens, provided that the parsers for the phrases nested
in it do. Phrases that are nested `n` deep are compared with others that may go deeper, since a
longer text has more layers. So a program is read in the same way wherever its tokens stand, and an
error on a token that is there is the same whatever follows. -/
namespace PipeCompiler

open PipeCompiler.Parser

namespace Phrases

section Simple

variable (inner : Phrases) (first : Token) {ts : Tokens}

private theorem simple_of_starts (h : ts.startsAssignment = true) :
    inner.simple first ts = (do
      let target ← name
      let tok ← expect .assign
      return .assign tok target (← inner.expr) : Parser Stmt) ts := by
  change (if ts.startsAssignment then _ else _ : Parser Stmt) ts = _
  rw [if_pos h]

private theorem simple_of_not_starts (h : ¬ts.startsAssignment = true) :
    inner.simple first ts = (do return .expr first (← inner.expr) : Parser Stmt) ts := by
  change (if ts.startsAssignment then _ else _ : Parser Stmt) ts = _
  rw [if_neg h]

end Simple

/-- On at most `n` tokens the nested phrases agree. -/
structure Agree (c : Continuation) (n : Nat) (inner inner' : Phrases) : Prop where
  bound : n ≤ inner.bound
  bound' : n ≤ inner'.bound
  expr : ∀ piped (ts : Tokens), ts.ahead.length ≤ n →
    Agrees c piped 1 (Expr.relabel c.labels) ts inner.expr inner'.expr
  unary : ∀ piped (ts : Tokens), ts.ahead.length ≤ n →
    Agrees c piped 1 (Expr.relabel c.labels) ts inner.unary inner'.unary
  cond : ∀ piped (ts : Tokens), ts.ahead.length ≤ n → ts.current.kind = .ifWord →
    Agrees c piped 1 (Expr.relabel c.labels) ts inner.cond inner'.cond
  block : ∀ piped (ts : Tokens), ts.ahead.length ≤ n →
    Agrees c piped 1 (Prod.map c.labels (Stmt.retokenAll c.labels.everywhere)) ts inner.block
      inner'.block
  /-- A name alone is an expression. -/
  name : 0 < n → ∀ (tok stop : Token), tok.kind = .ident → stop.kind = .eof →
    inner.expr ⟨[tok], stop⟩ = .ok (.name (.mk tok tok.literal)) ⟨[], stop⟩

namespace Agree

variable {c : Continuation} {n : Nat} {inner inner' : Phrases} {piped : Prop} {ts : Tokens}

theorem exprs (hin : Agree c n inner inner') {closing : Token.Kind} (hclosing : closing ≠ .eof)
    (hlexical : closing.isLexical = true) (hn : ts.ahead.length ≤ n) :
    Agrees c piped 1 (Expr.retokenAll c.labels.everywhere) ts
      (items inner.bound inner.expr closing) (items inner'.bound inner'.expr closing) := by
  have hb := hin.bound
  have hb' := hin.bound'
  rw [funext (Expr.retokenAll_eq_map c.labels.everywhere)]
  exact .items hclosing hlexical hin.expr hn (by omega) (by omega)

theorem names (hin : Agree c n inner inner') {closing : Token.Kind} (hclosing : closing ≠ .eof)
    (hlexical : closing.isLexical = true) (hn : ts.ahead.length ≤ n) :
    Agrees c piped 1 (List.map (Name.relabel c.labels)) ts (items inner.bound Parser.name closing)
      (items inner'.bound Parser.name closing) :=
  have hb := hin.bound
  have hb' := hin.bound'
  .items hclosing hlexical (fun _ _ _ => .name) hn (by omega) (by omega)

theorem declaration (hin : Agree c n inner inner') (hn : ts.ahead.length ≤ n)
    (hk : ts.current.kind ≠ .eof) :
    Agrees c piped 1 (Stmt.relabel c.labels) ts inner.declaration inner'.declaration := by
  refine .lead (.advance hk) fun tok ts₁ h₁ => ?_
  refine .bind .name fun target ts₂ h₂ => ?_
  refine .bind (.expect (by decide) rfl) fun sign ts₃ h₃ => ?_
  refine .bind (hin.expr _ ts₃ (by omega)) fun value ts₄ h₄ => .pure ?_
  rw [c.labels.kind_map]
  rfl

theorem function (hin : Agree c n inner inner') (hn : ts.ahead.length ≤ n)
    (hk : ts.current.kind ≠ .eof) :
    Agrees c piped 1 (Stmt.relabel c.labels) ts inner.function inner'.function := by
  refine .lead (.advance hk) fun tok ts₁ h₁ => ?_
  refine .bind .name fun target ts₂ h₂ => ?_
  refine .bind (.expect (by decide) rfl) fun paren ts₃ h₃ => ?_
  refine .bind (hin.names (by decide) rfl (by omega)) fun params ts₄ h₄ => ?_
  refine .accept? (by decide) (by decide) ?_ fun sign ts₅ h₅ _ => ?_
  · exact .bind (hin.block _ ts₄ (by omega)) fun body ts₅ h₅ => .pure rfl
  · exact .bind (hin.expr _ ts₅ (by omega)) fun value ts₆ h₆ => .pure rfl

theorem returned (hin : Agree c n inner inner') (hn : ts.ahead.length ≤ n) (tok : Token) :
    Agrees c piped 0 (Stmt.relabel c.labels) ts (inner.returned tok)
      (inner'.returned (c.labels tok)) := by
  refine .peek ?_
  rw [c.labels.kind_map]
  split
  · exact .pure rfl
  · exact .pure rfl
  · exact .pure rfl
  · exact .bind (hin.expr _ ts hn) fun value ts₁ h₁ => .pure rfl

theorem whileLoop (hin : Agree c n inner inner') (hn : ts.ahead.length ≤ n)
    (hk : ts.current.kind ≠ .eof) :
    Agrees c piped 1 (Stmt.relabel c.labels) ts inner.whileLoop inner'.whileLoop := by
  refine .lead (.advance hk) fun tok ts₁ h₁ => ?_
  refine .bind (hin.expr _ ts₁ (by omega)) fun test ts₂ h₂ => ?_
  exact .bind (hin.block _ ts₂ (by omega)) fun body ts₃ h₃ => .pure rfl

theorem forLoop (hin : Agree c n inner inner') (hn : ts.ahead.length ≤ n)
    (hk : ts.current.kind ≠ .eof) :
    Agrees c piped 1 (Stmt.relabel c.labels) ts inner.forLoop inner'.forLoop := by
  refine .lead (.advance hk) fun tok ts₁ h₁ => ?_
  refine .bind .name fun item ts₂ h₂ => ?_
  refine .bind (.expect (by decide) rfl) fun word ts₃ h₃ => ?_
  refine .bind (hin.expr _ ts₃ (by omega)) fun list ts₄ h₄ => ?_
  exact .bind (hin.block _ ts₄ (by omega)) fun body ts₅ h₅ => .pure rfl

/-- A name may have an assignment sign behind it that the first run does not see. Then that run ends
with the name. -/
theorem simple (hin : Agree c n inner inner') (hn : ts.ahead.length ≤ n) (first : Token) :
    Agrees c piped 1 (Stmt.relabel c.labels) ts (inner.simple first)
      (inner'.simple (c.labels first)) := by
  intro hstop
  have hassign : Agrees c piped 1 (Stmt.relabel c.labels) ts
      (do
        let target ← Parser.name
        let tok ← expect .assign
        return .assign tok target (← inner.expr))
      (do
        let target ← Parser.name
        let tok ← expect .assign
        return .assign tok target (← inner'.expr)) := by
    refine .lead .name fun target ts₁ h₁ => ?_
    refine .bind (.expect (by decide) rfl) fun sign ts₂ h₂ => ?_
    exact .bind (hin.expr _ ts₂ (by omega)) fun value ts₃ h₃ => .pure rfl
  have hvalue : Agrees c piped 1 (Stmt.relabel c.labels) ts
      (do return .expr first (← inner.expr)) (do return .expr (c.labels first) (← inner'.expr)) :=
    .lead (hin.expr _ ts hn) fun value ts₁ h₁ => .pure rfl
  by_cases hstarts : ts.startsAssignment = true
  · have hstarts' := Continuation.startsAssignment_tokens (c := c) hstarts
    exact hassign.congr (inner.simple_of_starts first hstarts)
      (inner'.simple_of_starts (c.labels first) hstarts') hstop
  have hplain := inner.simple_of_not_starts first hstarts
  by_cases hstarts' : (c.tokens ts).startsAssignment = true
  · rcases Continuation.startsAssignment_cases hstarts hstarts' with
      ⟨hnil, hname⟩ | ⟨tok, hahead, hk, hsign⟩
    · have hblind : ¬c.Sees ts := by
        rintro (hne | hends)
        · exact hne hnil
        · simp [Continuation.more_kind hends hstop] at hname
      exact (hvalue.blind hblind).congr hplain rfl hstop
    · have hrun := hin.name (by simp [hahead] at hn; omega) tok ts.stop hk hstop
      rw [← hahead] at hrun
      refine Agrees.exhausted (hplain.trans (run_bind_of_ok hrun)) (by simp [hahead]) ?_ hstop
      intro hends
      simp [Continuation.more_kind hends hstop] at hsign
  · exact hvalue.congr hplain (inner'.simple_of_not_starts _ hstarts') hstop

theorem bareStatement (hin : Agree c n inner inner') (hn : ts.ahead.length ≤ n) :
    Agrees c piped 1 (Stmt.relabel c.labels) ts inner.bareStatement inner'.bareStatement := by
  refine .peek ?_
  rw [c.labels.kind_map]
  split
  · rename_i hk
    exact hin.declaration hn (by simp [hk])
  · rename_i hk
    exact hin.declaration hn (by simp [hk])
  · rename_i hk
    exact hin.function hn (by simp [hk])
  · rename_i hk
    refine .lead (.advance (by simp [hk])) fun tok ts₁ h₁ => ?_
    exact hin.returned (by omega) tok
  · rename_i hk
    exact hin.whileLoop hn (by simp [hk])
  · rename_i hk
    exact hin.forLoop hn (by simp [hk])
  · exact hin.simple hn _

theorem statement (hin : Agree c n inner inner') (piped : Prop) (ts : Tokens)
    (hn : ts.ahead.length ≤ n) :
    Agrees c piped 1 (Stmt.relabel c.labels) ts inner.statement inner'.statement := by
  refine .lead (hin.bareStatement hn) fun s ts₁ h₁ => ?_
  exact .accept? (by decide) (by decide) (.pure rfl) fun _ _ _ _ => .pure rfl

theorem blockBody (hin : Agree c n inner inner') (hn : ts.ahead.length ≤ n + 1) :
    Agrees c piped 1 (Prod.map c.labels (Stmt.retokenAll c.labels.everywhere)) ts inner.blockBody
      inner'.blockBody := by
  have hb := hin.bound
  have hb' := hin.bound'
  refine .lead (.expect (by decide) rfl) fun brace ts₁ h₁ => ?_
  refine .bind (.statements (by decide) hin.statement (by omega) (by omega) (by omega))
    fun body ts₂ h₂ => ?_
  exact .bind (.expect (by decide) rfl) fun close ts₃ h₃ => .pure rfl

theorem blockOrExpr (hin : Agree c n inner inner') (hn : ts.ahead.length ≤ n) :
    Agrees c piped 1 (Expr.relabel c.labels) ts inner.blockOrExpr inner'.blockOrExpr := by
  refine .peek ?_
  rw [c.labels.kind_map]
  split
  · exact .lead (hin.block _ ts hn) fun _ _ _ => .pure rfl
  · exact hin.expr _ ts hn

theorem consequence (hin : Agree c n inner inner') (hn : ts.ahead.length ≤ n) :
    Agrees c piped 1 (Expr.relabel c.labels) ts inner.consequence inner'.consequence := by
  refine .peek ?_
  rw [c.labels.kind_map]
  split
  · refine .lead (.expect (by decide) rfl) fun _ ts₁ h₁ => ?_
    exact (hin.blockOrExpr (by omega)).weaken (by decide)
  · exact hin.blockOrExpr hn

theorem otherwise (hin : Agree c n inner inner') (hn : ts.ahead.length ≤ n) :
    Agrees c piped 1 (Expr.relabel c.labels) ts inner.otherwise inner'.otherwise := by
  refine .peek ?_
  rw [c.labels.kind_map]
  split
  · rename_i hif
    exact hin.cond _ ts hn hif
  · exact hin.blockOrExpr hn

theorem alternative (hin : Agree c n inner inner') (hn : ts.ahead.length ≤ n) :
    Agrees c piped 0 (Expr.relabel c.labels) ts inner.alternative inner'.alternative := by
  refine .accept? (by decide) (by decide) (.pure rfl) fun word ts₁ h₁ _ => ?_
  exact (hin.otherwise (by omega)).weaken (Nat.zero_le 1)

theorem choice (hin : Agree c n inner inner') (hn : ts.ahead.length ≤ n + 1)
    (hk : ts.current.kind = .ifWord) :
    Agrees c piped 1 (Expr.relabel c.labels) ts inner.choice inner'.choice := by
  refine .lead (.advance (by simp [hk])) fun tok ts₁ h₁ => ?_
  refine .bind (hin.expr _ ts₁ (by omega)) fun test ts₂ h₂ => ?_
  refine .bind (hin.consequence (by omega)) fun yes ts₃ h₃ => ?_
  exact .bind (hin.alternative (by omega)) fun no ts₄ h₄ => .pure rfl

theorem lambda (hin : Agree c n inner inner') (hn : ts.ahead.length ≤ n + 1)
    (hk : ts.current.kind ≠ .eof) :
    Agrees c piped 1 (Expr.relabel c.labels) ts inner.lambda inner'.lambda := by
  refine .lead (.advance hk) fun tok ts₁ h₁ => ?_
  rw [c.labels.kind_map]
  split
  · refine .bind (hin.names (by decide) rfl (by omega)) fun params ts₂ h₂ => ?_
    exact .bind (hin.blockOrExpr (by omega)) fun body ts₃ h₃ => .pure rfl
  · simp only [pure_bind]
    exact .bind (hin.blockOrExpr (by omega)) fun body ts₂ h₂ => .pure rfl

theorem primary (hin : Agree c n inner inner') (hn : ts.ahead.length ≤ n + 1) :
    Agrees c piped 1 (Expr.relabel c.labels) ts inner.primary inner'.primary := by
  refine .peek ?_
  rw [c.labels.kind_map, c.labels.literal_map]
  split
  · rename_i hk
    exact hin.choice hn hk
  · exact .lead (hin.blockBody hn) fun body ts₁ h₁ => .pure rfl
  · rename_i hk
    exact hin.lambda hn (by simp [hk])
  · rename_i hk
    exact hin.lambda hn (by simp [hk])
  · rename_i hk
    refine .lead (.advance (by simp [hk])) fun _ ts₁ h₁ => ?_
    exact .bind (hin.exprs (by decide) rfl (by omega)) fun items ts₂ h₂ => .pure rfl
  · rename_i hk
    refine .lead (.advance (by simp [hk])) fun _ ts₁ h₁ => ?_
    refine .bind (hin.expr _ ts₁ (by omega)) fun e ts₂ h₂ => ?_
    exact .bind (.expect (by decide) rfl) fun close ts₃ h₃ => .pure rfl
  · rename_i hk
    cases hread : Double.read? ts.current.literal with
    | none => exact .refuse hk hread
    | some value => exact .lead (.advance (by simp [hk])) fun _ ts₁ h₁ => .pure rfl
  · rename_i hk
    exact .lead (.advance (by simp [hk])) fun _ ts₁ h₁ => .pure rfl
  · rename_i hk
    exact .lead (.advance (by simp [hk])) fun _ ts₁ h₁ => .pure rfl
  · rename_i hk
    exact .lead (.advance (by simp [hk])) fun _ ts₁ h₁ => .pure rfl
  · rename_i hk
    exact .lead (.advance (by simp [hk])) fun _ ts₁ h₁ => .pure rfl
  · exact .lead .name fun target ts₁ h₁ => .pure rfl
  · exact .unexpected

theorem call (hin : Agree c n inner inner') (hn : ts.ahead.length ≤ n + 1) :
    Agrees c piped 1 (Expr.relabel c.labels) ts inner.call inner'.call := by
  have hb := hin.bound
  have hb' := hin.bound'
  refine .lead (hin.primary hn) fun e ts₁ h₁ => ?_
  refine .extend (n := n) (by decide) ?_ (by omega) (by omega) (by omega) e
  intro piped callee paren ts₂ h₂ _
  exact .bind (hin.exprs (by decide) rfl h₂) fun args ts₃ h₃ => .pure rfl

theorem unaryChain (hin : Agree c n inner inner') (hn : ts.ahead.length ≤ n + 1) :
    Agrees c piped 1 (Expr.relabel c.labels) ts inner.unaryChain inner'.unaryChain := by
  refine .accept? (by decide) (Nat.le_refl 1) (hin.call hn) fun op ts₁ h₁ _ => ?_
  refine .bind (hin.unary _ ts₁ (by omega)) fun operand ts₂ h₂ => .pure ?_
  rw [c.labels.literal_map]
  rfl

theorem operation (hin : Agree c n inner inner') (hn : ts.ahead.length ≤ n + 1) :
    Agrees c piped 1 (Expr.relabel c.labels) ts inner.operation inner'.operation := by
  have hb := hin.bound
  have hb' := hin.bound'
  have htiers : ∀ ops ∈ tiers, .eof ∉ ops := by decide
  unfold Phrases.operation
  generalize Phrases.tiers = tiers at htiers ⊢
  induction tiers generalizing piped ts with
  | nil => exact hin.unaryChain hn
  | cons ops tiers ih =>
    rw [List.forall_mem_cons] at htiers
    refine .lead (ih hn htiers.2) fun left ts₁ h₁ => ?_
    refine .extend (n := n) htiers.1 ?_ (by omega) (by omega) (by omega) left
    intro piped left op ts₂ h₂ _
    refine .bind (ih (by omega) htiers.2) fun right ts₃ h₃ => .pure ?_
    rw [c.labels.literal_map]
    rfl

theorem pipeline (hin : Agree c n inner inner') (hn : ts.ahead.length ≤ n + 1) :
    Agrees c piped 1 (Expr.relabel c.labels) ts inner.pipeline inner'.pipeline := by
  have hb := hin.bound
  have hb' := hin.bound'
  refine .lead (hin.operation hn) fun e ts₁ h₁ => ?_
  refine .extend (n := n) (by decide) ?_ (by omega) (by omega) (by omega) e
  intro piped left tok ts₂ h₂ htok
  refine .peek (.bind (hin.operation (by omega)) fun target ts₃ h₃ => ?_)
  rw [isPipeTarget_retoken]
  split
  · exact .pure rfl
  · -- The token that is refused is behind, but the pipe that asked for it is too.
    refine .throw rfl trivial (fun _ => .inr (List.mem_singleton.mp htok)) fun _ he => ?_
    exact absurd rfl he.2

/-- A name alone is read as a whole, whatever phrases may be nested. -/
theorem pipeline_name (inner : Phrases) {tok stop : Token} (hk : tok.kind = .ident)
    (hstop : stop.kind = .eof) :
    inner.pipeline ⟨[tok], stop⟩ = .ok (.name (.mk tok tok.literal)) ⟨[], stop⟩ := by
  obtain ⟨kind, literal, raw, pos⟩ := tok
  obtain ⟨kind', literal', raw', pos'⟩ := stop
  cases hk
  cases hstop
  obtain ⟨bound, expr, unary, cond, block⟩ := inner
  cases bound with
  | zero => rfl
  | succ bound => rfl

theorem around (hin : Agree c n inner inner') : Agree c (n + 1) inner.around inner'.around where
  bound := Nat.succ_le_succ hin.bound
  bound' := Nat.succ_le_succ hin.bound'
  expr _ _ := hin.pipeline
  unary _ _ := hin.unaryChain
  cond _ _ := hin.choice
  block _ _ := hin.blockBody
  name _ _ _ hk hstop := pipeline_name inner hk hstop

end Agree

/-- Layers of phrases around the given ones. -/
def layered (innermost : Phrases) : Nat → Phrases
  | 0 => innermost
  | n + 1 => (innermost.layered n).around

theorem layered_add (innermost : Phrases) (n k : Nat) :
    (innermost.layered k).layered n = innermost.layered (k + n) := by
  induction n with
  | zero => rfl
  | succ n ih => rw [layered, ih]; rfl

/-- At the end of input every phrase fails at once, whatever is nested in it. -/
theorem around_of_eof (inner : Phrases) {ts : Tokens} (h : ts.current.kind = .eof) :
    inner.pipeline ts = Parser.unexpected ts ∧ inner.unaryChain ts = Parser.unexpected ts ∧
      inner.blockBody ts = atStop.block ts := by
  obtain ⟨ahead, stop⟩ := ts
  cases ahead with
  | nil =>
    obtain ⟨kind, literal, raw, pos⟩ := stop
    cases h
    exact ⟨rfl, rfl, rfl⟩
  | cons tok ahead =>
    obtain ⟨kind, literal, raw, pos⟩ := tok
    cases h
    exact ⟨rfl, rfl, rfl⟩

theorem agree_atStop (c : Continuation) (innermost : Phrases) :
    Agree c 0 atStop innermost.around := by
  have hfail {α : Type} {g : α → α} {piped : Prop} {m m' : Parser α} {ts : Tokens}
      (hm : Agrees c piped 1 g ts m m)
      (hm' : ∀ ts : Tokens, ts.current.kind = .eof → m' ts = m ts) (hn : ts.ahead.length ≤ 0) :
      Agrees c piped 1 g ts m m' := by
    intro hstop
    have hnil : ts.ahead = [] := List.length_eq_zero_iff.mp (Nat.le_zero.mp hn)
    by_cases hsees : c.Sees ts
    · refine hm.congr rfl (hm' _ ?_) hstop
      rw [Continuation.current_tokens hsees, c.labels.kind_map, Tokens.current_of_nil hnil, hstop]
    · exact hm.blind hsees hstop
  refine ⟨Nat.zero_le _, Nat.zero_le _, ?_, ?_, ?_, ?_, nofun⟩
  · exact fun piped ts => hfail .unexpected fun _ h => (around_of_eof innermost h).1
  · exact fun piped ts => hfail .unexpected fun _ h => (around_of_eof innermost h).2.1
  · intro piped ts hn hk hstop
    rw [Tokens.current_of_nil (List.length_eq_zero_iff.mp (Nat.le_zero.mp hn)), hstop] at hk
    cases hk
  · exact fun piped ts => hfail (.peek (.throwCurrent rfl (by simp))) fun _ h =>
      (around_of_eof innermost h).2.2

/-- Layers beyond the number of tokens change nothing, whatever they are. -/
theorem agree_layered (c : Continuation) (innermost : Phrases) (n : Nat) :
    Agree c n (upTo n) (innermost.layered (n + 1)) := by
  induction n with
  | zero => exact agree_atStop c innermost
  | succ n ih => exact ih.around

theorem agree_upTo (c : Continuation) (n k : Nat) : Agree c n (upTo n) (upTo (k + n)) := by
  induction n with
  | zero =>
    cases k with
    | zero =>
      exact ⟨Nat.le_refl 0, Nat.le_refl 0, fun _ _ _ => .unexpected, fun _ _ _ => .unexpected,
        fun _ _ _ _ => .unexpected, fun _ _ _ => .peek (.throwCurrent rfl (by simp)), nofun⟩
    | succ k => exact agree_atStop c (upTo k)
  | succ n ih => exact ih.around

end Phrases

namespace Parser

variable {ts ts' : Tokens} {e : GrammarError}

/-- All statements up to the end of input, with the given phrases nested in them. -/
def programOf (inner : Phrases) (bound : Nat) : Parser Program := do
  return ⟨← statements [.eof] inner.statement bound⟩

theorem programOf_agrees {c : Continuation} {inner : Phrases} {bound : Nat}
    (hin : Phrases.Agree c ts.ahead.length (.upTo ts.ahead.length) inner)
    (hb : ts.ahead.length ≤ bound) :
    Agrees c False 0 (Program.relabel c.labels) ts program (programOf inner bound) := by
  have hrun : Agrees c False 0 (Program.relabel c.labels) ts
      (programOf (Phrases.upTo ts.ahead.length) ts.ahead.length) (programOf inner bound) :=
    .bind (.statements (by decide) hin.statement (Nat.le_refl _) (Nat.le_refl _) hb)
      fun _ _ _ => .pure rfl
  exact hrun.congr rfl rfl

theorem program_agrees (c : Continuation) (ts : Tokens) :
    Agrees c False 0 (Program.relabel c.labels) ts program program := by
  have hlength : (c.tokens ts).ahead.length = c.more.ahead.length + ts.ahead.length := by
    simp [Continuation.tokens, Nat.add_comm]
  have hin := Phrases.agree_upTo c ts.ahead.length c.more.ahead.length
  rw [← hlength] at hin
  exact (programOf_agrees hin (by omega)).congr rfl rfl

/-- A run with everything relabelled. -/
def relabelled (f : Token.Relabelling) :
    EStateM.Result GrammarError Tokens Program → EStateM.Result GrammarError Tokens Program
  | .ok p rest => .ok (p.relabel f) (rest.relabel f)
  | .error e rest => .error (e.relabel f) (rest.relabel f)

/-- The tokens may stand anywhere, and be spelled in any way. -/
theorem program_commutes (f : Token.Relabelling) (hstop : ts.stop.kind = .eof) :
    program (ts.relabel f) = relabelled f (program ts) := by
  let c : Continuation := ⟨f, ⟨[], f ts.stop⟩⟩
  have htokens {rest : Tokens} (used : List Token) (hts : ts = .before used rest) :
      c.tokens rest = rest.relabel f := by
    simp [c, Continuation.tokens, Tokens.relabel, hts, Tokens.before]
  have hagrees := program_agrees c ts
  have hrun := hagrees.run_eq hstop rfl
  rw [htokens [] rfl] at hrun
  rw [hrun]
  cases hp : program ts with
  | ok p rest =>
    obtain ⟨used, hts, -⟩ := (hagrees hstop).1 p rest hp
    rw [Continuation.outcome, htokens used hts, relabelled]
  | error e rest =>
    obtain ⟨used, hts, -⟩ := (hagrees hstop).2 e rest hp
    rw [Continuation.outcome, htokens used hts, relabelled]

/-- An error on a token that is there does not depend on what follows. -/
theorem program_error (more : Tokens) (hstop : ts.stop.kind = .eof)
    (h : program ts = .error e ts') (he : e.Definite) :
    ∃ rest, program (.before ts.ahead more) = .error e rest := by
  obtain ⟨-, -, -, -, -, hsame⟩ :=
    (program_agrees ⟨.identity, more⟩ ts hstop).2 e ts' h
  have hrun := hsame (.inl he)
  rw [Continuation.tokens, Token.Relabelling.identity, List.map_id] at hrun
  exact ⟨_, hrun⟩

/-- The target of a pipe is refused only where there is a pipe. -/
theorem program_pipeTarget (hstop : ts.stop.kind = .eof) (h : program ts = .error e ts')
    (he : e.fault = .pipeTarget) : ∃ tok ∈ ts.ahead, tok.kind = .pipe := by
  obtain ⟨used, rfl, hpipe, -⟩ := (program_agrees ⟨.identity, ts⟩ ts hstop).2 e ts' h
  obtain ⟨tok, htok, hk⟩ := (hpipe he).resolve_left id
  exact ⟨tok, List.mem_append_left _ htok, hk⟩

theorem program_justifies (hstop : ts.stop.kind = .eof) (h : program ts = .error e ts') :
    e.Justified := by
  obtain ⟨used, -, -, hjustified, -⟩ := (program_agrees ⟨.identity, ts⟩ ts hstop).2 e ts' h
  exact hjustified

end Parser

/-- The letter that messages on a fault begin with. -/
def GrammarFault.initial : GrammarFault → Char
  | .expected _ => 'E'
  | .unexpected => 'U'
  | .pipeTarget => 'P'
  | .badNumber => 'I'

theorem GrammarError.head?_message (e : GrammarError) :
    e.message.head? = some e.fault.initial.toUInt8 := by
  unfold message
  cases e.fault <;> rfl

/-- Moves all tokens but those of a list. -/
def Token.Relabelling.fixing (toks : List Token) : Token.Relabelling where
  map tok := if tok ∈ toks then tok else { tok with pos.line := tok.pos.line + 1 }
  kind_map tok := by split <;> rfl
  literal_map tok := by split <;> rfl

theorem Token.Relabelling.fixing_of_mem {toks : List Token} {tok : Token} (h : tok ∈ toks) :
    fixing toks tok = tok :=
  if_pos h

theorem Token.Relabelling.mem_of_fixing {toks : List Token} {tok : Token}
    (h : fixing toks tok = tok) : tok ∈ toks := by
  by_cases hmem : tok ∈ toks
  · exact hmem
  · have hmoved : fixing toks tok = { tok with pos.line := tok.pos.line + 1 } := if_neg hmem
    rw [h] at hmoved
    have hline : tok.pos.line = tok.pos.line + 1 := congrArg (·.pos.line) hmoved
    omega

/-- An error is about one of the tokens, or about their end. -/
theorem Parser.program_error_mem {ts ts' : Tokens} {e : GrammarError} (hstop : ts.stop.kind = .eof)
    (h : program ts = .error e ts') : e.tok ∈ ts.ahead ++ [ts.stop] := by
  -- Moving all other tokens changes nothing, so it does not change the token of the error.
  have hsame : ts.relabel (.fixing (ts.ahead ++ [ts.stop])) = ts := by
    have hahead : ts.ahead.map (Token.Relabelling.fixing (ts.ahead ++ [ts.stop])) = ts.ahead := by
      rw [List.map_congr_left (g := id), List.map_id]
      intro tok htok
      exact Token.Relabelling.fixing_of_mem (List.mem_append_left _ htok)
    have hend : Token.Relabelling.fixing (ts.ahead ++ [ts.stop]) ts.stop = ts.stop :=
      Token.Relabelling.fixing_of_mem (List.mem_append_right _ (List.mem_singleton_self ts.stop))
    rw [Tokens.relabel, hahead, hend]
  have hcommutes := program_commutes (.fixing (ts.ahead ++ [ts.stop])) hstop
  rw [hsame, h] at hcommutes
  simp only [relabelled, EStateM.Result.error.injEq] at hcommutes
  exact Token.Relabelling.mem_of_fixing (congrArg GrammarError.tok hcommutes.1).symm

end PipeCompiler
