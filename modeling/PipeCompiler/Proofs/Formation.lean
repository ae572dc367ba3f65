import PipeCompiler.Proofs.Grammar

/-! The trees that the grammar can make.

`Formed P t` says of a tree what remains of a derivation when the order of the tokens is forgotten:
nothing is missing but the value of a bare return and the alternative of a choice, only names and
calls are piped into, a function that is not concise has a block for a body, and each node agrees
with the token that it keeps, of which `P` holds. -/
namespace PipeCompiler.Grammar

/-- A part of a program. -/
inductive Tree
  | stmt (s : Stmt)
  | body (body : List Stmt)
  | expr (e : Expr)
  | exprs (es : List Expr)

/-- A name agrees with its token. -/
structure FormedName (P : Token → Prop) (n : Name) : Prop where
  tok : P n.tok
  kind : n.tok.kind = .ident
  text : n.text = n.tok.literal

theorem FormedName.ofToken {P : Token → Prop} {id : Token} (h : P id) (hi : id.kind = .ident) :
    FormedName P (.mk id id.literal) :=
  ⟨h, hi, rfl⟩

/-- A missing name has no token that names have. -/
theorem FormedName.eq_mk {P : Token → Prop} {n : Name} (h : FormedName P n) :
    n = .mk n.tok n.text := by
  cases n with
  | missing => cases h.kind
  | mk tok text => rfl

inductive Formed (P : Token → Prop) : Tree → Prop
  | declare {tok : Token} {name : Name} {value : Expr} (ht : P tok)
      (hk : tok.kind = .letWord ∨ tok.kind = .varWord) (hn : FormedName P name)
      (hv : Formed P (.expr value)) :
      Formed P (.stmt (.declare tok (tok.kind = .letWord) name value))
  | conciseFunction {tok : Token} {name : Name} {params : List Name} {body : Expr} (ht : P tok)
      (hk : tok.kind = .fnWord) (hn : FormedName P name) (hps : ∀ n ∈ params, FormedName P n)
      (hb : Formed P (.expr body)) : Formed P (.stmt (.function tok name params body true))
  | blockFunction {tok brace : Token} {name : Name} {params : List Name} {body : List Stmt}
      (ht : P tok) (hk : tok.kind = .fnWord) (hn : FormedName P name)
      (hps : ∀ n ∈ params, FormedName P n) (hb : Formed P (.expr (.block brace body))) :
      Formed P (.stmt (.function tok name params (.block brace body) false))
  | assign {tok : Token} {name : Name} {value : Expr} (ht : P tok) (hk : tok.kind = .assign)
      (hn : FormedName P name) (hv : Formed P (.expr value)) :
      Formed P (.stmt (.assign tok name value))
  | leave {tok : Token} (ht : P tok) (hk : tok.kind = .returnWord) :
      Formed P (.stmt (.ret tok .missing))
  | ret {tok : Token} {value : Expr} (ht : P tok) (hk : tok.kind = .returnWord)
      (hv : Formed P (.expr value)) : Formed P (.stmt (.ret tok value))
  | whileLoop {tok brace : Token} {test : Expr} {body : List Stmt} (ht : P tok)
      (hk : tok.kind = .whileWord) (hc : Formed P (.expr test))
      (hb : Formed P (.expr (.block brace body))) :
      Formed P (.stmt (.whileLoop tok test (.block brace body)))
  | forLoop {tok brace : Token} {item : Name} {items : Expr} {body : List Stmt} (ht : P tok)
      (hk : tok.kind = .forWord) (hn : FormedName P item) (hx : Formed P (.expr items))
      (hb : Formed P (.expr (.block brace body))) :
      Formed P (.stmt (.forLoop tok item items (.block brace body)))
  | exprStatement {tok : Token} {value : Expr} (ht : P tok) (hv : Formed P (.expr value)) :
      Formed P (.stmt (.expr tok value))
  | noStatements : Formed P (.body [])
  | moreStatements {s : Stmt} {body : List Stmt} (hs : Formed P (.stmt s))
      (hb : Formed P (.body body)) : Formed P (.body (s :: body))
  | ifThen {tok : Token} {test yes : Expr} (ht : P tok) (hk : tok.kind = .ifWord)
      (hc : Formed P (.expr test)) (hy : Formed P (.expr yes)) :
      Formed P (.expr (.cond tok test yes .missing))
  | ifThenElse {tok : Token} {test yes no : Expr} (ht : P tok) (hk : tok.kind = .ifWord)
      (hc : Formed P (.expr test)) (hy : Formed P (.expr yes)) (hn : Formed P (.expr no)) :
      Formed P (.expr (.cond tok test yes no))
  | block {brace : Token} {body : List Stmt} (ht : P brace) (hk : brace.kind = .lbrace)
      (hb : Formed P (.body body)) : Formed P (.expr (.block brace body))
  | binary {op : Token} {left right : Expr} (level : Level) (ht : P op)
      (hk : op.kind ∈ level.operators) (hl : Formed P (.expr left)) (hr : Formed P (.expr right)) :
      Formed P (.expr (.binary op left op.literal right))
  | unary {op : Token} {operand : Expr} (ht : P op) (hk : op.kind = .bang ∨ op.kind = .minus)
      (he : Formed P (.expr operand)) : Formed P (.expr (.unary op op.literal operand))
  | pipeName {tok : Token} {left : Expr} {n : Name} (ht : P tok) (hk : tok.kind = .pipe)
      (hl : Formed P (.expr left)) (hn : FormedName P n) :
      Formed P (.expr (.pipe tok left (.name n)))
  | pipeCall {tok paren : Token} {left callee : Expr} {args : List Expr} (ht : P tok)
      (hk : tok.kind = .pipe) (hl : Formed P (.expr left)) (hp : P paren)
      (hpk : paren.kind = .lparen) (hc : Formed P (.expr callee)) (ha : Formed P (.exprs args)) :
      Formed P (.expr (.pipe tok left (.call paren callee args)))
  | call {tok : Token} {callee : Expr} {args : List Expr} (ht : P tok) (hk : tok.kind = .lparen)
      (hc : Formed P (.expr callee)) (ha : Formed P (.exprs args)) :
      Formed P (.expr (.call tok callee args))
  | lambda {tok : Token} {params : List Name} {body : Expr} (ht : P tok)
      (hk : tok.kind = .bar ∨ tok.kind = .or) (hps : ∀ n ∈ params, FormedName P n)
      (hb : Formed P (.expr body)) : Formed P (.expr (.lambda tok params body))
  | name {n : Name} (hn : FormedName P n) : Formed P (.expr (.name n))
  | number {tok : Token} {value : Double} (ht : P tok) (hk : tok.kind = .number)
      (hv : Double.read? tok.literal = some value) : Formed P (.expr (.number tok value))
  | string {tok : Token} (ht : P tok) (hk : tok.kind = .string) :
      Formed P (.expr (.string tok tok.literal))
  | bool {tok : Token} (ht : P tok) (hk : tok.kind = .trueWord ∨ tok.kind = .falseWord) :
      Formed P (.expr (.bool tok (tok.kind = .trueWord)))
  | null {tok : Token} (ht : P tok) (hk : tok.kind = .nullWord) : Formed P (.expr (.null tok))
  | array {tok : Token} {items : List Expr} (ht : P tok) (hk : tok.kind = .lbracket)
      (hx : Formed P (.exprs items)) : Formed P (.expr (.array tok items))
  | noExprs : Formed P (.exprs [])
  | moreExprs {e : Expr} {es : List Expr} (he : Formed P (.expr e)) (hes : Formed P (.exprs es)) :
      Formed P (.exprs (e :: es))

theorem Formed.ne_missing {P : Token → Prop} {e : Expr} (h : Formed P (.expr e)) :
    e ≠ .missing := by
  rintro rfl
  cases h

/-- The tree that a phrase is about. -/
def Phrase.tree : Phrase → Tree
  | .statement s => .stmt s
  | .statements body => .body body
  | .block brace body => .expr (.block brace body)
  | .expr _ e | .choice e | .consequence e | .alternative e | .branch e => .expr e
  | .exprs _ es => .exprs es

variable {P : Token → Prop}

theorem IsName.formed {toks : List Token} {n : Name} (h : IsName toks n)
    (hP : ∀ tok ∈ toks, P tok) : FormedName P n := by
  obtain ⟨id, hi, rfl, rfl⟩ := h
  exact .ofToken (hP id (by simp)) hi

theorem Listed.formed {closing : Token.Kind} {toks : List Token} {ns : List Name}
    (h : Listed IsName closing toks ns) (hP : ∀ tok ∈ toks, P tok) :
    ∀ n ∈ ns, FormedName P n := by
  induction h with
  | empty hc => simp
  | last hx hc =>
    have hx := hx.formed fun tok ht => hP tok (by simp [ht])
    simpa using hx
  | more hx hc _ ih =>
    have hx := hx.formed fun tok ht => hP tok (by simp [ht])
    have hys := ih fun tok ht => hP tok (by simp [ht])
    intro n hn
    rcases List.mem_cons.mp hn with rfl | hn
    · exact hx
    · exact hys n hn

/-- The grammar only makes trees of the right form. -/
theorem Derives.formed {phrase : Phrase} {toks : List Token} (h : Derives phrase toks)
    (hP : ∀ tok ∈ toks, P tok) : Formed P phrase.tree := by
  induction h with
  | declare ht hi hs hv ih =>
    simp only [List.forall_mem_cons] at hP
    exact .declare hP.1 ht (.ofToken hP.2.1 hi) (ih hP.2.2.2)
  | conciseFunction ht hi hp hps hs hb ih =>
    simp only [List.forall_mem_cons, List.forall_mem_append] at hP
    exact .conciseFunction hP.1 ht (.ofToken hP.2.1 hi) (hps.formed hP.2.2.2.1) (ih hP.2.2.2.2.2)
  | blockFunction ht hi hp hps hb ih =>
    simp only [List.forall_mem_cons, List.forall_mem_append] at hP
    exact .blockFunction hP.1 ht (.ofToken hP.2.1 hi) (hps.formed hP.2.2.2.1) (ih hP.2.2.2.2)
  | leave ht => exact .leave (hP _ (by simp)) ht
  | ret ht hv ih =>
    simp only [List.forall_mem_cons] at hP
    exact .ret hP.1 ht (ih hP.2)
  | whileLoop ht hc hb ihc ihb =>
    simp only [List.forall_mem_cons, List.forall_mem_append] at hP
    exact .whileLoop hP.1 ht (ihc hP.2.1) (ihb hP.2.2)
  | forLoop ht hi hw hx hb ihx ihb =>
    simp only [List.forall_mem_cons, List.forall_mem_append] at hP
    exact .forLoop hP.1 ht (.ofToken hP.2.1 hi) (ihx hP.2.2.2.1) (ihb hP.2.2.2.2)
  | assign hi hs hv ih =>
    simp only [List.forall_mem_cons] at hP
    exact .assign hP.2.1 hs (.ofToken hP.1 hi) (ih hP.2.2)
  | exprStatement hv ih => exact .exprStatement (hP _ (by simp)) (ih hP)
  | noStatements => exact .noStatements
  | moreStatements hs he hb ihs ihb =>
    simp only [List.forall_mem_append] at hP
    exact .moreStatements (ihs hP.1.1) (ihb hP.2)
  | block ht hb hc ih =>
    simp only [List.forall_mem_cons, List.forall_mem_append] at hP
    exact .block hP.1 ht (ih hP.2.1)
  | tighter he ih => exact ih hP
  | pipe hl ht hr hp ihl ihr =>
    simp only [List.forall_mem_cons, List.forall_mem_append] at hP
    have hright := ihr hP.2.2
    rcases hp with ⟨n, rfl⟩ | ⟨tok, callee, args, rfl⟩
    · cases hright with
      | name hn => exact .pipeName hP.2.1 ht (ihl hP.1) hn
    · cases hright with
      | call hp hpk hc ha => exact .pipeCall hP.2.1 ht (ihl hP.1) hp hpk hc ha
  | @binary level op ls rs left right hl ho hr ihl ihr =>
    simp only [List.forall_mem_cons, List.forall_mem_append] at hP
    exact .binary level hP.2.1 ho (ihl hP.1) (ihr hP.2.2)
  | unary ho he ih =>
    simp only [List.forall_mem_cons] at hP
    exact .unary hP.1 ho (ih hP.2)
  | call hl ht hr ihl ihr =>
    simp only [List.forall_mem_cons, List.forall_mem_append] at hP
    exact .call hP.2.1 ht (ihl hP.1) (ihr hP.2.2)
  | choicePrimary he ih => exact ih hP
  | blockPrimary hb ih => exact ih hP
  | lambda ht hps hb ih =>
    simp only [List.forall_mem_cons, List.forall_mem_append] at hP
    exact .lambda hP.1 (.inl ht) (hps.formed hP.2.1) (ih hP.2.2)
  | thunk ht hb ih =>
    simp only [List.forall_mem_cons] at hP
    exact .lambda hP.1 (.inr ht) (by simp) (ih hP.2)
  | array ht hx ih =>
    simp only [List.forall_mem_cons] at hP
    exact .array hP.1 ht (ih hP.2)
  | parens hp he hc ih =>
    simp only [List.forall_mem_cons, List.forall_mem_append] at hP
    exact ih hP.2.1
  | number ht hv => exact .number (hP _ (by simp)) ht hv
  | string ht => exact .string (hP _ (by simp)) ht
  | bool ht => exact .bool (hP _ (by simp)) ht
  | null ht => exact .null (hP _ (by simp)) ht
  | name hi => exact .name (.ofToken (hP _ (by simp)) hi)
  | ifThen ht hc hy ihc ihy =>
    simp only [List.forall_mem_cons, List.forall_mem_append] at hP
    exact .ifThen hP.1 ht (ihc hP.2.1) (ihy hP.2.2)
  | ifThenElse ht hc hy hw hn ihc ihy ihn =>
    simp only [List.forall_mem_cons, List.forall_mem_append] at hP
    exact .ifThenElse hP.1 ht (ihc hP.2.1.1) (ihy hP.2.1.2) (ihn hP.2.2.2)
  | blockConsequence hb ih => exact ih hP
  | thenConsequence hw he ih =>
    simp only [List.forall_mem_cons] at hP
    exact ih hP.2
  | elseIf he ih => exact ih hP
  | elseBranch he ih => exact ih hP
  | blockBranch hb ih => exact ih hP
  | exprBranch he ih => exact ih hP
  | noExprs hc => exact .noExprs
  | lastExpr he hc ih =>
    simp only [List.forall_mem_append] at hP
    exact .moreExprs (ih hP.1) .noExprs
  | moreExprs he hc hx ihe ihx =>
    simp only [List.forall_mem_cons, List.forall_mem_append] at hP
    exact .moreExprs (ihe hP.1) (ihx hP.2.2)

end PipeCompiler.Grammar
