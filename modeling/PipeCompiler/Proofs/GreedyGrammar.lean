import PipeCompiler.Proofs.Grammar

/-! The derivations that the parser finds.

The grammar leaves open where an anonymous function, a choice or a statement ends. The parser goes
on as long as it can. `Greedy phrase toks next` says that the tokens are read as the phrase in this
way if a token of the kind `next` follows them: in every place where the parser could go on, the
next token is of another kind. -/
namespace PipeCompiler.Grammar

/-- The kind of the first token, or of the one that follows if there is none. -/
def first (toks : List Token) (next : Token.Kind) : Token.Kind :=
  (toks.head?.map Token.kind).getD next

@[simp] theorem first_nil (next : Token.Kind) : first [] next = next := rfl

@[simp] theorem first_cons (tok : Token) (toks : List Token) (next : Token.Kind) :
    first (tok :: toks) next = tok.kind := rfl

@[simp] theorem first_append (toks others : List Token) (next : Token.Kind) :
    first (toks ++ others) next = first toks (first others next) := by
  cases toks <;> rfl

/-- The tokens are read as the phrase before a token of the kind `next`. For an expression of a
level this is where the loop of that level has come to: only the tighter levels have ended. -/
inductive Greedy : Phrase → List Token → Token.Kind → Prop
  -- Statements.
  | declare {tok id sign : Token} {vs : List Token} {value : Expr} {next : Token.Kind}
      (ht : tok.kind = .letWord ∨ tok.kind = .varWord) (hi : id.kind = .ident)
      (hs : sign.kind = .assign) (hv : Greedy (.expr .pipeline value) vs next)
      (hk : next ≠ .pipe) :
      Greedy (.statement (.declare tok (tok.kind = .letWord) (.mk id id.literal) value))
        (tok :: id :: sign :: vs) next
  | conciseFunction {tok id paren sign : Token} {ps bs : List Token} {params : List Name}
      {body : Expr} {next : Token.Kind} (ht : tok.kind = .fnWord) (hi : id.kind = .ident)
      (hp : paren.kind = .lparen) (hps : Listed IsName .rparen ps params)
      (hs : sign.kind = .assign) (hb : Greedy (.expr .pipeline body) bs next)
      (hk : next ≠ .pipe) :
      Greedy (.statement (.function tok (.mk id id.literal) params body true))
        (tok :: id :: paren :: (ps ++ sign :: bs)) next
  | blockFunction {tok id paren brace : Token} {ps bs : List Token} {params : List Name}
      {body : List Stmt} {next : Token.Kind} (ht : tok.kind = .fnWord) (hi : id.kind = .ident)
      (hp : paren.kind = .lparen) (hps : Listed IsName .rparen ps params)
      (hb : Greedy (.block brace body) bs next) :
      Greedy (.statement (.function tok (.mk id id.literal) params (.block brace body) false))
        (tok :: id :: paren :: (ps ++ bs)) next
  | leave {tok : Token} {next : Token.Kind} (ht : tok.kind = .returnWord)
      (hk : next ∈ [.rbrace, .semicolon, .eof]) :
      Greedy (.statement (.ret tok .missing)) [tok] next
  | ret {tok : Token} {vs : List Token} {value : Expr} {next : Token.Kind}
      (ht : tok.kind = .returnWord) (hv : Greedy (.expr .pipeline value) vs next)
      (hk : next ≠ .pipe) : Greedy (.statement (.ret tok value)) (tok :: vs) next
  | whileLoop {tok brace : Token} {cs bs : List Token} {test : Expr} {body : List Stmt}
      {next : Token.Kind} (ht : tok.kind = .whileWord)
      (hc : Greedy (.expr .pipeline test) cs .lbrace) (hb : Greedy (.block brace body) bs next) :
      Greedy (.statement (.whileLoop tok test (.block brace body))) (tok :: (cs ++ bs)) next
  | forLoop {tok id word brace : Token} {xs bs : List Token} {items : Expr} {body : List Stmt}
      {next : Token.Kind} (ht : tok.kind = .forWord) (hi : id.kind = .ident)
      (hw : word.kind = .inWord) (hx : Greedy (.expr .pipeline items) xs .lbrace)
      (hb : Greedy (.block brace body) bs next) :
      Greedy (.statement (.forLoop tok (.mk id id.literal) items (.block brace body)))
        (tok :: id :: word :: (xs ++ bs)) next
  | assign {id sign : Token} {vs : List Token} {value : Expr} {next : Token.Kind}
      (hi : id.kind = .ident) (hs : sign.kind = .assign)
      (hv : Greedy (.expr .pipeline value) vs next) (hk : next ≠ .pipe) :
      Greedy (.statement (.assign sign (.mk id id.literal) value)) (id :: sign :: vs) next
  | exprStatement {tok : Token} {vs : List Token} {value : Expr} {next : Token.Kind}
      (hv : Greedy (.expr .pipeline value) (tok :: vs) next) (hk : next ≠ .pipe)
      (ha : tok.kind = .ident → first vs next ≠ .assign) :
      Greedy (.statement (.expr tok value)) (tok :: vs) next
  | noStatements {next : Token.Kind} (hk : next ∈ [.rbrace, .eof]) :
      Greedy (.statements []) [] next
  | moreStatements {ts us : List Token} {s : Stmt} {body : List Stmt} {next : Token.Kind}
      (hs : Greedy (.statement s) ts (first us next)) (hk : first us next ≠ .semicolon)
      (hb : Greedy (.statements body) us next) : Greedy (.statements (s :: body)) (ts ++ us) next
  | closedStatement {tok : Token} {ts us : List Token} {s : Stmt} {body : List Stmt}
      {next : Token.Kind} (hs : Greedy (.statement s) ts .semicolon) (ht : tok.kind = .semicolon)
      (hb : Greedy (.statements body) us next) :
      Greedy (.statements (s :: body)) (ts ++ tok :: us) next
  | block {brace close : Token} {bs : List Token} {body : List Stmt} {next : Token.Kind}
      (ht : brace.kind = .lbrace) (hb : Greedy (.statements body) bs .rbrace)
      (hc : close.kind = .rbrace) : Greedy (.block brace body) (brace :: (bs ++ [close])) next
  -- Operators.
  | tighter {level : Level} {ts : List Token} {e : Expr} {next : Token.Kind}
      (he : Greedy (.expr level.tighter e) ts next) (hk : next ∉ level.tighter.suffixes) :
      Greedy (.expr level e) ts next
  | pipe {tok : Token} {ls rs : List Token} {left target : Expr} {next : Token.Kind}
      (hl : Greedy (.expr .pipeline left) ls .pipe) (ht : tok.kind = .pipe)
      (hr : Greedy (.expr .or target) rs next) (hk : next ∉ Level.or.suffixes)
      (hp : IsPipeTarget target) :
      Greedy (.expr .pipeline (.pipe tok left target)) (ls ++ tok :: rs) next
  | binary {level : Level} {op : Token} {ls rs : List Token} {left right : Expr}
      {next : Token.Kind} (hl : Greedy (.expr level left) ls op.kind)
      (ho : op.kind ∈ level.operators) (hr : Greedy (.expr level.tighter right) rs next)
      (hk : next ∉ level.tighter.suffixes) :
      Greedy (.expr level (.binary op left op.literal right)) (ls ++ op :: rs) next
  | unary {op : Token} {ts : List Token} {operand : Expr} {next : Token.Kind}
      (ho : op.kind = .bang ∨ op.kind = .minus) (he : Greedy (.expr .unary operand) ts next) :
      Greedy (.expr .unary (.unary op op.literal operand)) (op :: ts) next
  | call {tok : Token} {ls rs : List Token} {callee : Expr} {args : List Expr} {next : Token.Kind}
      (hl : Greedy (.expr .call callee) ls .lparen) (ht : tok.kind = .lparen)
      (hr : Greedy (.exprs .rparen args) rs next) :
      Greedy (.expr .call (.call tok callee args)) (ls ++ tok :: rs) next
  -- What no operator holds together.
  | choicePrimary {ts : List Token} {e : Expr} {next : Token.Kind}
      (he : Greedy (.choice e) ts next) : Greedy (.expr .primary e) ts next
  | blockPrimary {brace : Token} {ts : List Token} {body : List Stmt} {next : Token.Kind}
      (hb : Greedy (.block brace body) ts next) :
      Greedy (.expr .primary (.block brace body)) ts next
  | lambda {tok : Token} {ps bs : List Token} {params : List Name} {body : Expr}
      {next : Token.Kind} (ht : tok.kind = .bar) (hps : Listed IsName .bar ps params)
      (hb : Greedy (.branch body) bs next) :
      Greedy (.expr .primary (.lambda tok params body)) (tok :: (ps ++ bs)) next
  | thunk {tok : Token} {bs : List Token} {body : Expr} {next : Token.Kind} (ht : tok.kind = .or)
      (hb : Greedy (.branch body) bs next) :
      Greedy (.expr .primary (.lambda tok [] body)) (tok :: bs) next
  | array {tok : Token} {xs : List Token} {items : List Expr} {next : Token.Kind}
      (ht : tok.kind = .lbracket) (hx : Greedy (.exprs .rbracket items) xs next) :
      Greedy (.expr .primary (.array tok items)) (tok :: xs) next
  | parens {paren close : Token} {ts : List Token} {e : Expr} {next : Token.Kind}
      (hp : paren.kind = .lparen) (he : Greedy (.expr .pipeline e) ts .rparen)
      (hc : close.kind = .rparen) : Greedy (.expr .primary e) (paren :: (ts ++ [close])) next
  | number {tok : Token} {value : Double} {next : Token.Kind} (ht : tok.kind = .number)
      (hv : Double.read? tok.literal = some value) :
      Greedy (.expr .primary (.number tok value)) [tok] next
  | string {tok : Token} {next : Token.Kind} (ht : tok.kind = .string) :
      Greedy (.expr .primary (.string tok tok.literal)) [tok] next
  | bool {tok : Token} {next : Token.Kind} (ht : tok.kind = .trueWord ∨ tok.kind = .falseWord) :
      Greedy (.expr .primary (.bool tok (tok.kind = .trueWord))) [tok] next
  | null {tok : Token} {next : Token.Kind} (ht : tok.kind = .nullWord) :
      Greedy (.expr .primary (.null tok)) [tok] next
  | name {id : Token} {next : Token.Kind} (hi : id.kind = .ident) :
      Greedy (.expr .primary (.name (.mk id id.literal))) [id] next
  -- Choices and branches.
  | ifThen {tok : Token} {cs ys : List Token} {test yes : Expr} {next : Token.Kind}
      (ht : tok.kind = .ifWord) (hc : Greedy (.expr .pipeline test) cs (first ys next))
      (hy : Greedy (.consequence yes) ys next) (hk : next ≠ .elseWord) :
      Greedy (.choice (.cond tok test yes .missing)) (tok :: (cs ++ ys)) next
  | ifThenElse {tok word : Token} {cs ys ns : List Token} {test yes no : Expr} {next : Token.Kind}
      (ht : tok.kind = .ifWord) (hc : Greedy (.expr .pipeline test) cs (first ys .elseWord))
      (hy : Greedy (.consequence yes) ys .elseWord) (hw : word.kind = .elseWord)
      (hn : Greedy (.alternative no) ns next) :
      Greedy (.choice (.cond tok test yes no)) (tok :: (cs ++ ys ++ word :: ns)) next
  | blockConsequence {brace : Token} {ts : List Token} {body : List Stmt} {next : Token.Kind}
      (hb : Greedy (.block brace body) ts next) : Greedy (.consequence (.block brace body)) ts next
  | thenConsequence {word : Token} {ts : List Token} {e : Expr} {next : Token.Kind}
      (hw : word.kind = .thenWord) (he : Greedy (.branch e) ts next) :
      Greedy (.consequence e) (word :: ts) next
  | elseIf {ts : List Token} {e : Expr} {next : Token.Kind} (he : Greedy (.choice e) ts next) :
      Greedy (.alternative e) ts next
  | elseBranch {ts : List Token} {e : Expr} {next : Token.Kind} (he : Greedy (.branch e) ts next)
      (hk : first ts next ≠ .ifWord) : Greedy (.alternative e) ts next
  | blockBranch {brace : Token} {ts : List Token} {body : List Stmt} {next : Token.Kind}
      (hb : Greedy (.block brace body) ts next) : Greedy (.branch (.block brace body)) ts next
  | exprBranch {ts : List Token} {e : Expr} {next : Token.Kind}
      (he : Greedy (.expr .pipeline e) ts next) (hk : next ≠ .pipe)
      (hb : first ts next ≠ .lbrace) : Greedy (.branch e) ts next
  -- Lists of expressions.
  | noExprs {closing : Token.Kind} {close : Token} {next : Token.Kind} (hc : close.kind = closing) :
      Greedy (.exprs closing []) [close] next
  | lastExpr {closing : Token.Kind} {close : Token} {ts : List Token} {e : Expr}
      {next : Token.Kind} (he : Greedy (.expr .pipeline e) ts closing) (hc : close.kind = closing) :
      Greedy (.exprs closing [e]) (ts ++ [close]) next
  | moreExprs {closing : Token.Kind} {comma : Token} {ts us : List Token} {e x : Expr}
      {xs : List Expr} {next : Token.Kind} (he : Greedy (.expr .pipeline e) ts .comma)
      (hc : comma.kind = .comma) (hx : Greedy (.exprs closing (x :: xs)) us next) :
      Greedy (.exprs closing (e :: x :: xs)) (ts ++ comma :: us) next

variable {phrase : Phrase} {toks : List Token} {next : Token.Kind}

/-- What is read greedily can be read. -/
theorem Greedy.derives (h : Greedy phrase toks next) : Derives phrase toks := by
  induction h with
  | declare ht hi hs hv hk ih => exact .declare ht hi hs ih
  | conciseFunction ht hi hp hps hs hb hk ih => exact .conciseFunction ht hi hp hps hs ih
  | blockFunction ht hi hp hps hb ih => exact .blockFunction ht hi hp hps ih
  | leave ht hk => exact .leave ht
  | ret ht hv hk ih => exact .ret ht ih
  | whileLoop ht hc hb ihc ihb => exact .whileLoop ht ihc ihb
  | forLoop ht hi hw hx hb ihx ihb => exact .forLoop ht hi hw ihx ihb
  | assign hi hs hv hk ih => exact .assign hi hs ih
  | exprStatement hv hk ha ih => exact .exprStatement ih
  | noStatements hk => exact .noStatements
  | moreStatements hs hk hb ihs ihb =>
    simpa using Derives.moreStatements ihs (.inl rfl) ihb
  | @closedStatement tok ts us s body next hs ht hb ihs ihb =>
    simpa using Derives.moreStatements ihs (.inr ⟨tok, ht, rfl⟩) ihb
  | block ht hb hc ih => exact .block ht ih hc
  | tighter he hk ih => exact .tighter ih
  | pipe hl ht hr hk hp ihl ihr => exact .pipe ihl ht ihr hp
  | binary hl ho hr hk ihl ihr => exact .binary ihl ho ihr
  | unary ho he ih => exact .unary ho ih
  | call hl ht hr ihl ihr => exact .call ihl ht ihr
  | choicePrimary he ih => exact .choicePrimary ih
  | blockPrimary hb ih => exact .blockPrimary ih
  | lambda ht hps hb ih => exact .lambda ht hps ih
  | thunk ht hb ih => exact .thunk ht ih
  | array ht hx ih => exact .array ht ih
  | parens hp he hc ih => exact .parens hp ih hc
  | number ht hv => exact .number ht hv
  | string ht => exact .string ht
  | bool ht => exact .bool ht
  | null ht => exact .null ht
  | name hi => exact .name hi
  | ifThen ht hc hy hk ihc ihy => exact .ifThen ht ihc ihy
  | ifThenElse ht hc hy hw hn ihc ihy ihn => exact .ifThenElse ht ihc ihy hw ihn
  | blockConsequence hb ih => exact .blockConsequence ih
  | thenConsequence hw he ih => exact .thenConsequence hw ih
  | elseIf he ih => exact .elseIf ih
  | elseBranch he hk ih => exact .elseBranch ih
  | blockBranch hb ih => exact .blockBranch ih
  | exprBranch he hk hb ih => exact .exprBranch ih
  | noExprs hc => exact .noExprs hc
  | lastExpr he hc ih => exact .lastExpr ih hc
  | moreExprs he hc hx ihe ihx => exact .moreExprs ihe hc ihx

/-- The tokens that an expression can begin with. -/
def Level.opens (level : Level) : List Token.Kind :=
  .lbrace :: level.starts

private theorem Level.opens_tighter {level : Level} {k : Token.Kind} (h : k ∈ level.tighter.opens) :
    k ∈ level.opens := by
  revert k
  cases level <;> decide

/-- The tokens that a phrase can begin with. -/
def Phrase.opens : Phrase → List Token.Kind
  | .statement _ | .statements _ =>
      [.letWord, .varWord, .fnWord, .returnWord, .whileWord, .forWord] ++ Level.pipeline.opens
  | .block .. => [.lbrace]
  | .expr level _ => level.opens
  | .choice _ => [.ifWord]
  | .consequence _ => [.lbrace, .thenWord]
  | .alternative _ | .branch _ => Level.pipeline.opens
  | .exprs closing [] => [closing]
  | .exprs _ (_ :: _) => Level.pipeline.opens

/-- The tokens begin with one of the kinds. -/
def Opens (toks : List Token) (kinds : List Token.Kind) : Prop :=
  ∃ tok rest, toks = tok :: rest ∧ tok.kind ∈ kinds

namespace Opens

variable {kinds wider : List Token.Kind}

theorem cons {tok : Token} {rest : List Token} (h : tok.kind ∈ kinds) : Opens (tok :: rest) kinds :=
  ⟨tok, rest, rfl, h⟩

theorem append (h : Opens toks kinds) (others : List Token) : Opens (toks ++ others) kinds := by
  obtain ⟨tok, rest, rfl, hk⟩ := h
  exact cons hk

theorem mono (h : Opens toks kinds) (hk : ∀ k ∈ kinds, k ∈ wider) : Opens toks wider := by
  obtain ⟨tok, rest, rfl, hmem⟩ := h
  exact cons (hk _ hmem)

theorem first_mem (h : Opens toks kinds) (next : Token.Kind) : first toks next ∈ kinds := by
  obtain ⟨tok, rest, rfl, hk⟩ := h
  exact hk

end Opens

/-- Only a list of statements can begin with what follows it. -/
theorem Derives.opens (h : Derives phrase toks) (hp : ∀ body, phrase ≠ .statements body) :
    Opens toks phrase.opens := by
  induction h with
  | noStatements => exact absurd rfl (hp _)
  | moreStatements => exact absurd rfl (hp _)
  | declare ht => exact .cons (by rcases ht with ht | ht <;> simp [ht, Phrase.opens])
  | conciseFunction ht | blockFunction ht | leave ht | ret ht | whileLoop ht | forLoop ht =>
    exact .cons (by simp [ht, Phrase.opens])
  | assign hi => exact .cons (by simp [hi, Phrase.opens, Level.opens, Level.starts])
  | exprStatement hv ih => exact (ih (by simp)).mono fun k hk => List.mem_append_right _ hk
  | block ht => exact .cons (by simp [ht, Phrase.opens])
  | tighter he ih => exact (ih (by simp)).mono fun k hk => Level.opens_tighter hk
  | pipe hl ht hr hp ihl ihr => exact (ihl (by simp)).append _
  | binary hl ho hr ihl ihr => exact (ihl (by simp)).append _
  | unary ho =>
    exact .cons (by rcases ho with ho | ho <;> simp [ho, Phrase.opens, Level.opens, Level.starts])
  | call hl ht hr ihl ihr => exact (ihl (by simp)).append _
  | choicePrimary he ih => exact (ih (by simp)).mono (by simp only [Phrase.opens]; decide)
  | blockPrimary hb ih => exact (ih (by simp)).mono (by simp only [Phrase.opens]; decide)
  | bool ht =>
    exact .cons (by rcases ht with ht | ht <;> simp [ht, Phrase.opens, Level.opens, Level.starts])
  | lambda ht | thunk ht | array ht | parens ht | number ht | string ht | null ht | name ht =>
    exact .cons (by simp [ht, Phrase.opens, Level.opens, Level.starts])
  | ifThen ht | ifThenElse ht => exact .cons (by simp [ht, Phrase.opens])
  | blockConsequence hb ih => exact (ih (by simp)).mono (by simp only [Phrase.opens]; decide)
  | thenConsequence hw => exact .cons (by simp [hw, Phrase.opens])
  | elseIf he ih => exact (ih (by simp)).mono (by simp only [Phrase.opens]; decide)
  | elseBranch he ih => exact ih (by simp)
  | blockBranch hb ih => exact (ih (by simp)).mono (by simp only [Phrase.opens]; decide)
  | exprBranch he ih => exact ih (by simp)
  | noExprs hc => exact .cons (by simp [hc, Phrase.opens])
  | lastExpr he hc ih => exact (ih (by simp)).append _
  | moreExprs he hc hx ihe ihx => exact (ihe (by simp)).append _

theorem Opens.first_eq {kinds : List Token.Kind} (h : Opens toks kinds) (next next' : Token.Kind) :
    first toks next = first toks next' := by
  obtain ⟨tok, rest, rfl, -⟩ := h
  rfl

/-- Whatever a token of the first kind ends, one of the second kind ends too. -/
structure AsFinal (next next' : Token.Kind) : Prop where
  suffix : ∀ level : Level, next ∉ level.suffixes → next' ∉ level.suffixes
  alternative : next ≠ .elseWord → next' ≠ .elseWord

theorem AsFinal.pipe {next' : Token.Kind} (h : AsFinal next next') (hk : next ≠ .pipe) :
    next' ≠ .pipe := by
  simpa [Level.suffixes] using h.suffix .pipeline (by simpa [Level.suffixes] using hk)

/-- The tokens that an expression ends before, whatever it is. -/
def closers : List Token.Kind :=
  [.rparen, .rbracket, .comma, .thenWord, .lbrace, .rbrace, .semicolon, .eof]

theorem notMem_of_closer {k : Token.Kind} (h : k ∈ closers) :
    k ∉ Level.pipeline.continuations ∧ k ≠ .elseWord ∧ k ≠ .assign := by
  revert k
  decide

theorem AsFinal.ofCloser {next' : Token.Kind} (h : next' ∈ closers) : AsFinal next next' where
  suffix level _ := by
    revert next'
    cases level <;> decide
  alternative _ := (notMem_of_closer h).2.1

/-- Neither a statement nor statements: how it ends depends on suffixes and alternatives only. -/
def Phrase.isPart : Phrase → Bool
  | .statement _ | .statements _ => false
  | _ => true

/-- A part of a statement is read in the same way before any token that is as final. -/
theorem Greedy.asFinal {next' : Token.Kind} (h : Greedy phrase toks next)
    (hf : AsFinal next next') (hp : phrase.isPart = true) : Greedy phrase toks next' := by
  induction h generalizing next' with
  | declare | conciseFunction | blockFunction | leave | ret | whileLoop | forLoop | assign
  | exprStatement | noStatements | moreStatements | closedStatement => cases hp
  | block ht hb hc => exact .block ht hb hc
  | @tighter level ts e next he hk ih => exact .tighter (ih hf rfl) (hf.suffix _ hk)
  | pipe hl ht hr hk htarget ihl ihr => exact .pipe hl ht (ihr hf rfl) (hf.suffix _ hk) htarget
  | binary hl ho hr hk ihl ihr => exact .binary hl ho (ihr hf rfl) (hf.suffix _ hk)
  | unary ho he ih => exact .unary ho (ih hf rfl)
  | call hl ht hr ihl ihr => exact .call hl ht (ihr hf rfl)
  | choicePrimary he ih => exact .choicePrimary (ih hf rfl)
  | blockPrimary hb ih => exact .blockPrimary (ih hf rfl)
  | lambda ht hps hb ih => exact .lambda ht hps (ih hf rfl)
  | thunk ht hb ih => exact .thunk ht (ih hf rfl)
  | array ht hx ih => exact .array ht (ih hf rfl)
  | parens hparen he hc ih => exact .parens hparen he hc
  | number ht hv => exact .number ht hv
  | string ht => exact .string ht
  | bool ht => exact .bool ht
  | null ht => exact .null ht
  | name hi => exact .name hi
  | @ifThen tok cs ys test yes next ht hc hy hk ihc ihy =>
    rw [(hy.derives.opens (by simp)).first_eq next next'] at hc
    exact .ifThen ht hc (ihy hf rfl) (hf.alternative hk)
  | ifThenElse ht hc hy hw hn ihc ihy ihn => exact .ifThenElse ht hc hy hw (ihn hf rfl)
  | blockConsequence hb ih => exact .blockConsequence (ih hf rfl)
  | thenConsequence hw he ih => exact .thenConsequence hw (ih hf rfl)
  | elseIf he ih => exact .elseIf (ih hf rfl)
  | @elseBranch ts e next he hk ih =>
    rw [(he.derives.opens (by simp)).first_eq next next'] at hk
    exact .elseBranch (ih hf rfl) hk
  | blockBranch hb ih => exact .blockBranch (ih hf rfl)
  | @exprBranch ts e next he hk hb ih =>
    rw [(he.derives.opens (by simp)).first_eq next next'] at hb
    exact .exprBranch (ih hf rfl) (hf.pipe hk) hb
  | noExprs hc => exact .noExprs hc
  | lastExpr he hc ih => exact .lastExpr he hc
  | moreExprs he hc hx ihe ihx => exact .moreExprs he hc (ihx hf rfl)

/-- An expression of a level is read as one of a looser level if what follows does not go on with it
at a level between the two. -/
theorem Greedy.loosen {e : Expr} {level : Level} (steps : Nat)
    (h : Greedy (.expr (Level.tighter^[steps] level) e) toks next)
    (hk : next ∉ level.tighter.continuations) : Greedy (.expr level e) toks next := by
  induction steps generalizing level with
  | zero => exact h
  | succ steps ih =>
    rw [Level.continuations_eq, List.mem_append, not_or] at hk
    exact .tighter (ih h hk.2) hk.1

theorem Greedy.ofCall {e : Expr} (h : Greedy (.expr .call e) toks next) {level : Level}
    (hl : level ≠ .primary) (hk : next ∉ level.tighter.continuations) :
    Greedy (.expr level e) toks next :=
  .loosen _ (by rwa [Level.tighter_eq_call hl]) hk

/-- Before something that goes on with nothing, every expression is one of the loosest level. -/
theorem Greedy.loosest {e : Expr} {level : Level} (h : Greedy (.expr level e) toks next)
    (hk : next ∉ Level.pipeline.continuations) : Greedy (.expr .pipeline e) toks next := by
  rw [Level.continuations_eq, List.mem_append, not_or] at hk
  exact .loosen _ (by rwa [Level.tighter_pipeline]) hk.2

/-- A statement too, unless it is a bare return, or a name that what follows makes a target of an
assignment. -/
theorem Greedy.statement_asFinal {s : Stmt} {next' : Token.Kind}
    (h : Greedy (.statement s) toks next) (hf : AsFinal next next') (ha : next' ≠ .assign)
    (hr : ∀ tok, s ≠ .ret tok .missing) : Greedy (.statement s) toks next' := by
  cases h with
  | declare ht hi hs hv hk => exact .declare ht hi hs (hv.asFinal hf rfl) (hf.pipe hk)
  | conciseFunction ht hi hp hps hs hb hk =>
    exact .conciseFunction ht hi hp hps hs (hb.asFinal hf rfl) (hf.pipe hk)
  | blockFunction ht hi hp hps hb => exact .blockFunction ht hi hp hps (hb.asFinal hf rfl)
  | leave ht hk => exact absurd rfl (hr _)
  | ret ht hv hk => exact .ret ht (hv.asFinal hf rfl) (hf.pipe hk)
  | whileLoop ht hc hb => exact .whileLoop ht hc (hb.asFinal hf rfl)
  | forLoop ht hi hw hx hb => exact .forLoop ht hi hw hx (hb.asFinal hf rfl)
  | assign hi hs hv hk => exact .assign hi hs (hv.asFinal hf rfl) (hf.pipe hk)
  | @exprStatement tok vs value next hv hk hassign =>
    refine .exprStatement (hv.asFinal hf rfl) (hf.pipe hk) fun hi => ?_
    cases vs with
    | nil => exact ha
    | cons v vs => exact hassign hi

end PipeCompiler.Grammar
