import Mathlib.Logic.Function.Iterate
import PipeCompiler.Number
import PipeCompiler.Program.Basic

/-! The grammar of programs.

`Derives phrase toks` says that the tokens `toks`, all of them and in this order, can be read as
`phrase`. The relation is stratified: an expression of one level is built from operands of its own
level on the left and of the next tighter one on the right, so a derivation fixes how the operators
group. Nothing here mentions how a parser finds a derivation. -/
namespace PipeCompiler.Grammar

/-- How tightly an expression holds together, from the loosest to the tightest. -/
inductive Level
  | pipeline | or | and | equality | comparison | sum | product | unary | call | primary
deriving DecidableEq, Repr

namespace Level

/-- The next tighter level. -/
def tighter : Level → Level
  | pipeline => or
  | or => and
  | and => equality
  | equality => comparison
  | comparison => sum
  | sum => product
  | product => unary
  | unary => call
  | call => primary
  | primary => primary

/-- The binary operators of a level. -/
def operators : Level → List Token.Kind
  | or => [.or]
  | and => [.and]
  | equality => [.eq, .notEq]
  | comparison => [.lt, .lte, .gt, .gte]
  | sum => [.plus, .minus]
  | product => [.asterisk, .slash, .percent]
  | pipeline | unary | call | primary => []

/-- The tokens with which an expression of a level is made wider. -/
def suffixes : Level → List Token.Kind
  | pipeline => [.pipe]
  | call => [.lparen]
  | level => level.operators

theorem mem_suffixes {level : Level} {k : Token.Kind} (h : k ∈ level.operators) :
    k ∈ level.suffixes := by
  revert k
  cases level <;> decide

/-- The levels, from the loosest to the tightest. -/
def order : List Level :=
  [pipeline, or, and, equality, comparison, sum, product, unary, call, primary]

theorem tighter_pipeline (level : Level) : tighter^[order.idxOf level] pipeline = level := by
  cases level <;> rfl

theorem tighter_eq_call {level : Level} (h : level ≠ primary) :
    tighter^[8 - order.idxOf level] level = call := by
  cases level with
  | primary => exact absurd rfl h
  | _ => rfl

/-- The tokens with which an expression of a level, or a tighter one in it, is made wider. -/
def continuations (level : Level) : List Token.Kind :=
  (order.dropWhile (· ≠ level)).flatMap suffixes

theorem continuations_eq (level : Level) :
    level.continuations = level.suffixes ++ level.tighter.continuations := by
  cases level <;> rfl

/-- What makes an expression wider at its own level does not do so at a tighter one. -/
theorem notMem_tighter {level : Level} {k : Token.Kind} (h : k ∈ level.suffixes) :
    k ∉ level.tighter.continuations := by
  revert k
  cases level <;> decide

/-- The tokens with which an expression of a level begins, if it begins with no block. -/
def starts : Level → List Token.Kind
  | primary | call => [.ifWord, .bar, .or, .lbracket, .lparen, .number, .string, .trueWord,
      .falseWord, .nullWord, .ident]
  | _ => [.bang, .minus, .ifWord, .bar, .or, .lbracket, .lparen, .number, .string, .trueWord,
      .falseWord, .nullWord, .ident]

theorem starts_tighter {level : Level} {k : Token.Kind} (h : k ∈ level.tighter.starts) :
    k ∈ level.starts := by
  revert k
  cases level <;> decide

end Level

/-- What a stretch of tokens can be read as. -/
inductive Phrase
  /-- A statement, without the semicolon that may end it. -/
  | statement (s : Stmt)
  /-- Statements, each with a semicolon behind it or without. -/
  | statements (body : List Stmt)
  /-- Statements between braces. -/
  | block (brace : Token) (body : List Stmt)
  | expr (level : Level) (e : Expr)
  /-- A choice, from the word `if` on. -/
  | choice (e : Expr)
  /-- What follows the condition of a choice. -/
  | consequence (e : Expr)
  /-- What follows the word `else`. -/
  | alternative (e : Expr)
  /-- A block or any expression. -/
  | branch (e : Expr)
  /-- Expressions with commas between them, and the token that closes the list. -/
  | exprs (closing : Token.Kind) (es : List Expr)

/-- A name is one token. -/
def IsName (toks : List Token) (n : Name) : Prop :=
  ∃ id : Token, id.kind = .ident ∧ toks = [id] ∧ n = .mk id id.literal

/-- A statement may end with one semicolon. -/
def IsEnding (toks : List Token) : Prop :=
  toks = [] ∨ ∃ tok : Token, tok.kind = .semicolon ∧ toks = [tok]

/-- Only names and calls can be piped into. -/
def IsPipeTarget (e : Expr) : Prop :=
  (∃ n, e = .name n) ∨ ∃ tok callee args, e = .call tok callee args

/-- Items with commas between them, and the token that closes the list. -/
inductive Listed {α : Type} (Item : List Token → α → Prop) (closing : Token.Kind) :
    List Token → List α → Prop
  | empty {close : Token} (hc : close.kind = closing) : Listed Item closing [close] []
  | last {close : Token} {ts : List Token} {x : α} (hx : Item ts x) (hc : close.kind = closing) :
      Listed Item closing (ts ++ [close]) [x]
  | more {comma : Token} {ts us : List Token} {x y : α} {ys : List α} (hx : Item ts x)
      (hc : comma.kind = .comma) (hys : Listed Item closing us (y :: ys)) :
      Listed Item closing (ts ++ comma :: us) (x :: y :: ys)

/-- The tokens can be read as the phrase. -/
inductive Derives : Phrase → List Token → Prop
  -- Statements.
  | declare {tok id sign : Token} {vs : List Token} {value : Expr}
      (ht : tok.kind = .letWord ∨ tok.kind = .varWord) (hi : id.kind = .ident)
      (hs : sign.kind = .assign) (hv : Derives (.expr .pipeline value) vs) :
      Derives (.statement (.declare tok (tok.kind = .letWord) (.mk id id.literal) value))
        (tok :: id :: sign :: vs)
  | conciseFunction {tok id paren sign : Token} {ps bs : List Token} {params : List Name}
      {body : Expr} (ht : tok.kind = .fnWord) (hi : id.kind = .ident) (hp : paren.kind = .lparen)
      (hps : Listed IsName .rparen ps params) (hs : sign.kind = .assign)
      (hb : Derives (.expr .pipeline body) bs) :
      Derives (.statement (.function tok (.mk id id.literal) params body true))
        (tok :: id :: paren :: (ps ++ sign :: bs))
  | blockFunction {tok id paren brace : Token} {ps bs : List Token} {params : List Name}
      {body : List Stmt} (ht : tok.kind = .fnWord) (hi : id.kind = .ident)
      (hp : paren.kind = .lparen) (hps : Listed IsName .rparen ps params)
      (hb : Derives (.block brace body) bs) :
      Derives (.statement (.function tok (.mk id id.literal) params (.block brace body) false))
        (tok :: id :: paren :: (ps ++ bs))
  | leave {tok : Token} (ht : tok.kind = .returnWord) :
      Derives (.statement (.ret tok .missing)) [tok]
  | ret {tok : Token} {vs : List Token} {value : Expr} (ht : tok.kind = .returnWord)
      (hv : Derives (.expr .pipeline value) vs) :
      Derives (.statement (.ret tok value)) (tok :: vs)
  | whileLoop {tok brace : Token} {cs bs : List Token} {test : Expr} {body : List Stmt}
      (ht : tok.kind = .whileWord) (hc : Derives (.expr .pipeline test) cs)
      (hb : Derives (.block brace body) bs) :
      Derives (.statement (.whileLoop tok test (.block brace body))) (tok :: (cs ++ bs))
  | forLoop {tok id word brace : Token} {xs bs : List Token} {items : Expr} {body : List Stmt}
      (ht : tok.kind = .forWord) (hi : id.kind = .ident) (hw : word.kind = .inWord)
      (hx : Derives (.expr .pipeline items) xs) (hb : Derives (.block brace body) bs) :
      Derives (.statement (.forLoop tok (.mk id id.literal) items (.block brace body)))
        (tok :: id :: word :: (xs ++ bs))
  | assign {id sign : Token} {vs : List Token} {value : Expr} (hi : id.kind = .ident)
      (hs : sign.kind = .assign) (hv : Derives (.expr .pipeline value) vs) :
      Derives (.statement (.assign sign (.mk id id.literal) value)) (id :: sign :: vs)
  | exprStatement {first : Token} {vs : List Token} {value : Expr}
      (hv : Derives (.expr .pipeline value) (first :: vs)) :
      Derives (.statement (.expr first value)) (first :: vs)
  | noStatements : Derives (.statements []) []
  | moreStatements {ts ends us : List Token} {s : Stmt} {body : List Stmt}
      (hs : Derives (.statement s) ts) (he : IsEnding ends) (hb : Derives (.statements body) us) :
      Derives (.statements (s :: body)) (ts ++ ends ++ us)
  | block {brace close : Token} {bs : List Token} {body : List Stmt} (ht : brace.kind = .lbrace)
      (hb : Derives (.statements body) bs) (hc : close.kind = .rbrace) :
      Derives (.block brace body) (brace :: (bs ++ [close]))
  -- Operators. Any expression of a tighter level is one of the level around it.
  | tighter {level : Level} {ts : List Token} {e : Expr} (he : Derives (.expr level.tighter e) ts) :
      Derives (.expr level e) ts
  | pipe {tok : Token} {ls rs : List Token} {left target : Expr}
      (hl : Derives (.expr .pipeline left) ls) (ht : tok.kind = .pipe)
      (hr : Derives (.expr .or target) rs) (hp : IsPipeTarget target) :
      Derives (.expr .pipeline (.pipe tok left target)) (ls ++ tok :: rs)
  | binary {level : Level} {op : Token} {ls rs : List Token} {left right : Expr}
      (hl : Derives (.expr level left) ls) (ho : op.kind ∈ level.operators)
      (hr : Derives (.expr level.tighter right) rs) :
      Derives (.expr level (.binary op left op.literal right)) (ls ++ op :: rs)
  | unary {op : Token} {ts : List Token} {operand : Expr}
      (ho : op.kind = .bang ∨ op.kind = .minus) (he : Derives (.expr .unary operand) ts) :
      Derives (.expr .unary (.unary op op.literal operand)) (op :: ts)
  | call {tok : Token} {ls rs : List Token} {callee : Expr} {args : List Expr}
      (hl : Derives (.expr .call callee) ls) (ht : tok.kind = .lparen)
      (hr : Derives (.exprs .rparen args) rs) :
      Derives (.expr .call (.call tok callee args)) (ls ++ tok :: rs)
  -- What no operator holds together.
  | choicePrimary {ts : List Token} {e : Expr} (he : Derives (.choice e) ts) :
      Derives (.expr .primary e) ts
  | blockPrimary {brace : Token} {ts : List Token} {body : List Stmt}
      (hb : Derives (.block brace body) ts) : Derives (.expr .primary (.block brace body)) ts
  | lambda {tok : Token} {ps bs : List Token} {params : List Name} {body : Expr}
      (ht : tok.kind = .bar) (hps : Listed IsName .bar ps params)
      (hb : Derives (.branch body) bs) :
      Derives (.expr .primary (.lambda tok params body)) (tok :: (ps ++ bs))
  | thunk {tok : Token} {bs : List Token} {body : Expr} (ht : tok.kind = .or)
      (hb : Derives (.branch body) bs) :
      Derives (.expr .primary (.lambda tok [] body)) (tok :: bs)
  | array {tok : Token} {xs : List Token} {items : List Expr} (ht : tok.kind = .lbracket)
      (hx : Derives (.exprs .rbracket items) xs) :
      Derives (.expr .primary (.array tok items)) (tok :: xs)
  | parens {paren close : Token} {ts : List Token} {e : Expr} (hp : paren.kind = .lparen)
      (he : Derives (.expr .pipeline e) ts) (hc : close.kind = .rparen) :
      Derives (.expr .primary e) (paren :: (ts ++ [close]))
  | number {tok : Token} {value : Double} (ht : tok.kind = .number)
      (hv : Double.read? tok.literal = some value) :
      Derives (.expr .primary (.number tok value)) [tok]
  | string {tok : Token} (ht : tok.kind = .string) :
      Derives (.expr .primary (.string tok tok.literal)) [tok]
  | bool {tok : Token} (ht : tok.kind = .trueWord ∨ tok.kind = .falseWord) :
      Derives (.expr .primary (.bool tok (tok.kind = .trueWord))) [tok]
  | null {tok : Token} (ht : tok.kind = .nullWord) : Derives (.expr .primary (.null tok)) [tok]
  | name {id : Token} (hi : id.kind = .ident) :
      Derives (.expr .primary (.name (.mk id id.literal))) [id]
  -- Choices and branches.
  | ifThen {tok : Token} {cs ys : List Token} {test yes : Expr} (ht : tok.kind = .ifWord)
      (hc : Derives (.expr .pipeline test) cs) (hy : Derives (.consequence yes) ys) :
      Derives (.choice (.cond tok test yes .missing)) (tok :: (cs ++ ys))
  | ifThenElse {tok word : Token} {cs ys ns : List Token} {test yes no : Expr}
      (ht : tok.kind = .ifWord) (hc : Derives (.expr .pipeline test) cs)
      (hy : Derives (.consequence yes) ys) (hw : word.kind = .elseWord)
      (hn : Derives (.alternative no) ns) :
      Derives (.choice (.cond tok test yes no)) (tok :: (cs ++ ys ++ word :: ns))
  | blockConsequence {brace : Token} {ts : List Token} {body : List Stmt}
      (hb : Derives (.block brace body) ts) : Derives (.consequence (.block brace body)) ts
  | thenConsequence {word : Token} {ts : List Token} {e : Expr} (hw : word.kind = .thenWord)
      (he : Derives (.branch e) ts) : Derives (.consequence e) (word :: ts)
  | elseIf {ts : List Token} {e : Expr} (he : Derives (.choice e) ts) : Derives (.alternative e) ts
  | elseBranch {ts : List Token} {e : Expr} (he : Derives (.branch e) ts) :
      Derives (.alternative e) ts
  | blockBranch {brace : Token} {ts : List Token} {body : List Stmt}
      (hb : Derives (.block brace body) ts) : Derives (.branch (.block brace body)) ts
  | exprBranch {ts : List Token} {e : Expr} (he : Derives (.expr .pipeline e) ts) :
      Derives (.branch e) ts
  -- Lists of expressions.
  | noExprs {closing : Token.Kind} {close : Token} (hc : close.kind = closing) :
      Derives (.exprs closing []) [close]
  | lastExpr {closing : Token.Kind} {close : Token} {ts : List Token} {e : Expr}
      (he : Derives (.expr .pipeline e) ts) (hc : close.kind = closing) :
      Derives (.exprs closing [e]) (ts ++ [close])
  | moreExprs {closing : Token.Kind} {comma : Token} {ts us : List Token} {e x : Expr}
      {xs : List Expr} (he : Derives (.expr .pipeline e) ts) (hc : comma.kind = .comma)
      (hx : Derives (.exprs closing (x :: xs)) us) :
      Derives (.exprs closing (e :: x :: xs)) (ts ++ comma :: us)

/-- An expression of a level is one of every looser level. -/
theorem Derives.loosen {e : Expr} {ts : List Token} {level : Level} (steps : Nat)
    (h : Derives (.expr (Level.tighter^[steps] level) e) ts) : Derives (.expr level e) ts := by
  induction steps generalizing level with
  | zero => exact h
  | succ steps ih => exact .tighter (ih h)

theorem Derives.ofCall {e : Expr} {ts : List Token} (h : Derives (.expr .call e) ts)
    {level : Level} (hl : level ≠ .primary) : Derives (.expr level e) ts :=
  .loosen _ (by rwa [Level.tighter_eq_call hl])

theorem Derives.loosest {e : Expr} {ts : List Token} {level : Level}
    (h : Derives (.expr level e) ts) : Derives (.expr .pipeline e) ts :=
  .loosen _ (by rwa [Level.tighter_pipeline])

end PipeCompiler.Grammar
