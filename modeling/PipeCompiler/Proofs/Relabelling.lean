import PipeCompiler.Program.Parser

/-! Trees with other tokens.

A tree keeps a token at each node to locate it, and `retoken` exchanges them all. What a token
becomes may depend on where the tree keeps it. A relabelling treats all places alike: it may change
where tokens stand and how they are spelled, but neither what they are nor what they stand for. -/
namespace PipeCompiler

/-- A place where a tree keeps a token, with what the token may depend on there. -/
inductive Slot
  | declare (constant : Bool)
  | function
  | assign
  | ret
  | whileLoop
  | forLoop
  | expr (value : Expr)
  | cond
  | brace
  | operator (op : Bytes)
  | pipe
  | call
  | lambda (params : List Name)
  | name (text : Bytes)
  | number
  | string (value : Bytes)
  | bool
  | null
  | array

/-- Other tokens for the nodes of a tree, with the same operators, numbers and truth values. -/
structure Retokening where
  map : Slot → Token → Token
  operator_kind (op : Bytes) (tok : Token) : (map (.operator op) tok).kind = tok.kind
  number_literal (tok : Token) : (map .number tok).literal = tok.literal
  bool_kind (tok : Token) : (map .bool tok).kind = tok.kind
  bool_literal (tok : Token) : (map .bool tok).literal = tok.literal

def Name.retoken (g : Retokening) : Name → Name
  | .missing => .missing
  | .mk tok text => .mk (g.map (.name text) tok) text

mutual

def Stmt.retoken (g : Retokening) : Stmt → Stmt
  | .missing => .missing
  | .declare tok constant name value =>
    .declare (g.map (.declare constant) tok) constant (name.retoken g) (value.retoken g)
  | .function tok name params body concise =>
    .function (g.map .function tok) (name.retoken g) (params.map (Name.retoken g))
      (body.retoken g) concise
  | .assign tok name value => .assign (g.map .assign tok) (name.retoken g) (value.retoken g)
  | .ret tok value => .ret (g.map .ret tok) (value.retoken g)
  | .whileLoop tok test body =>
    .whileLoop (g.map .whileLoop tok) (test.retoken g) (body.retoken g)
  | .forLoop tok item items body =>
    .forLoop (g.map .forLoop tok) (item.retoken g) (items.retoken g) (body.retoken g)
  | .expr tok value => .expr (g.map (.expr value) tok) (value.retoken g)

def Body.retoken (g : Retokening) : Body → Body
  | .missing => .missing
  | .block brace stmts => .block (g.map .brace brace) (Stmt.retokenAll g stmts)

def Expr.retoken (g : Retokening) : Expr → Expr
  | .missing => .missing
  | .cond tok test yes no =>
    .cond (g.map .cond tok) (test.retoken g) (yes.retoken g) (no.retoken g)
  | .block brace body => .block (g.map .brace brace) (Stmt.retokenAll g body)
  | .binary tok left op right =>
    .binary (g.map (.operator op) tok) (left.retoken g) op (right.retoken g)
  | .unary tok op operand => .unary (g.map (.operator op) tok) op (operand.retoken g)
  | .pipe tok left target => .pipe (g.map .pipe tok) (left.retoken g) (target.retoken g)
  | .call tok callee args => .call (g.map .call tok) (callee.retoken g) (Expr.retokenAll g args)
  | .lambda tok params body =>
    .lambda (g.map (.lambda params) tok) (params.map (Name.retoken g)) (body.retoken g)
  | .name n => .name (n.retoken g)
  | .number tok value => .number (g.map .number tok) value
  | .string tok value => .string (g.map (.string value) tok) value
  | .bool tok value => .bool (g.map .bool tok) value
  | .null tok => .null (g.map .null tok)
  | .array tok items => .array (g.map .array tok) (Expr.retokenAll g items)

def Stmt.retokenAll (g : Retokening) : List Stmt → List Stmt
  | [] => []
  | s :: body => s.retoken g :: Stmt.retokenAll g body

def Expr.retokenAll (g : Retokening) : List Expr → List Expr
  | [] => []
  | e :: es => e.retoken g :: Expr.retokenAll g es

end

def Program.retoken (g : Retokening) (p : Program) : Program :=
  ⟨Stmt.retokenAll g p.body⟩

/-- Other places and spellings for tokens. -/
structure Token.Relabelling where
  map : Token → Token
  kind_map (tok : Token) : (map tok).kind = tok.kind
  literal_map (tok : Token) : (map tok).literal = tok.literal

instance : CoeFun Token.Relabelling fun _ => Token → Token := ⟨Token.Relabelling.map⟩

attribute [simp] Token.Relabelling.kind_map Token.Relabelling.literal_map

namespace Token.Relabelling

/-- A relabelling exchanges all tokens in the same way. -/
def everywhere (f : Token.Relabelling) : Retokening where
  map _ := f
  operator_kind _ := f.kind_map
  number_literal := f.literal_map
  bool_kind := f.kind_map
  bool_literal := f.literal_map

def identity : Token.Relabelling := ⟨id, fun _ => rfl, fun _ => rfl⟩

end Token.Relabelling

abbrev Name.relabel (f : Token.Relabelling) : Name → Name := Name.retoken f.everywhere

abbrev Stmt.relabel (f : Token.Relabelling) : Stmt → Stmt := Stmt.retoken f.everywhere

abbrev Expr.relabel (f : Token.Relabelling) : Expr → Expr := Expr.retoken f.everywhere

abbrev Program.relabel (f : Token.Relabelling) : Program → Program := Program.retoken f.everywhere

def Tokens.relabel (f : Token.Relabelling) (ts : Tokens) : Tokens :=
  ⟨ts.ahead.map f, f ts.stop⟩

def GrammarError.relabel (f : Token.Relabelling) (e : GrammarError) : GrammarError :=
  ⟨e.fault, f e.tok⟩

theorem Expr.retokenAll_eq_map (g : Retokening) (es : List Expr) :
    Expr.retokenAll g es = es.map (Expr.retoken g) := by
  induction es with
  | nil => rfl
  | cons e es ih => rw [Expr.retokenAll, ih, List.map_cons]

theorem Phrases.isPipeTarget_retoken (g : Retokening) (e : Expr) :
    isPipeTarget (e.retoken g) = isPipeTarget e := by
  cases e <;> rfl

variable {g : Retokening}

theorem Name.retoken_eq_self (hg : ∀ slot tok, g.map slot tok = tok) (n : Name) :
    n.retoken g = n := by
  cases n with
  | missing => rfl
  | mk tok text => simp only [Name.retoken, hg]

theorem Name.map_retoken_eq_self (hg : ∀ slot tok, g.map slot tok = tok) (ns : List Name) :
    ns.map (Name.retoken g) = ns :=
  (List.map_congr_left fun n _ => n.retoken_eq_self hg).trans (List.map_id ns)

mutual

theorem Stmt.retoken_eq_self (hg : ∀ slot tok, g.map slot tok = tok) (s : Stmt) :
    s.retoken g = s := by
  cases s with
  | missing => rfl
  | declare tok constant name value =>
    simp only [Stmt.retoken, hg, name.retoken_eq_self hg, Expr.retoken_eq_self hg value]
  | function tok name params body concise =>
    simp only [Stmt.retoken, hg, name.retoken_eq_self hg, Name.map_retoken_eq_self hg,
      Expr.retoken_eq_self hg body]
  | assign tok name value =>
    simp only [Stmt.retoken, hg, name.retoken_eq_self hg, Expr.retoken_eq_self hg value]
  | ret tok value => simp only [Stmt.retoken, hg, Expr.retoken_eq_self hg value]
  | whileLoop tok test body =>
    simp only [Stmt.retoken, hg, Expr.retoken_eq_self hg test, Body.retoken_eq_self hg body]
  | forLoop tok item items body =>
    simp only [Stmt.retoken, hg, item.retoken_eq_self hg, Expr.retoken_eq_self hg items,
      Body.retoken_eq_self hg body]
  | expr tok value => simp only [Stmt.retoken, hg, Expr.retoken_eq_self hg value]

theorem Body.retoken_eq_self (hg : ∀ slot tok, g.map slot tok = tok) (body : Body) :
    body.retoken g = body := by
  cases body with
  | missing => rfl
  | block brace stmts => simp only [Body.retoken, hg, Stmt.retokenAll_eq_self hg stmts]

theorem Expr.retoken_eq_self (hg : ∀ slot tok, g.map slot tok = tok) (e : Expr) :
    e.retoken g = e := by
  cases e with
  | missing => rfl
  | cond tok test yes no =>
    simp only [Expr.retoken, hg, Expr.retoken_eq_self hg test, Expr.retoken_eq_self hg yes,
      Expr.retoken_eq_self hg no]
  | block brace body => simp only [Expr.retoken, hg, Stmt.retokenAll_eq_self hg body]
  | binary tok left op right =>
    simp only [Expr.retoken, hg, Expr.retoken_eq_self hg left, Expr.retoken_eq_self hg right]
  | unary tok op operand => simp only [Expr.retoken, hg, Expr.retoken_eq_self hg operand]
  | pipe tok left target =>
    simp only [Expr.retoken, hg, Expr.retoken_eq_self hg left, Expr.retoken_eq_self hg target]
  | call tok callee args =>
    simp only [Expr.retoken, hg, Expr.retoken_eq_self hg callee, Expr.retokenAll_eq_self hg args]
  | lambda tok params body =>
    simp only [Expr.retoken, hg, Name.map_retoken_eq_self hg, Expr.retoken_eq_self hg body]
  | name n => simp only [Expr.retoken, n.retoken_eq_self hg]
  | array tok items => simp only [Expr.retoken, hg, Expr.retokenAll_eq_self hg items]
  | number | string | bool | null => simp only [Expr.retoken, hg]

theorem Stmt.retokenAll_eq_self (hg : ∀ slot tok, g.map slot tok = tok) (body : List Stmt) :
    Stmt.retokenAll g body = body := by
  cases body with
  | nil => rfl
  | cons s body =>
    simp only [Stmt.retokenAll, Stmt.retoken_eq_self hg s, Stmt.retokenAll_eq_self hg body]

theorem Expr.retokenAll_eq_self (hg : ∀ slot tok, g.map slot tok = tok) (es : List Expr) :
    Expr.retokenAll g es = es := by
  cases es with
  | nil => rfl
  | cons e es =>
    simp only [Expr.retokenAll, Expr.retoken_eq_self hg e, Expr.retokenAll_eq_self hg es]

end

theorem Program.relabel_identity (p : Program) : p.relabel .identity = p :=
  congrArg Program.mk (Stmt.retokenAll_eq_self (fun _ _ => rfl) p.body)

end PipeCompiler
