import PipeCompiler.Proofs.PrintedTokens

/-! Programs whose text shows where their parts end.

Operations are printed in parentheses, but anonymous functions and choices are not, and the line
breaks between statements mean nothing to the parser. A program is separated if its text shows
nevertheless where each part ends. Then its tokens are read as the program again. -/
namespace PipeCompiler

open Grammar

/-- The tokens that the text of a tree has for its nodes. -/
def Retokening.printed : Retokening where
  map
    | .declare constant, _ => if constant then .shown .letWord "let" else .shown .varWord "var"
    | .function, _ => .shown .fnWord "fn"
    | .assign, _ => .shown .assign "="
    | .ret, _ => .shown .returnWord "return"
    | .whileLoop, _ => .shown .whileWord "while"
    | .forLoop, _ => .shown .forWord "for"
    | .expr value, _ => value.opener
    | .cond, _ => .shown .ifWord "if"
    | .brace, _ => .shown .lbrace "\x7b"
    | .operator op, tok => .shown tok.kind op
    | .pipe, _ => .shown .pipe "|>"
    | .call, _ => .shown .lparen "("
    | .lambda [], _ => .shown .or "||"
    | .lambda (_ :: _), _ => .shown .bar "|"
    | .name text, _ => .shown .ident text
    | .number, tok => .shown .number tok.literal
    | .string value, _ => .shown .string value
    | .bool, tok => .shown tok.kind tok.literal
    | .null, _ => .shown .nullWord "null"
    | .array, _ => .shown .lbracket "["
  operator_kind _ _ := rfl
  number_literal _ := rfl
  bool_kind _ := rfl
  bool_literal _ := rfl

/-- The name with the token that it has in a text. -/
def Name.asPrinted (n : Name) : Name :=
  n.retoken .printed

/-- The statement with the tokens of its text in the place of its own. -/
def Stmt.asPrinted (s : Stmt) : Stmt :=
  s.retoken .printed

/-- The expression with the tokens of its text in the place of its own. -/
def Expr.asPrinted (e : Expr) : Expr :=
  e.retoken .printed

/-- The program with the tokens of its text in the place of its own. -/
def Program.asPrinted (p : Program) : Program :=
  p.retoken .printed

namespace Expr

/-- An expression that is a choice. -/
def isChoice : Expr → Bool
  | .cond .. => true
  | _ => false

/-- Operators and argument lists behind the expression would be read as a part of it. -/
def isOpen : Expr → Bool
  | .lambda _ _ body => !body.isBlock
  | .cond _ _ yes no =>
    if no.isPresent then (if no.isChoice then no.isOpen else !no.isBlock) else !yes.isBlock
  | _ => false

/-- The word `else` behind the expression would be read as a part of it. -/
def lacksElse : Expr → Bool
  | .lambda _ _ body => body.lacksElse
  | .cond _ _ _ no => !no.isPresent || no.lacksElse
  | _ => false

/-- Where a block may stand too, the expression is one or does not begin with one. -/
def isBranch (e : Expr) : Bool :=
  e.isBlock || e.opener.kind != .lbrace

/-- Where another choice may stand too, the expression is one or does not begin with one. -/
def isAlternative (e : Expr) : Bool :=
  e.isChoice || (e.isBranch && e.opener.kind != .ifWord)

end Expr

/-- Every unit of the text is a character that a string can show. -/
def Quoted.isLegible (s : Bytes) : Bool :=
  (glyphs s).all fun g => match g with
    | .char c => Shows c
    | .stray _ => false

mutual

/-- The text of the statement shows where each part of it ends. -/
def Stmt.isSeparated : Stmt → Bool
  | .missing => true
  | .declare _ _ _ value | .assign _ _ value | .ret _ value | .expr _ value => value.isSeparated
  | .function _ _ _ body _ => body.isSeparated
  | .whileLoop _ test body => test.isSeparated && body.isSeparated
  | .forLoop _ _ items body => items.isSeparated && body.isSeparated

def Body.isSeparated : Body → Bool
  | .missing => true
  | .block _ stmts => Stmt.areSeparated stmts

/-- The text of the expression shows where each part of it ends, and what its strings are. -/
def Expr.isSeparated : Expr → Bool
  | .cond _ test yes no =>
    test.isSeparated && yes.isSeparated && yes.isBranch && no.isSeparated &&
      (!no.isPresent || (!yes.lacksElse && no.isAlternative))
  | .block _ body => Stmt.areSeparated body
  | .binary _ left _ right => !left.isOpen && left.isSeparated && right.isSeparated
  | .unary _ _ operand => operand.isSeparated
  | .pipe _ left target => !left.isOpen && left.isSeparated && target.isSeparated
  | .call _ callee args => !callee.isOpen && callee.isSeparated && Expr.areSeparated args
  | .lambda _ _ body => body.isBranch && body.isSeparated
  | .string _ value => Quoted.isLegible value
  | .array _ items => Expr.areSeparated items
  | .missing | .name _ | .number .. | .bool .. | .null _ => true

def Stmt.areSeparated : List Stmt → Bool
  | [] => true
  | s :: body => s.isSeparated && Stmt.areSeparated body

def Expr.areSeparated : List Expr → Bool
  | [] => true
  | e :: es => e.isSeparated && Expr.areSeparated es

end

namespace Stmt

/-- The first token of a statement. -/
def opener : Stmt → Token
  | .missing => .shown .eof []
  | .declare _ constant _ _ => if constant then .shown .letWord "let" else .shown .varWord "var"
  | .function .. => .shown .fnWord "fn"
  | .assign _ name _ => name.token
  | .ret .. => .shown .returnWord "return"
  | .whileLoop .. => .shown .whileWord "while"
  | .forLoop .. => .shown .forWord "for"
  | .expr _ value => value.opener

/-- What follows the statement is never read as a part of it. -/
def endsWithBrace : Stmt → Bool
  | .function _ _ _ _ concise => !concise
  | .whileLoop .. | .forLoop .. => true
  | _ => false

def isBareReturn : Stmt → Bool
  | .ret _ .missing => true
  | _ => false

/-- With only a line break between the two, the second statement is not read as a part of the
first. -/
def mayPrecede (s t : Stmt) : Bool :=
  !s.isBareReturn && (s.endsWithBrace || !([.lparen, .or].contains t.opener.kind))

end Stmt

/-- The text of the program shows where each statement and each part of it ends. -/
def Program.isSeparated (p : Program) : Bool :=
  Stmt.areSeparated p.body && (p.body.zip p.body.tail).all fun (s, t) => s.mayPrecede t

/-- The tokens that the text of a statement begins with. -/
def Token.Kind.openers : List Token.Kind :=
  [.letWord, .varWord, .fnWord, .returnWord, .whileWord, .forWord, .ifWord, .lbrace, .lparen, .or,
    .bar, .ident, .number, .string, .trueWord, .falseWord, .nullWord, .lbracket]

/-- The tokens are known to begin with the opener, and if they begin with a name, it is not assigned
to. -/
structure Opening (ts : List Token) (opener : Token) : Prop where
  eq_cons : ∃ us, ts = opener :: us ∧
    (opener.kind = .ident → ∀ next, next ≠ .assign → first us next ≠ .assign)
  mem : opener.kind ∈ Token.Kind.openers

theorem Opening.cons {opener : Token} (hk : opener.kind ∈ Token.Kind.openers)
    (hne : opener.kind ≠ .ident) (us : List Token) : Opening (opener :: us) opener :=
  ⟨⟨us, rfl, fun h => absurd h hne⟩, hk⟩

theorem Grammar.Formed.opening {P : Token → Prop} {e : Expr} (h : Formed P (.expr e)) :
    Opening e.tokens e.opener := by
  generalize htree : Tree.expr e = t at h
  induction h generalizing e with
  | call ht hk hc ha ihc iha =>
    cases htree
    obtain ⟨⟨us, hus, hassign⟩, hmem⟩ := ihc rfl
    refine ⟨⟨us ++ _, by rw [Expr.tokens, hus]; rfl, fun hi next hnext => ?_⟩, hmem⟩
    have hparen : Token.Kind.lparen ≠ .assign := by decide
    rw [first_append]
    exact hassign hi _ hparen
  | @lambda tok params body =>
    cases htree
    cases params with
    | nil => exact Opening.cons (by decide) (by decide) _
    | cons n ns => exact Opening.cons (by decide) (by decide) _
  | name =>
    cases htree
    exact ⟨⟨[], rfl, fun _ _ hnext => hnext⟩, by simp [Expr.opener, Name.token, Token.Kind.openers]⟩
  | bool ht hk =>
    cases htree
    rcases hk with hk | hk
    · exact Opening.cons (by simp [hk, Token.Kind.openers]) (by simp [hk]) _
    · exact Opening.cons (by simp [hk, Token.Kind.openers]) (by simp [hk]) _
  | number | string | null | array | binary | unary | pipeName | pipeCall | ifThen | ifThenElse
  | block =>
    cases htree
    exact Opening.cons (by simp [Token.Kind.openers]) (by simp) _
  | _ => cases htree

private theorem Grammar.Level.continuations_subset {level : Level} {k : Token.Kind}
    (h : k ∈ level.continuations) : k ∈ Level.pipeline.continuations := by
  revert k
  cases level <;> decide

/-- What follows is not read as a part of the expression. -/
structure Expr.EndsBefore (e : Expr) (next : Token.Kind) : Prop where
  suffix : e.isOpen = true → next ∉ Level.pipeline.continuations
  alternative : e.lacksElse = true → next ≠ .elseWord

private theorem Expr.endsBefore_closer (e : Expr) {next : Token.Kind} (h : next ∈ closers) :
    e.EndsBefore next :=
  ⟨fun _ => (notMem_of_closer h).1, fun _ => (notMem_of_closer h).2.1⟩

/-- A suffix ends everything that is not open. -/
theorem Expr.endsBefore_suffix {e : Expr} {next : Token.Kind} (h : e.isOpen = false)
    (hk : next ≠ .elseWord) : e.EndsBefore next :=
  ⟨fun ho => by simp [h] at ho, fun _ => hk⟩

/-- What the tokens of an expression are in the first place. -/
def Expr.phrase : Expr → Phrase
  | .block _ body => .block (.shown .lbrace "\x7b") (Stmt.retokenAll .printed body)
  | .cond tok test yes no => .choice (Expr.cond tok test yes no).asPrinted
  | e => .expr .call e.asPrinted

/-- The tokens of the expression are read as the expression. -/
def Expr.IsFound (e : Expr) : Prop :=
  ∀ next, e.EndsBefore next → Greedy e.phrase e.tokens next

theorem Token.list_cons_cons (ts us : List Token) (items : List (List Token)) :
    Token.list (ts :: us :: items) = ts ++ .shown .comma "," :: Token.list (us :: items) := by
  rw [Token.list, List.intercalate_cons_cons, List.append_assoc]
  rfl

theorem Grammar.FormedName.asPrinted_eq {P : Token → Prop} {n : Name} (h : FormedName P n) :
    n.asPrinted = .mk n.token n.token.literal := by
  rw [h.eq_mk]
  rfl

/-- Names with commas between them, and the token that closes the list. -/
theorem Grammar.FormedName.listed {P : Token → Prop} {ns : List Name}
    (h : ∀ n ∈ ns, FormedName P n) (close : Token) :
    Listed IsName close.kind (Name.tokens ns ++ [close]) (ns.map Name.asPrinted) := by
  induction ns with
  | nil => exact .empty rfl
  | cons n ns ih =>
    rw [List.forall_mem_cons] at h
    have hname : IsName [n.token] n.asPrinted := ⟨n.token, rfl, rfl, h.1.asPrinted_eq⟩
    cases ns with
    | nil => exact .last hname rfl
    | cons m ms =>
      rw [Name.tokens, List.map_cons, List.map_cons, Token.list_cons_cons, List.append_assoc]
      exact .more hname rfl (ih h.2)

section Expressions

variable {P : Token → Prop} {next : Token.Kind} {e : Expr} {tok : Token} {ts : List Token}

theorem Grammar.Greedy.ofPrimary (h : Greedy (.expr .primary e) ts next) :
    Greedy (.expr .call e) ts next :=
  .tighter h (by simp [Level.tighter, Level.suffixes, Level.operators])

theorem Grammar.Greedy.ofPhrase (h : Greedy e.phrase ts next) :
    Greedy (.expr .call e.asPrinted) ts next := by
  cases e with
  | block brace body => exact .ofPrimary (.blockPrimary h)
  | cond tok test yes no => exact .ofPrimary (.choicePrimary h)
  | _ => exact h

theorem Grammar.Greedy.inParens {level : Level} (h : Greedy (.expr level e) ts .rparen) :
    Greedy (.expr .call e) (.shown .lparen "(" :: (ts ++ [.shown .rparen ")"])) next :=
  .ofPrimary (.parens rfl (h.loosest (by decide)) rfl)

namespace Expr.IsFound

/-- An operand of any level. -/
theorem operand {level : Level} (h : e.IsFound) (hend : e.EndsBefore next) (hl : level ≠ .primary)
    (hk : next ∉ level.tighter.continuations) : Greedy (.expr level e.asPrinted) e.tokens next :=
  (h next hend).ofPhrase.ofCall hl hk

/-- In a place of its own, an expression of any level. -/
theorem closed (h : e.IsFound) (level : Level) (hl : level ≠ .primary)
    (hk : next ∈ closers) : Greedy (.expr level e.asPrinted) e.tokens next :=
  h.operand (e.endsBefore_closer hk) hl fun hmem =>
    (notMem_of_closer hk).1 (Level.continuations_subset hmem)

theorem binary {level : Level} {op : Token} {left right : Expr} {text : Bytes}
    (hk : op.kind ∈ level.operators) (hl : left.IsFound) (hopen : left.isOpen = false)
    (hr : right.IsFound) : (Expr.binary op left text right).IsFound := by
  intro next _
  have hlevels : ∀ level : Level, ∀ k ∈ level.operators, k ≠ .elseWord ∧ level ≠ .primary ∧
      level.tighter ≠ .primary ∧ .rparen ∉ level.tighter.suffixes := by
    intro level
    cases level <;> decide
  obtain ⟨helse, hlevel, htighter, hsuffix⟩ := hlevels level _ hk
  have hleft := hl.operand (endsBefore_suffix hopen helse) hlevel
    (Level.notMem_tighter (Level.mem_suffixes hk))
  have hright : Greedy (.expr level.tighter right.asPrinted) right.tokens .rparen :=
    hr.closed level.tighter htighter (by decide)
  have hboth : Greedy (.expr level (Expr.binary op left text right).asPrinted)
      (left.tokens ++ .shown op.kind text :: right.tokens) .rparen :=
    .binary hleft hk hright hsuffix
  exact hboth.inParens

theorem unary {op : Token} {operand : Expr} {text : Bytes}
    (hk : op.kind = .bang ∨ op.kind = .minus) (he : operand.IsFound) :
    (Expr.unary op text operand).IsFound := by
  intro next _
  have hoperand : Greedy (.expr .unary operand.asPrinted) operand.tokens .rparen :=
    he.closed .unary (by decide) (by decide)
  have hboth : Greedy (.expr .unary (Expr.unary op text operand).asPrinted)
      (.shown op.kind text :: operand.tokens) .rparen :=
    .unary hk hoperand
  exact hboth.inParens

theorem pipe {left target : Expr} (hl : left.IsFound) (hopen : left.isOpen = false)
    (ht : target.IsFound) (hp : IsPipeTarget target.asPrinted) :
    (Expr.pipe tok left target).IsFound := by
  intro next _
  have hleft : Greedy (.expr .pipeline left.asPrinted) left.tokens .pipe :=
    hl.operand (endsBefore_suffix hopen (by decide)) (by decide) (by decide)
  have htarget : Greedy (.expr .or target.asPrinted) target.tokens .rparen :=
    ht.closed .or (by decide) (by decide)
  have hboth : Greedy (.expr .pipeline (Expr.pipe tok left target).asPrinted)
      (left.tokens ++ .shown .pipe "|>" :: target.tokens) .rparen :=
    .pipe hleft rfl htarget (by decide) hp
  exact hboth.inParens

/-- Expressions with commas between them, and the token that closes the list. -/
theorem list (close : Token) {es : List Expr} (hes : ∀ e ∈ es, e.IsFound)
    (hc : close.kind ∈ closers) :
    Greedy (.exprs close.kind (Expr.retokenAll .printed es))
      (Token.list (Expr.tokensAll es) ++ [close]) next := by
  induction es with
  | nil => exact .noExprs rfl
  | cons e es ih =>
    rw [List.forall_mem_cons] at hes
    cases es with
    | nil =>
      have hlast := hes.1.closed .pipeline (by decide) hc
      rw [Expr.tokensAll, Expr.tokensAll, Token.list, List.intercalate_singleton]
      exact .lastExpr hlast rfl
    | cons x xs =>
      have he : Greedy (.expr .pipeline e.asPrinted) e.tokens .comma :=
        hes.1.closed .pipeline (by decide) (by decide)
      rw [Expr.tokensAll, Expr.tokensAll, Token.list_cons_cons, List.append_assoc]
      exact .moreExprs he rfl (ih hes.2)

theorem call {callee : Expr} {args : List Expr} (hc : callee.IsFound)
    (hopen : callee.isOpen = false) (ha : ∀ e ∈ args, e.IsFound) :
    (Expr.call tok callee args).IsFound := by
  intro next _
  have hcallee := (hc .lparen (endsBefore_suffix hopen (by decide))).ofPhrase
  exact .call hcallee rfl (list (.shown .rparen ")") ha (by decide))

theorem array {items : List Expr} (hi : ∀ e ∈ items, e.IsFound) :
    (Expr.array tok items).IsFound := by
  intro next _
  exact .ofPrimary (.array rfl (list (.shown .rbracket "]") hi (by decide)))

/-- Where a block may stand too. -/
theorem branch (h : e.IsFound) (hf : Opening e.tokens e.opener) (hb : e.isBranch = true)
    (hsuffix : e.isBlock = false → next ∉ Level.pipeline.continuations)
    (helse : e.lacksElse = true → next ≠ .elseWord) :
    Greedy (.branch e.asPrinted) e.tokens next := by
  by_cases hblock : e.isBlock = true
  · cases e with
    | block brace body => exact .blockBranch (h next ⟨nofun, nofun⟩)
    | _ => cases hblock
  · rw [Bool.not_eq_true] at hblock
    have hnext := hsuffix hblock
    have hexpr := (h next ⟨fun _ => hnext, helse⟩).ofPhrase.loosest hnext
    obtain ⟨⟨us, hus, -⟩, -⟩ := hf
    apply Greedy.exprBranch hexpr
    · rintro rfl
      exact hnext (by decide)
    · rw [hus]
      simpa [isBranch, hblock] using hb

/-- What follows the condition of a choice. -/
theorem consequence (h : e.IsFound) (next : Token.Kind) (hf : Opening e.tokens e.opener)
    (hb : e.isBranch = true) (hsuffix : e.isBlock = false → next ∉ Level.pipeline.continuations)
    (helse : e.lacksElse = true → next ≠ .elseWord) :
    Greedy (.consequence e.asPrinted)
      ((if e.isBlock then [] else [.shown .thenWord "then"]) ++ e.tokens) next := by
  split
  · rename_i hblock
    cases e with
    | block brace body => exact .blockConsequence (h next ⟨nofun, nofun⟩)
    | _ => cases hblock
  · exact .thenConsequence rfl (h.branch hf hb hsuffix helse)

/-- What follows the word `else`. -/
theorem alternative (h : e.IsFound) (hf : Opening e.tokens e.opener) (ha : e.isAlternative = true)
    (hsuffix : (if e.isChoice then e.isOpen else !e.isBlock) = true →
      next ∉ Level.pipeline.continuations)
    (helse : e.lacksElse = true → next ≠ .elseWord) :
    Greedy (.alternative e.asPrinted) e.tokens next := by
  by_cases hchoice : e.isChoice = true
  · rw [if_pos hchoice] at hsuffix
    cases e with
    | cond tok test yes no => exact .elseIf (h next ⟨hsuffix, helse⟩)
    | _ => cases hchoice
  · rw [if_neg hchoice] at hsuffix
    rw [Bool.not_eq_true] at hchoice
    simp only [isAlternative, hchoice, Bool.false_or, Bool.and_eq_true] at ha
    have hbranch := h.branch hf ha.1 (fun hblock => hsuffix (by simp [hblock])) helse
    apply Greedy.elseBranch hbranch
    obtain ⟨⟨us, hus, -⟩, -⟩ := hf
    rw [hus]
    simpa using ha.2

/-- The condition ends before the consequence. -/
theorem condition (h : e.IsFound) {yes : Expr} (hy : Greedy (.consequence yes) ts next) :
    Greedy (.expr .pipeline e.asPrinted) e.tokens (first ts next) := by
  have hfirst : first ts next ∈ [.lbrace, .thenWord] := (hy.derives.opens (by simp)).first_mem next
  apply h.closed .pipeline (by decide)
  revert hfirst
  generalize first ts next = k
  revert k
  decide

theorem ifThen {test yes : Expr} (ht : test.IsFound) (hy : yes.IsFound)
    (hf : Opening yes.tokens yes.opener) (hb : yes.isBranch = true) :
    (Expr.cond tok test yes .missing).IsFound := by
  intro next hnext
  have hmissing : next ≠ .elseWord := hnext.alternative rfl
  have hyes := hy.consequence next hf hb
    (fun hblock => hnext.suffix (by simp [isOpen, isPresent, hblock])) fun _ => hmissing
  simp only [Expr.tokens, isPresent, Bool.false_eq_true, if_false, List.append_nil]
  exact .ifThen rfl (ht.condition hyes) hyes hmissing

theorem ifThenElse {test yes no : Expr} (ht : test.IsFound) (hy : yes.IsFound) (hn : no.IsFound)
    (hfy : Opening yes.tokens yes.opener) (hfn : Opening no.tokens no.opener)
    (hby : yes.isBranch = true) (hey : yes.lacksElse = false) (han : no.isAlternative = true)
    (hpresent : no.isPresent = true) : (Expr.cond tok test yes no).IsFound := by
  intro next hnext
  have hyes := hy.consequence .elseWord hfy hby (fun _ => by decide) (by simp [hey])
  have hno : Greedy (.alternative no.asPrinted) no.tokens next := by
    apply hn.alternative hfn han
    · intro hopen
      exact hnext.suffix (by rw [isOpen, if_pos hpresent, hopen])
    · intro helse
      exact hnext.alternative (by rw [lacksElse, helse, Bool.or_true])
  rw [Expr.tokens, if_pos hpresent, ← List.append_assoc]
  exact .ifThenElse rfl (ht.condition hyes) hyes rfl hno

theorem lambda {params : List Name} (hps : ∀ n ∈ params, FormedName P n) (hb : e.IsFound)
    (hf : Opening e.tokens e.opener) (hbranch : e.isBranch = true) :
    (Expr.lambda tok params e).IsFound := by
  intro next hnext
  have hbody := hb.branch hf hbranch (fun hblock => hnext.suffix (by simp [isOpen, hblock]))
    hnext.alternative
  cases params with
  | nil => exact .ofPrimary (.thunk rfl hbody)
  | cons n ns =>
    have hparams := FormedName.listed hps (.shown .bar "|")
    rw [Expr.tokens, List.append_cons]
    exact .ofPrimary (.lambda rfl hparams hbody)

end Expr.IsFound

private theorem Quoted.reread_of_isLegible {s : Bytes} (h : isLegible s = true) : reread s = s := by
  have hglyph : ∀ g ∈ glyphs s, rereadGlyph g = g.bytes := by
    intro g hg
    have hshown := List.all_eq_true.mp h g hg
    cases g with
    | char c => exact if_pos (of_decide_eq_true hshown)
    | stray b => cases hshown
  calc reread s = ((glyphs s).map rereadGlyph).flatten := List.flatMap_def ..
    _ = ((glyphs s).map Glyph.bytes).flatten := by rw [List.map_congr_left hglyph]
    _ = s := by rw [← List.flatMap_def, glyphs_bytes]

private theorem Expr.isFound_name {n : Name} (h : FormedName P n) : (Expr.name n).IsFound := by
  intro next _
  have hid : n.token.kind = .ident := rfl
  have hname : (Expr.name n).asPrinted = .name (.mk n.token n.token.literal) :=
    congrArg Expr.name h.asPrinted_eq
  show Greedy (.expr .call (Expr.name n).asPrinted) [n.token] next
  rw [hname]
  exact .ofPrimary (.name hid)

private theorem Expr.isFound_string {value : Bytes} (h : Quoted.isLegible value = true) :
    (Expr.string tok value).IsFound := by
  intro next _
  rw [Expr.tokens, Quoted.reread_of_isLegible h]
  exact .ofPrimary (.string rfl)

private theorem Expr.isFound_bool (hk : tok.kind = .trueWord ∨ tok.kind = .falseWord) :
    (Expr.bool tok (tok.kind = .trueWord)).IsFound := by
  intro next _
  exact .ofPrimary (.bool hk)

end Expressions

/-- What follows is not read as a part of the statement. -/
structure Stmt.EndsBefore (s : Stmt) (next : Token.Kind) : Prop where
  suffix : s.endsWithBrace = false →
    next ∉ Level.pipeline.continuations ∧ next ≠ .elseWord ∧ next ≠ .assign
  bare : s.isBareReturn = true → next ∈ [.rbrace, .semicolon, .eof]

/-- The tokens of the statement are read as the statement. -/
def Stmt.IsFound (s : Stmt) : Prop :=
  ∀ next, s.EndsBefore next → Greedy (.statement s.asPrinted) s.tokens next

section Statements

variable {P : Token → Prop} {next : Token.Kind} {e : Expr} {tok brace : Token} {n : Name}
  {params : List Name} {body : List Stmt}

/-- The last part of a statement. -/
theorem Expr.IsFound.value (h : e.IsFound)
    (hnext : next ∉ Level.pipeline.continuations ∧ next ≠ .elseWord ∧ next ≠ .assign) :
    Greedy (.expr .pipeline e.asPrinted) e.tokens next ∧ next ≠ .pipe := by
  constructor
  · exact (h next ⟨fun _ => hnext.1, fun _ => hnext.2.1⟩).ofPhrase.loosest hnext.1
  · rintro rfl
    exact hnext.1 (by decide)

private theorem Expr.isFound_block (hb : ∀ s ∈ body, s.IsFound) :
    (Expr.block brace body).IsFound := by
  intro next hnext
  apply Greedy.block rfl _ rfl
  clear hnext
  induction body with
  | nil => exact .noStatements (by decide)
  | cons s body ih =>
    rw [List.forall_mem_cons] at hb
    cases body with
    | nil =>
      have hlast := hb.1 .rbrace ⟨fun _ => by decide, fun _ => by decide⟩
      rw [Stmt.tokensAll, Stmt.tokensAll, List.intercalate_singleton, ← List.append_nil s.tokens]
      exact .moreStatements hlast (by decide) (.noStatements (by decide))
    | cons t rest =>
      have hs := hb.1 .semicolon ⟨fun _ => by decide, fun _ => by decide⟩
      rw [Stmt.tokensAll, Stmt.tokensAll, List.intercalate_cons_cons, List.append_assoc]
      exact .closedStatement hs rfl (ih hb.2)

namespace Stmt

private theorem isFound_declare {constant : Bool} (hn : FormedName P n) (hv : e.IsFound) :
    (Stmt.declare tok constant n e).IsFound := by
  intro next hnext
  obtain ⟨hvalue, hpipe⟩ := hv.value (hnext.suffix rfl)
  have hid : n.token.kind = .ident := rfl
  rw [asPrinted, retoken, show n.retoken .printed = _ from hn.asPrinted_eq]
  cases constant with
  | true =>
    exact .declare (.inl rfl) hid rfl hvalue hpipe
  | false =>
    exact .declare (.inr rfl) hid rfl hvalue hpipe

private theorem isFound_conciseFunction (hn : FormedName P n) (hps : ∀ n ∈ params, FormedName P n)
    (hb : e.IsFound) : (Stmt.function tok n params e true).IsFound := by
  intro next hnext
  obtain ⟨hbody, hpipe⟩ := hb.value (hnext.suffix rfl)
  have hid : n.token.kind = .ident := rfl
  have hparams := FormedName.listed hps (.shown .rparen ")")
  rw [asPrinted, retoken, show n.retoken .printed = _ from hn.asPrinted_eq, Stmt.tokens,
    List.append_cons]
  exact .conciseFunction rfl hid rfl hparams rfl hbody hpipe

private theorem isFound_blockFunction (hn : FormedName P n) (hps : ∀ n ∈ params, FormedName P n)
    (hb : (Expr.block brace body).IsFound) :
    (Stmt.function tok n params (.block brace body) false).IsFound := by
  intro next hnext
  have hbody := hb next ⟨nofun, nofun⟩
  have hid : n.token.kind = .ident := rfl
  have hparams := FormedName.listed hps (.shown .rparen ")")
  rw [asPrinted, retoken, show n.retoken .printed = _ from hn.asPrinted_eq, Stmt.tokens,
    List.append_cons]
  exact .blockFunction rfl hid rfl hparams hbody

private theorem isFound_assign (hn : FormedName P n) (hv : e.IsFound) :
    (Stmt.assign tok n e).IsFound := by
  intro next hnext
  obtain ⟨hvalue, hpipe⟩ := hv.value (hnext.suffix rfl)
  have hid : n.token.kind = .ident := rfl
  rw [asPrinted, retoken, show n.retoken .printed = _ from hn.asPrinted_eq]
  exact .assign hid rfl hvalue hpipe

private theorem isFound_leave : (Stmt.ret tok .missing).IsFound := by
  intro next hnext
  exact .leave rfl (hnext.bare rfl)

private theorem isFound_ret (hv : e.IsFound) : (Stmt.ret tok e).IsFound := by
  intro next hnext
  obtain ⟨hvalue, hpipe⟩ := hv.value (hnext.suffix rfl)
  exact .ret rfl hvalue hpipe

private theorem isFound_whileLoop (ht : e.IsFound) (hb : (Expr.block brace body).IsFound) :
    (Stmt.whileLoop tok e (.block brace body)).IsFound := by
  intro next _
  exact .whileLoop rfl (ht.closed .pipeline (by decide) (by decide)) (hb next ⟨nofun, nofun⟩)

private theorem isFound_forLoop (hn : FormedName P n) (hx : e.IsFound)
    (hb : (Expr.block brace body).IsFound) :
    (Stmt.forLoop tok n e (.block brace body)).IsFound := by
  intro next _
  have hid : n.token.kind = .ident := rfl
  rw [asPrinted, retoken, show n.retoken .printed = _ from hn.asPrinted_eq]
  have hitems : Greedy (.expr .pipeline e.asPrinted) e.tokens .lbrace :=
    hx.closed .pipeline (by decide) (by decide)
  exact .forLoop rfl hid rfl hitems (hb next ⟨nofun, nofun⟩)

private theorem isFound_expr (hv : e.IsFound) (hf : Opening e.tokens e.opener) :
    (Stmt.expr tok e).IsFound := by
  intro next hnext
  obtain ⟨hvalue, hpipe⟩ := hv.value (hnext.suffix rfl)
  obtain ⟨⟨us, hus, hassign⟩, -⟩ := hf
  rw [Stmt.asPrinted, Stmt.tokens, hus]
  rw [hus] at hvalue
  exact .exprStatement hvalue hpipe fun hi => hassign hi next (hnext.suffix rfl).2.2

end Stmt
end Statements

/-- The tokens of a separated tree are read as the tree. -/
def Grammar.Tree.IsFound : Tree → Prop
  | .stmt s => s.isSeparated = true → s.IsFound
  | .body stmts => Stmt.areSeparated stmts = true → ∀ s ∈ stmts, s.IsFound
  | .expr e => e.isSeparated = true → e.IsFound
  | .exprs es => Expr.areSeparated es = true → ∀ e ∈ es, e.IsFound

theorem Grammar.Formed.isFound {P : Token → Prop} {t : Tree} (h : Formed P t) : t.IsFound := by
  induction h with
  | declare ht hk hn hv ih => exact fun hs => Stmt.isFound_declare hn (ih hs)
  | conciseFunction ht hk hn hps hb ih =>
    exact fun hs => Stmt.isFound_conciseFunction hn hps (ih hs)
  | blockFunction ht hk hn hps hb ih => exact fun hs => Stmt.isFound_blockFunction hn hps (ih hs)
  | assign ht hk hn hv ih => exact fun hs => Stmt.isFound_assign hn (ih hs)
  | leave ht hk => exact fun _ => Stmt.isFound_leave
  | ret ht hk hv ih => exact fun hs => Stmt.isFound_ret (ih hs)
  | whileLoop ht hk hc hb ihc ihb =>
    intro hs
    simp only [Stmt.isSeparated, Bool.and_eq_true] at hs
    exact Stmt.isFound_whileLoop (ihc hs.1) (ihb hs.2)
  | forLoop ht hk hn hx hb ihx ihb =>
    intro hs
    simp only [Stmt.isSeparated, Bool.and_eq_true] at hs
    exact Stmt.isFound_forLoop hn (ihx hs.1) (ihb hs.2)
  | exprStatement ht hv ih => exact fun hs => Stmt.isFound_expr (ih hs) hv.opening
  | noStatements => exact fun _ => nofun
  | moreStatements hs hb ihs ihb =>
    intro h
    simp only [Stmt.areSeparated, Bool.and_eq_true] at h
    exact List.forall_mem_cons.mpr ⟨ihs h.1, ihb h.2⟩
  | ifThen ht hk hc hy ihc ihy =>
    intro hs
    simp only [Expr.isSeparated, Bool.and_eq_true] at hs
    obtain ⟨⟨⟨⟨htest, hyes⟩, hbranch⟩, -⟩, -⟩ := hs
    exact .ifThen (ihc htest) (ihy hyes) hy.opening hbranch
  | @ifThenElse tok test yes no ht hk hc hy hn ihc ihy ihn =>
    intro hs
    have hpresent : no.isPresent = true := by
      cases no with
      | missing => exact absurd rfl hn.ne_missing
      | _ => rfl
    simp only [Expr.isSeparated, hpresent, Bool.not_true, Bool.false_or, Bool.and_eq_true,
      Bool.not_eq_true'] at hs
    obtain ⟨⟨⟨⟨htest, hyes⟩, hbranch⟩, hno⟩, helse, halt⟩ := hs
    exact .ifThenElse (ihc htest) (ihy hyes) (ihn hno) hy.opening hn.opening hbranch helse halt
      hpresent
  | block ht hk hb ih => exact fun hs => Expr.isFound_block (ih hs)
  | binary level ht hk hl hr ihl ihr =>
    intro hs
    simp only [Expr.isSeparated, Bool.and_eq_true, Bool.not_eq_true'] at hs
    exact .binary hk (ihl hs.1.2) hs.1.1 (ihr hs.2)
  | unary ht hk he ih => exact fun hs => .unary hk (ih hs)
  | pipeName ht hk hl hn ihl =>
    intro hs
    simp only [Expr.isSeparated, Bool.and_eq_true, Bool.not_eq_true'] at hs
    exact .pipe (ihl hs.1.2) hs.1.1 (Expr.isFound_name hn) (.inl ⟨_, rfl⟩)
  | pipeCall ht hk hl hp hpk hc ha ihl ihc iha =>
    intro hs
    simp only [Expr.isSeparated, Bool.and_eq_true, Bool.not_eq_true'] at hs
    obtain ⟨⟨hopen, hleft⟩, ⟨hcallee, hs⟩, hargs⟩ := hs
    exact .pipe (ihl hleft) hopen (.call (ihc hs) hcallee (iha hargs)) (.inr ⟨_, _, _, rfl⟩)
  | call ht hk hc ha ihc iha =>
    intro hs
    simp only [Expr.isSeparated, Bool.and_eq_true, Bool.not_eq_true'] at hs
    exact .call (ihc hs.1.2) hs.1.1 (iha hs.2)
  | lambda ht hk hps hb ih =>
    intro hs
    simp only [Expr.isSeparated, Bool.and_eq_true] at hs
    exact .lambda hps (ih hs.2) hb.opening hs.1
  | name hn => exact fun _ => Expr.isFound_name hn
  | number ht hk hv => exact fun _ next _ => .ofPrimary (.number rfl hv)
  | string ht hk => exact fun hs => Expr.isFound_string hs
  | bool ht hk => exact fun _ => Expr.isFound_bool hk
  | null ht hk => exact fun _ next _ => .ofPrimary (.null rfl)
  | array ht hk hx ih => exact fun hs => .array (ih hs)
  | noExprs => exact fun _ => nofun
  | moreExprs he hes ihe ihes =>
    intro h
    simp only [Expr.areSeparated, Bool.and_eq_true] at h
    exact List.forall_mem_cons.mpr ⟨ihe h.1, ihes h.2⟩

theorem Grammar.Formed.statement_opening {P : Token → Prop} {s : Stmt} (h : Formed P (.stmt s)) :
    (∃ us, s.tokens = s.opener :: us) ∧ s.opener.kind ∈ Token.Kind.openers := by
  cases h with
  | declare ht hk =>
    rcases hk with hk | hk
    · exact ⟨⟨_, rfl⟩, by simp [Stmt.opener, hk, Token.Kind.openers]⟩
    · exact ⟨⟨_, rfl⟩, by simp [Stmt.opener, hk, Token.Kind.openers]⟩
  | exprStatement ht hv =>
    obtain ⟨⟨us, hus, -⟩, hmem⟩ := hv.opening
    exact ⟨⟨us, hus⟩, hmem⟩
  | _ => exact ⟨⟨_, rfl⟩, by simp [Stmt.opener, Name.token, Token.Kind.openers]⟩

private theorem Token.Kind.notMem_of_opener {k : Token.Kind} (h : k ∈ openers)
    (hk : k ∉ [.lparen, .or]) :
    k ∉ Level.pipeline.continuations ∧ k ≠ .elseWord ∧ k ≠ .assign := by
  revert k
  decide

/-- A statement that may precede another one ends before it. -/
theorem Stmt.endsBefore_of_mayPrecede {P : Token → Prop} {s t : Stmt} (ht : Formed P (.stmt t))
    (h : s.mayPrecede t = true) : s.EndsBefore t.opener.kind := by
  simp only [mayPrecede, Bool.and_eq_true, Bool.or_eq_true, Bool.not_eq_true',
    List.contains_eq_mem, decide_eq_false_iff_not] at h
  obtain ⟨hbare, hbrace | hnext⟩ := h
  · exact ⟨by simp [hbrace], by simp [hbare]⟩
  · exact ⟨fun _ => Token.Kind.notMem_of_opener ht.statement_opening.2 hnext, by simp [hbare]⟩

/-- The tokens of a separated program are read as the program. -/
theorem Program.greedy_tokens {P : Token → Prop} {p : Program} (h : Formed P (.body p.body))
    (hs : p.isSeparated = true) : Greedy (.statements p.asPrinted.body) p.tokens .eof := by
  rw [Program.isSeparated, Bool.and_eq_true] at hs
  obtain ⟨hparts, hpairs⟩ := hs
  have hfound := h.isFound hparts
  clear hparts
  change Greedy (.statements (Stmt.retokenAll .printed p.body)) (p.body.flatMap Stmt.tokens) .eof
  generalize p.body = body at h hpairs hfound
  induction body with
  | nil => exact .noStatements (by decide)
  | cons s body ih =>
    rw [List.forall_mem_cons] at hfound
    cases h with
    | moreStatements hs hbody =>
      cases hbody with
      | noStatements =>
        have hlast := hfound.1 .eof ⟨fun _ => by decide, fun _ => by decide⟩
        exact .moreStatements hlast (by decide) (.noStatements (by decide))
      | @moreStatements t rest ht hrest =>
        simp only [List.tail_cons, List.zip_cons_cons, List.all_cons, Bool.and_eq_true] at hpairs
        obtain ⟨⟨us, hus⟩, hmem⟩ := ht.statement_opening
        have hnext : first ((t :: rest).flatMap Stmt.tokens) .eof = t.opener.kind := by
          rw [List.flatMap_cons, hus]
          rfl
        have hread := hfound.1 _ (Stmt.endsBefore_of_mayPrecede ht hpairs.1)
        rw [← hnext] at hread
        apply Greedy.moreStatements hread
        · rw [hnext]
          intro hsemicolon
          rw [hsemicolon] at hmem
          revert hmem
          decide
        · exact ih (.moreStatements ht hrest) hpairs.2 hfound.2

end PipeCompiler
