import PipeCompiler.Proofs.PrintedTokens
import PipeCompiler.Proofs.StatementSequences

/-! Expressions in their contexts.

An expression that is a program of its own is the same expression in parentheses, in an array, as an
argument, as the value of a declaration, as the body of a function and in a block. Its derivation
ends before the end of input, and no part of it can tell that from a closing bracket or a
semicolon. -/
namespace PipeCompiler

open Grammar
open Token.Relabelling (plain linesDown)

/-- A name that is no reserved word. -/
structure Identifier where
  text : Bytes
  isName : Lexeme.IsName text
  not_word : Token.Kind.ofName text = .ident

/-- The places for an expression. -/
inductive Context
  | parens
  | array
  | call (callee : Identifier)
  | declaration (name : Identifier)
  | function (name : Identifier)
  | block

namespace Context

/-- The line above the expression. -/
def opening : Context → Bytes
  | parens => "("
  | array => "["
  | call callee => callee.text ++ "("
  | declaration name => "let " ++ (name.text ++ " =")
  | function name => "fn " ++ (name.text ++ "() =")
  | block => "\x7b"

/-- The line below the expression. -/
def closing : Context → Bytes
  | parens => ")"
  | array => "]"
  | call _ => ")"
  | declaration _ => ";"
  | function _ => []
  | block => "\x7d"

/-- A text on lines of its own in the context. -/
def around (c : Context) (source : Bytes) : Bytes :=
  c.opening ++ '\n'.toUInt8 :: (source ++ '\n'.toUInt8 :: c.closing)

/-- The program is nothing but the context, with the expression in its place. -/
inductive Encloses : Context → Expr → Program → Prop
  | parens (tok : Token) (e : Expr) : Encloses .parens e ⟨[.expr tok e]⟩
  | array (tok : Token) (e : Expr) : Encloses .array e ⟨[.expr tok (.array tok [e])]⟩
  | call (callee : Identifier) (id paren : Token) (e : Expr) :
      Encloses (.call callee) e ⟨[.expr id (.call paren (.name (.mk id callee.text)) [e])]⟩
  | declaration (name : Identifier) (tok id : Token) (e : Expr) :
      Encloses (.declaration name) e ⟨[.declare tok true (.mk id name.text) e]⟩
  | function (name : Identifier) (tok id : Token) (e : Expr) :
      Encloses (.function name) e ⟨[.function tok (.mk id name.text) [] e true]⟩
  | block (brace tok : Token) (e : Expr) :
      Encloses .block e ⟨[.expr brace (.block brace [.expr tok e])]⟩

/-- The tokens of the line above, but for where they stand and how they are spelled. -/
def opens : Context → List Token
  | parens => [.shown .lparen "("]
  | array => [.shown .lbracket "["]
  | call callee => [.shown .ident callee.text, .shown .lparen "("]
  | declaration name =>
      [.shown .letWord "let", .shown .ident name.text, .shown .assign "="]
  | function name =>
      [.shown .fnWord "fn", .shown .ident name.text, .shown .lparen "(", .shown .rparen ")",
        .shown .assign "="]
  | block => [.shown .lbrace "\x7b"]

def closes : Context → List Token
  | parens => [.shown .rparen ")"]
  | array => [.shown .rbracket "]"]
  | call _ => [.shown .rparen ")"]
  | declaration _ => [.shown .semicolon ";"]
  | function _ => []
  | block => [.shown .rbrace "\x7d"]

end Context

theorem Identifier.cut (id : Identifier) {t rest : Bytes} {us : List Token}
    (hend : (t ++ rest).EndsWord) (ht : Cut t us rest) :
    Cut (id.text ++ t) (.shown .ident id.text :: us) rest :=
  Cut.name (n := .mk (.shown .ident id.text) id.text) ⟨id.isName, id.not_word⟩ hend ht

theorem Context.seen?_opening (c : Context) : seen? c.opening = some c.opens := by
  have hassign : Cut " =" [.shown .assign "="] [] :=
    Cut.blank (Cut.token (lexes_operator_before (by decide) (by simp)) (by decide))
  apply seen?_of_cut
  cases c with
  | parens => exact Cut.endMark "(" .lparen (by decide)
  | array => exact Cut.endMark "[" .lbracket (by decide)
  | block => exact Cut.endMark "\x7b" .lbrace (by decide)
  | call callee =>
    exact callee.cut (Bytes.endsWord_cons (by decide) _) (Cut.endMark "(" .lparen (by decide))
  | declaration name =>
    apply Cut.leading "let " "let" .letWord (by decide) rfl
    exact name.cut (Bytes.endsWord_cons (by decide) _) hassign
  | function name =>
    apply Cut.leading "fn " "fn" .fnWord (by decide) rfl
    apply name.cut (Bytes.endsWord_cons (by decide) _)
    apply Cut.mark "(" .lparen (by decide)
    exact Cut.mark ")" .rparen (by decide) hassign

theorem Context.seen?_closing (c : Context) : seen? c.closing = some c.closes := by
  apply seen?_of_cut
  cases c with
  | parens | call => exact Cut.endMark ")" .rparen (by decide)
  | array => exact Cut.endMark "]" .rbracket (by decide)
  | declaration => exact Cut.endMark ";" .semicolon (by decide)
  | function => exact Cut.nil
  | block => exact Cut.endMark "\x7d" .rbrace (by decide)

theorem Context.lineBreak_notMem_opening (c : Context) : '\n'.toUInt8 ∉ c.opening := by
  cases c with
  | parens | array | block => decide
  | call callee =>
    rw [opening, List.mem_append, not_or]
    exact ⟨callee.isName.notMem (by decide), by decide⟩
  | declaration name | function name =>
    simp only [opening, List.mem_append, not_or]
    exact ⟨by decide, name.isName.notMem (by decide), by decide⟩

namespace Grammar.Greedy

variable {e : Expr} {s : Stmt} {tok : Token} {toks : List Token} {next : Token.Kind}

theorem alone (h : Greedy (.statement s) toks next) (hk : next ∈ [.rbrace, .eof]) :
    Greedy (.statements [s]) toks next := by
  have hsemicolon : next ≠ .semicolon := by
    rintro rfl
    simp at hk
  have hall : Greedy (.statements [s]) (toks ++ []) next :=
    .moreStatements h hsemicolon (.noStatements hk)
  rwa [List.append_nil] at hall

/-- An only statement that has no semicolon ends where the input does. -/
theorem of_alone (h : Greedy (.statements [s]) toks .eof)
    (hlast : ∀ tok ∈ toks.getLast?, tok.kind ≠ .semicolon) : Greedy (.statement s) toks .eof := by
  cases h with
  | moreStatements hs hk hb =>
    cases hb
    rw [List.append_nil]
    exact hs
  | closedStatement hs ht hb =>
    cases hb
    exact absurd ht (hlast _ (by simp))

/-- An expression that does not begin like an assignment is a program. -/
theorem exprAlone {level : Level} (h : Greedy (.expr level e) (tok :: toks) .eof)
    (ha : tok.kind = .ident → first toks .eof ≠ .assign) :
    Greedy (.statements [.expr tok e]) (tok :: toks) .eof :=
  alone (.exprStatement (h.loosest (by decide)) (by decide) ha) (by decide)

end Grammar.Greedy

private theorem map_plain_eq_cons {ts us : List Token} {kind : Token.Kind} {literal : Bytes} :
    ts.map plain = .shown kind literal :: us ↔
      ∃ tok rest, ts = tok :: rest ∧ tok.kind = kind ∧ tok.literal = literal ∧
        rest.map plain = us := by
  simp [List.map_eq_cons_iff, plain, Token.shown, and_assoc]

/-- Between the tokens of a context an expression is read as it is alone. -/
theorem Context.greedy (c : Context) {above below toks : List Token} {first : Token} {e : Expr}
    (habove : above.map plain = c.opens) (hbelow : below.map plain = c.closes)
    (h : Greedy (.statement (.expr first e)) toks .eof) :
    ∃ p : Program, Greedy (.statements p.body) (above ++ (toks ++ below)) .eof ∧
      c.Encloses e p := by
  have hvalue {next : Token.Kind} (hnext : next ∈ closers) :
      Greedy (.expr .pipeline e) toks next := by
    cases h with
    | exprStatement hv => exact hv.asFinal (.ofCloser hnext) rfl
  cases c with
  | parens =>
    simp only [opens, closes, map_plain_eq_cons, List.map_eq_nil_iff] at habove hbelow
    obtain ⟨paren, _, rfl, hparen, -, rfl⟩ := habove
    obtain ⟨close, _, rfl, hclose, -, rfl⟩ := hbelow
    have hall : Greedy (.expr .primary e) (paren :: (toks ++ [close])) .eof :=
      .parens hparen (hvalue (by decide)) hclose
    exact ⟨⟨_⟩, hall.exprAlone (by simp [hparen]), .parens paren e⟩
  | array =>
    simp only [opens, closes, map_plain_eq_cons, List.map_eq_nil_iff] at habove hbelow
    obtain ⟨bracket, _, rfl, hbracket, -, rfl⟩ := habove
    obtain ⟨close, _, rfl, hclose, -, rfl⟩ := hbelow
    have hall : Greedy (.expr .primary (.array bracket [e])) (bracket :: (toks ++ [close])) .eof :=
      .array hbracket (.lastExpr (hvalue (by decide)) hclose)
    exact ⟨⟨_⟩, hall.exprAlone (by simp [hbracket]), .array bracket e⟩
  | call callee =>
    simp only [opens, closes, map_plain_eq_cons, List.map_eq_nil_iff] at habove hbelow
    obtain ⟨id, _, rfl, hid, htext, paren, _, rfl, hparen, -, rfl⟩ := habove
    obtain ⟨close, _, rfl, hclose, -, rfl⟩ := hbelow
    have hcallee : Greedy (.expr .call (.name (.mk id id.literal))) [id] .lparen :=
      .tighter (.name hid) (by decide)
    have hall : Greedy (.expr .call (.call paren (.name (.mk id id.literal)) [e]))
        (id :: paren :: (toks ++ [close])) .eof :=
      .call hcallee hparen (.lastExpr (hvalue (by decide)) hclose)
    rw [htext] at hall
    exact ⟨⟨_⟩, hall.exprAlone (by simp [hparen]), .call callee id paren e⟩
  | declaration name =>
    simp only [opens, closes, map_plain_eq_cons, List.map_eq_nil_iff] at habove hbelow
    obtain ⟨tok, _, rfl, htok, -, id, _, rfl, hid, htext, sign, _, rfl, hsign, -, rfl⟩ := habove
    obtain ⟨close, _, rfl, hclose, -, rfl⟩ := hbelow
    have hstatement : Greedy (.statement (.declare tok (tok.kind = .letWord) (.mk id id.literal) e))
        (tok :: id :: sign :: toks) .semicolon :=
      .declare (.inl htok) hid hsign (hvalue (by decide)) (by decide)
    rw [htext, decide_eq_true htok] at hstatement
    exact ⟨⟨_⟩, .closedStatement hstatement hclose (.noStatements (by decide)),
      .declaration name tok id e⟩
  | function name =>
    simp only [opens, closes, map_plain_eq_cons, List.map_eq_nil_iff] at habove hbelow
    obtain ⟨tok, _, rfl, htok, -, id, _, rfl, hid, htext, paren, _, rfl, hparen, -, close, _, rfl,
      hclose, -, sign, _, rfl, hsign, -, rfl⟩ := habove
    subst hbelow
    have hstatement : Greedy (.statement (.function tok (.mk id id.literal) [] e true))
        (tok :: id :: paren :: ([close] ++ sign :: toks)) .eof :=
      .conciseFunction htok hid hparen (.empty hclose) hsign (hvalue (by decide)) (by decide)
    rw [htext] at hstatement
    rw [List.append_nil]
    exact ⟨⟨_⟩, hstatement.alone (by decide), .function name tok id e⟩
  | block =>
    simp only [opens, closes, map_plain_eq_cons, List.map_eq_nil_iff] at habove hbelow
    obtain ⟨brace, _, rfl, hbrace, -, rfl⟩ := habove
    obtain ⟨close, _, rfl, hclose, -, rfl⟩ := hbelow
    have hstatement : Greedy (.statement (.expr first e)) toks .rbrace :=
      h.statement_asFinal (.ofCloser (by decide)) (by decide) (by simp)
    have hall : Greedy (.expr .primary (.block brace [.expr first e]))
        (brace :: (toks ++ [close])) .eof :=
      .blockPrimary (.block hbrace (hstatement.alone (by decide)) hclose)
    exact ⟨⟨_⟩, hall.exprAlone (by simp [hbrace]), .block brace first e⟩

/-- In a context the parser sees the tokens of the context and, between them, those of the text one
line further down. -/
theorem Context.ofList_around (c : Context) {source : Bytes} {toks : List Token}
    (h : tokenize source = .ok toks) :
    ∃ all above below, tokenize (c.around source) = .ok all ∧
      (Tokens.ofList all).ahead = above ++ ((Tokens.ofList toks).ahead.map (linesDown 1) ++ below) ∧
      above.map plain = c.opens ∧ below.map plain = c.closes := by
  obtain ⟨top, htop, hopens⟩ := seen?_eq_some.mp c.seen?_opening
  obtain ⟨bottom, hbottom, hcloses⟩ := seen?_eq_some.mp c.seen?_closing
  obtain ⟨lower, hlower, hahead⟩ := Tokens.ofList_nextLine h hbottom
  obtain ⟨all, hall, hahead'⟩ := Tokens.ofList_nextLine htop hlower
  have hline : c.opening.count '\n'.toUInt8 = 0 := List.count_eq_zero.mpr c.lineBreak_notMem_opening
  generalize (source.count '\n'.toUInt8 + 1 : Int) = n at hahead
  refine ⟨all, (Tokens.ofList top).ahead,
    ((Tokens.ofList bottom).ahead.map (linesDown n)).map (linesDown 1), hall, ?_, hopens, ?_⟩
  · rw [hahead', hahead, hline, List.map_append]
    rfl
  · rw [List.map_map, List.map_map]
    exact hcloses

/-- An expression that is a program without a semicolon at its end is, in every context, the same
expression one line further down, and the context is all that is added to it. -/
theorem parse_around {source : Bytes} {toks : List Token} {first : Token} {e : Expr}
    (h : Program.parse source = .ok ⟨[.expr first e]⟩) (htoks : tokenize source = .ok toks)
    (hlast : ∀ last ∈ (toks.filter fun tok => tok.kind ≠ .newline ∧ tok.kind ≠ .eof).getLast?,
      last.kind ≠ .semicolon) (c : Context) :
    ∃ p, Program.parse (c.around source) = .ok p ∧ c.Encloses (e.relabel (linesDown 1)) p := by
  obtain ⟨toks', htoks', hp⟩ := Program.parse_eq_ok.mp h
  rw [htoks] at htoks'
  cases htoks'
  have hdown := Tokens.greedy_relabel (linesDown 1) hp
  rw [← Tokens.getLast?_ahead htoks] at hlast
  have hsemicolon : ∀ tok ∈ ((Tokens.ofList toks).ahead.map (linesDown 1)).getLast?,
      tok.kind ≠ .semicolon := by
    rw [List.getLast?_map]
    intro tok htok
    obtain ⟨last, hmem, rfl⟩ := Option.map_eq_some_iff.mp htok
    exact hlast last hmem
  have hstatement := hdown.of_alone hsemicolon
  obtain ⟨all, above, below, hall, hahead, habove, hbelow⟩ := c.ofList_around htoks
  obtain ⟨p, hbody, hencloses⟩ := c.greedy habove hbelow hstatement
  rw [← hahead] at hbody
  have hprogram := hbody.program (Tokens.ofList_stop all)
  exact ⟨p, Program.parse_eq_ok.mpr ⟨all, hall, Tokens.parse_eq_ok.mpr ⟨_, hprogram⟩⟩, hencloses⟩

/-- A choice without an alternative, and in it a function whose body goes on as far as it can. -/
def Grammar.openEnded : Bytes :=
  "if ready then |x| [\x7b x \x7d]\n  |> f(1) // last"

theorem parse_around_openEnded :
    ∃ first e, Program.parse openEnded = .ok ⟨[.expr first e]⟩ ∧ ∀ c : Context,
      ∃ p, Program.parse (c.around openEnded) = .ok p ∧
        c.Encloses (e.relabel (linesDown 1)) p := by
  obtain ⟨toks, htoks⟩ := eq_ok_of_isSome (x := tokenize openEnded) (by decide +kernel)
  obtain ⟨p, h⟩ := eq_ok_of_isSome (x := Program.parse openEnded) (by decide +kernel)
  have hforms : (Program.parse openEnded).toOption.map (fun p => p.body.map Stmt.kindName) =
      some ["ExpressionStatement"] := by
    decide +kernel
  rw [h] at hforms
  obtain ⟨s, hs, hform⟩ := List.map_eq_singleton_iff.mp (Option.some.inj hforms)
  obtain ⟨first, e, rfl⟩ : ∃ first e, s = .expr first e := by
    cases s <;> simp [Stmt.kindName] at hform ⊢
  have hkinds : (tokenize openEnded).toOption.map (fun toks =>
      (toks.filter fun tok => tok.kind ≠ .newline ∧ tok.kind ≠ .eof).getLast?.map Token.kind) =
      some (some .rparen) := by
    decide +kernel
  rw [htoks] at hkinds
  obtain ⟨last, hlast, hkind⟩ := Option.map_eq_some_iff.mp (Option.some.inj hkinds)
  obtain rfl : p = ⟨[.expr first e]⟩ := congrArg Program.mk hs
  refine ⟨first, e, h, parse_around h htoks ?_⟩
  rw [hlast]
  rintro _ ⟨⟩
  rw [hkind]
  decide

end PipeCompiler
