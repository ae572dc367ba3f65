import PipeCompiler.Program.Basic
import PipeCompiler.Proofs.LexicalText
import PipeCompiler.Proofs.Outcomes
import PipeCompiler.Proofs.DelimitedExpressions

/-! Printed expressions are read back.

The text of an expression is cut into tokens from which the grammar derives the expression again, up
to what the text does not show (`Expr.bare`). Operations are printed in parentheses, so every
printed expression is a call or even tighter, and the induction on the expression needs no
precedence. -/
namespace PipeCompiler

open Grammar (Derives Greedy IsPipeTarget Level Listed Opens Phrase first)
open Lexeme (isDigit isNamePart)

/-- A token that is left out of consideration, but for its text. -/
def Token.bare (literal : Bytes) : Token :=
  ⟨.ident, literal, [], .start⟩

def Name.bare : Name → Name
  | .missing => .missing
  | .mk _ text => .mk (.bare []) text

mutual

/-- The expression without its tokens. Only the text of numbers and truth values is kept, which are
written as their token was. -/
def Expr.bare : Expr → Expr
  | .missing => .missing
  | .cond _ test yes no => .cond (.bare []) test.bare yes.bare no.bare
  | .block brace body => .block brace body
  | .binary _ left op right => .binary (.bare []) left.bare op right.bare
  | .unary _ op operand => .unary (.bare []) op operand.bare
  | .pipe _ left target => .pipe (.bare []) left.bare target.bare
  | .call _ callee args => .call (.bare []) callee.bare (Expr.bares args)
  | .lambda _ params body => .lambda (.bare []) (params.map Name.bare) body.bare
  | .name n => .name n.bare
  | .number tok value => .number (.bare tok.literal) value
  | .string _ value => .string (.bare []) value
  | .bool tok value => .bool (.bare tok.literal) value
  | .null _ => .null (.bare [])
  | .array _ items => .array (.bare []) (Expr.bares items)

def Expr.bares : List Expr → List Expr
  | [] => []
  | e :: es => e.bare :: Expr.bares es

end

private theorem Expr.isGreedy_bare (e : Expr) : e.bare.isGreedy = e.isGreedy := by
  cases e <;> rfl

theorem Expr.isGreedy_of_bare_eq {e e' : Expr} (h : e'.bare = e.bare) :
    e'.isGreedy = e.isGreedy := by
  rw [← isGreedy_bare, h, isGreedy_bare]

private theorem isPipeTarget_of_bare_eq {e e' : Expr} (h : e'.bare = e.bare) (he : IsPipeTarget e) :
    IsPipeTarget e' := by
  rcases he with ⟨n, rfl⟩ | ⟨tok, callee, args, rfl⟩
  · cases e' <;> simp [Expr.bare] at h
    exact .inl ⟨_, rfl⟩
  · cases e' <;> simp [Expr.bare] at h
    exact .inr ⟨_, _, _, rfl⟩

/-- A name of the language that is no reserved word. -/
structure Name.Legible (n : Name) : Prop where
  isName : Lexeme.IsName n.text
  not_word : Token.Kind.ofName n.text = .ident

theorem Name.Legible.bare_eq {n : Name} (h : n.Legible) : n.bare = .mk (.bare []) n.text := by
  cases n with
  | missing => exact absurd h.isName (by decide)
  | mk tok text => rfl

/-- What the lexer and the grammar ask of an expression, apart from its parts. -/
def Expr.Legible : Expr → Prop
  | .name n => n.Legible
  | .number tok value => Lexeme.IsNumber tok.literal ∧ Double.read? tok.literal = some value
  | .string _ value => Quoted.Legible value
  | .bool tok value => tok.literal = if value then "true" else "false"
  | .unary _ op _ => op = "!" ∨ op = "-"
  | .binary _ _ op _ => ∃ (text : String) (kind : Token.Kind) (level : Level),
      op = text ∧ (text, kind) ∈ Token.Kind.operators ∧ kind ∈ level.operators
  | .pipe _ _ target => IsPipeTarget target
  | .lambda _ params _ => ∀ n ∈ params, n.Legible
  | _ => True

/-- The grammar derives the expression from the tokens, up to what its text does not show. -/
def Regained (e : Expr) (ts : List Token) : Prop :=
  ∃ e', Derives (.expr .call e') ts ∧ e'.Delimited (fun _ => True) ∧ e'.bare = e.bare

/-- The same for a list of expressions and the token that closes it. -/
def RegainedAll (closing : Token.Kind) (es : List Expr) (ts : List Token) : Prop :=
  ∃ es', Derives (.exprs closing es') ts ∧ (∀ e ∈ es', e.Delimited fun _ => True) ∧
    Expr.bares es' = Expr.bares es

section Lexing

variable {rest t : Bytes} {Q : List Token → Prop}

/-- Parentheses, brackets and the comma, which are no parts of longer operators. -/
def brackets : List (String × Token.Kind) :=
  [("(", .lparen), (")", .rparen), ("[", .lbracket), ("]", .rbracket), (",", .comma)]

theorem lexes_bracket (op : String) (kind : Token.Kind) (hmem : (op, kind) ∈ brackets) :
    Lexes op (IsToken kind op) rest := by
  have halone : ∀ y ∈ brackets, y ∈ Token.Kind.operators ∧ (∀ x ∈ Token.Kind.operators,
      (Bytes.ofString x.1).head? = (Bytes.ofString y.1).head? → x.1 = y.1) ∧
        (Bytes.ofString y.1).head? ≠ some '/'.toUInt8 := by
    decide
  obtain ⟨hop, hother, hslash⟩ := halone _ hmem
  exact lexes_delimiter hop hother hslash

/-- An operator before a space. -/
theorem lexes_spaced (op : String) (kind : Token.Kind) (hmem : (op, kind) ∈ Token.Kind.operators) :
    Lexes op (IsToken kind op) (" " ++ t ++ rest) := by
  refine lexes_operator_before hmem ?_
  intro b hb
  cases hb
  decide

theorem lexes_word (word : String) (kind : Token.Kind) (hmem : (word, kind) ∈ Token.Kind.words)
    (hrest : ∀ b ∈ rest.head?, isNamePart b = false) : Lexes word (IsToken kind word) rest := by
  obtain ⟨hname, hkind⟩ := Lexeme.isName_word hmem
  have hlex := lexes_name hname hrest
  rwa [hkind] at hlex

/-- A reserved word before a space. -/
theorem lexes_word_spaced (word : String) (kind : Token.Kind)
    (hmem : (word, kind) ∈ Token.Kind.words) :
    Lexes word (IsToken kind word) (" " ++ t ++ rest) := by
  refine lexes_word word kind hmem ?_
  intro b hb
  cases hb
  decide

end Lexing

section Lists

variable {α β : Type} {text : α → Bytes} {shown : α → β} {Item : List Token → α → Prop}
  {P : α → Prop} {close : String} {closing : Token.Kind} {rest : Bytes} {xs : List α}

/-- Items with commas between them, and the end of the list. -/
theorem lexes_list
    (hxs : ∀ x ∈ xs, ∀ rest : Bytes, rest.Delimits →
      Lexes (text x) (fun ts => ∃ x', Item ts x' ∧ P x' ∧ shown x' = shown x) rest)
    (hclose : Lexes close (IsToken closing close) rest)
    (hdelimits : Bytes.Delimits (Bytes.ofString close ++ rest)) :
    Lexes (List.intercalate ", " (xs.map text) ++ Bytes.ofString close)
      (fun ts => ∃ xs', Listed Item closing ts xs' ∧ (∀ x ∈ xs', P x) ∧
        xs'.map shown = xs.map shown) rest := by
  induction xs with
  | nil => exact hclose.last fun tok hk _ => ⟨[], .empty hk, by simp, rfl⟩
  | cons x xs ih =>
    rw [List.forall_mem_cons] at hxs
    cases xs with
    | nil =>
      rw [List.map_cons, List.map_nil, List.intercalate_singleton]
      refine .append (hxs.1 _ hdelimits) ?_
      rintro us ⟨x', hx', hp, hshown⟩
      refine hclose.last fun tok hk _ => ⟨[x'], .last hx' hk, by simpa using hp, ?_⟩
      rw [List.map_cons, hshown]
      rfl
    | cons y ys =>
      have hcomma : Bytes.ofString ", " = Bytes.ofString "," ++ Bytes.ofString " " := rfl
      rw [List.map_cons, List.map_cons, List.intercalate_cons_cons, hcomma]
      simp only [List.append_assoc]
      refine .append (hxs.1 _ (Bytes.delimits_cons (by decide))) ?_
      rintro us ⟨x', hx', hp, hshown⟩
      refine .token (lexes_bracket "," .comma (by decide)) fun comma hk _ => ?_
      refine .blank ((ih hxs.2).mono ?_)
      rintro vs ⟨ys', hys', hps, hshowns⟩
      cases ys' with
      | nil => cases hshowns
      | cons y' ys' =>
        refine ⟨x' :: y' :: ys', .more hx' hk hys', ?_, ?_⟩
        · rw [List.forall_mem_cons]
          exact ⟨hp, hps⟩
        · rw [List.map_cons, hshown, hshowns]
          rfl

end Lists

/-- Wherever an expression may end, its text is cut into tokens that it can be regained from. -/
def Expr.IsReadBack (e : Expr) : Prop :=
  ∀ rest : Bytes, rest.Delimits → Lexes e.print (Regained e) rest

theorem Expr.prints_eq_map (es : List Expr) : Expr.prints es = es.map Expr.print := by
  induction es with
  | nil => rfl
  | cons e es ih => rw [Expr.prints, ih, List.map_cons]

private theorem Expr.bares_eq_map (es : List Expr) : Expr.bares es = es.map Expr.bare := by
  induction es with
  | nil => rfl
  | cons e es ih => rw [Expr.bares, ih, List.map_cons]

/-- A list of expressions is a phrase of its own. -/
private theorem Grammar.Derives.ofListed {closing : Token.Kind} {us : List Token} {es : List Expr}
    (h : Listed (fun ts e => Derives (.expr .pipeline e) ts) closing us es) :
    Derives (.exprs closing es) us := by
  induction h with
  | empty hc => exact .noExprs hc
  | last hx hc => exact .lastExpr hx hc
  | more hx hc _ ih => exact .moreExprs hx hc ih

/-- Expressions with commas between them, and the end of the list. -/
theorem lexes_exprs (close : String) (closing : Token.Kind)
    (hmem : (close, closing) ∈ [(")", Token.Kind.rparen), ("]", .rbracket)]) {rest : Bytes}
    {es : List Expr} (hes : ∀ e ∈ es, e.IsReadBack) :
    Lexes (List.intercalate ", " (Expr.prints es) ++ Bytes.ofString close)
      (RegainedAll closing es) rest := by
  have hclose : ∀ x ∈ [(")", Token.Kind.rparen), ("]", .rbracket)], x ∈ brackets ∧
      ∃ b ∈ (Bytes.ofString x.1).head?, b ∈ ([' ', ',', ')', ']', '(', '|'] : Bytes) := by
    decide
  obtain ⟨hbracket, b, hhead, hb⟩ := hclose _ hmem
  obtain ⟨t, ht⟩ := List.head?_eq_some_iff.mp hhead
  have hdelimits : Bytes.Delimits (Bytes.ofString close ++ rest) := by
    rw [ht]
    exact Bytes.delimits_cons hb
  rw [Expr.prints_eq_map]
  have hitem : ∀ e ∈ es, ∀ rest : Bytes, rest.Delimits → Lexes e.print (fun ts => ∃ e',
      Derives (.expr .pipeline e') ts ∧ e'.Delimited (fun _ => True) ∧ e'.bare = e.bare) rest := by
    intro e he rest hrest
    refine (hes e he rest hrest).mono ?_
    rintro ts ⟨e', he', hd, hbare⟩
    exact ⟨e', he'.loosest, hd, hbare⟩
  refine (lexes_list hitem (lexes_bracket close closing hbracket) hdelimits).mono ?_
  rintro ts ⟨es', hlisted, hds, hbares⟩
  refine ⟨es', .ofListed hlisted, hds, ?_⟩
  rw [Expr.bares_eq_map, Expr.bares_eq_map, hbares]

/-- Parameters with commas between them, and the bar that ends them. -/
theorem lexes_params {rest t : Bytes} {ns : List Name} (hns : ∀ n ∈ ns, n.Legible) :
    Lexes (Name.list ns ++ Bytes.ofString "|") (fun ts => ∃ ns', Listed Grammar.IsName .bar ts ns' ∧
      ns'.map Name.bare = ns.map Name.bare) (" " ++ t ++ rest) := by
  have hitem : ∀ n ∈ ns, ∀ rest : Bytes, rest.Delimits → Lexes n.text (fun ts => ∃ n',
      Grammar.IsName ts n' ∧ True ∧ n'.bare = n.bare) rest := by
    intro n hn rest hrest
    refine (lexes_name (hns n hn).isName hrest.name).last fun tok hk hl => ?_
    rw [(hns n hn).not_word] at hk
    refine ⟨(.mk tok tok.literal), ⟨tok, hk, rfl, rfl⟩, trivial, ?_⟩
    rw [(hns n hn).bare_eq, ← hl]
    rfl
  refine (lexes_list hitem (lexes_spaced "|" .bar (by decide))
    (Bytes.delimits_cons (by decide))).mono ?_
  rintro ts ⟨ns', hlisted, -, hbares⟩
  exact ⟨ns', hlisted, hbares⟩

namespace Expr.Delimited

variable {allowed : Expr → Prop} {e : Expr}

theorem isBlock_eq (h : e.Delimited allowed) : e.isBlock = false := by
  cases h <;> rfl

theorem isPresent_eq (h : e.Delimited allowed) : e.isPresent = true := by
  cases h <;> rfl

end Expr.Delimited

set_option maxRecDepth 2000 in
theorem Lexeme.endsOperator_of_isNamePart {b : UInt8} (h : isNamePart b = true) :
    EndsOperator b := by
  have hops : ∀ x ∈ Token.Kind.operators, ∀ c ∈ (Bytes.ofString x.1).tail,
      isNamePart c = false := by
    decide
  constructor
  · rintro rfl
    cases h
  · intro x hx hb
    rw [hops x hx b hb] at h
    cases h

theorem Name.list_head {n : Name} (h : n.Legible) (ns : List Name) :
    ∃ b s, Name.list (n :: ns) = b :: s ∧ Lexeme.EndsOperator b := by
  obtain ⟨⟨b, hb, hletter⟩, -⟩ := h.isName
  obtain ⟨s, hs⟩ := List.head?_eq_some_iff.mp hb
  have hends := Lexeme.endsOperator_of_isNamePart (b := b) (by simp [isNamePart, hletter])
  cases ns with
  | nil => exact ⟨b, s, by simp [Name.list, hs], hends⟩
  | cons m ns =>
    rw [Name.list, List.map_cons, List.map_cons, List.intercalate_cons_cons, hs]
    exact ⟨b, _, rfl, hends⟩

/-- An expression that is no anonymous function begins with nothing that an operator could go on
with. -/
theorem Expr.Delimited.print_head {e : Expr} (h : e.Delimited Expr.Legible)
    (hg : e.isGreedy = false) : ∃ b s, e.print = b :: s ∧ Lexeme.EndsOperator b := by
  induction h with
  | @name n ha =>
    obtain ⟨⟨b, hb, hletter⟩, -⟩ := ha.isName
    obtain ⟨s, hs⟩ := List.head?_eq_some_iff.mp hb
    exact ⟨b, s, hs, Lexeme.endsOperator_of_isNamePart (by simp [isNamePart, hletter])⟩
  | @number tok value ha =>
    obtain ⟨b, s, hs, hb⟩ := ha.1.eq_cons
    exact ⟨b, s, hs, Lexeme.endsOperator_of_isNamePart (by simp [isNamePart, hb])⟩
  | string ha => exact ⟨'"'.toUInt8, _, rfl, by decide⟩
  | @bool tok value ha =>
    cases value with
    | true => exact ⟨'t'.toUInt8, "rue", ha, by decide⟩
    | false => exact ⟨'f'.toUInt8, "alse", ha, by decide⟩
  | null => exact ⟨'n'.toUInt8, "ull", rfl, by decide⟩
  | array => exact ⟨'['.toUInt8, _, rfl, by decide⟩
  | unary => exact ⟨'('.toUInt8, _, rfl, by decide⟩
  | binary => exact ⟨'('.toUInt8, _, rfl, by decide⟩
  | pipe => exact ⟨'('.toUInt8, _, rfl, by decide⟩
  | call ha hc hargs hgc ihc iha =>
    obtain ⟨b, s, hs, hb⟩ := ihc hgc
    rw [Expr.print, hs]
    exact ⟨b, _, rfl, hb⟩
  | lambda => cases hg
  | ifThen => cases hg
  | ifThenElse => cases hg

/-- The operands of a binary operator are looser than a primary expression. -/
theorem Grammar.Level.ne_primary {level : Level} {k : Token.Kind} (h : k ∈ level.operators) :
    level ≠ .primary ∧ level.tighter ≠ .primary := by
  revert k
  cases level <;> decide

/-- What stands in parentheses. -/
theorem derives_parens {e : Expr} {level : Level} {paren close : Token} {ts : List Token}
    (hp : paren.kind = .lparen) (h : Derives (.expr level e) ts) (hc : close.kind = .rparen) :
    Derives (.expr .call e) (paren :: (ts ++ [close])) :=
  .tighter (.parens hp h.loosest hc)

namespace Expr

variable {tok : Token}

private theorem isReadBack_name {n : Name} (ha : n.Legible) : (Expr.name n).IsReadBack := by
  intro rest hrest
  refine (lexes_name ha.isName hrest.name).last fun tok hk hl => ?_
  rw [ha.not_word] at hk
  refine ⟨.name (.mk tok tok.literal), .tighter (.name hk), .name trivial, ?_⟩
  rw [bare, bare, ha.bare_eq, ← hl]
  rfl

set_option maxRecDepth 2000 in
private theorem isReadBack_number {value : Double} (hl : Lexeme.IsNumber tok.literal)
    (hv : Double.read? tok.literal = some value) : (Expr.number tok value).IsReadBack := by
  intro rest hrest
  refine (lexes_number hl (hrest.head (by decide))).last fun tok' hk hl' => ?_
  refine ⟨.number tok' value, .tighter (.number hk (hl' ▸ hv)), .number trivial, ?_⟩
  simp [bare, hl']

private theorem isReadBack_string {value : Bytes} (hs : Quoted.Legible value) :
    (Expr.string tok value).IsReadBack := by
  intro rest hrest
  refine (lexes_quoted hs).last fun tok' hk hl => ?_
  refine ⟨.string tok' tok'.literal, .tighter (.string hk), .string trivial, ?_⟩
  simp [bare, hl]

private theorem isReadBack_bool {value : Bool}
    (hl : tok.literal = if value then "true" else "false") :
    (Expr.bool tok value).IsReadBack := by
  intro rest hrest
  rw [Expr.print, hl]
  cases value with
  | true =>
    refine (lexes_word "true" .trueWord (by decide) hrest.name).last fun tok' hk hl' => ?_
    refine ⟨_, .tighter (.bool (.inl hk)), .bool trivial, ?_⟩
    simp [bare, hk, hl, hl']
  | false =>
    refine (lexes_word "false" .falseWord (by decide) hrest.name).last fun tok' hk hl' => ?_
    refine ⟨_, .tighter (.bool (.inr hk)), .bool trivial, ?_⟩
    simp [bare, hk, hl, hl']

private theorem isReadBack_null : (Expr.null tok).IsReadBack := by
  intro rest hrest
  refine (lexes_word "null" .nullWord (by decide) hrest.name).last fun tok' hk _ => ?_
  exact ⟨.null tok', .tighter (.null hk), .null trivial, rfl⟩

private theorem isReadBack_array {items : List Expr} (hi : ∀ x ∈ items, x.IsReadBack) :
    (Expr.array tok items).IsReadBack := by
  intro rest hrest
  rw [Expr.print, List.append_assoc]
  refine .token (lexes_bracket "[" .lbracket (by decide)) fun tok' hk _ => ?_
  refine (lexes_exprs "]" .rbracket (by decide) hi).mono ?_
  rintro ts ⟨items', hitems, hds, hbares⟩
  refine ⟨.array tok' items', .tighter (.array hk hitems), .array trivial hds, ?_⟩
  simp [bare, hbares]

/-- The operator is read by itself, since the operand does not begin like one. -/
theorem isReadBack_unary {op : Bytes} {operand : Expr} (hop : op = "!" ∨ op = "-")
    (ho : operand.IsReadBack) (hd : operand.Delimited Legible) (hg : operand.isGreedy = false) :
    (Expr.unary tok op operand).IsReadBack := by
  intro rest hrest
  obtain ⟨b, s, hs, hb⟩ := hd.print_head hg
  obtain ⟨text, kind, rfl, hmem, hkind⟩ : ∃ (text : String) (kind : Token.Kind), op = text ∧
      (text, kind) ∈ Token.Kind.operators ∧ (kind = .bang ∨ kind = .minus) := by
    rcases hop with rfl | rfl
    · exact ⟨"!", .bang, rfl, by decide, .inl rfl⟩
    · exact ⟨"-", .minus, rfl, by decide, .inr rfl⟩
  have hnext : ∀ c ∈ (operand.print ++ Bytes.ofString ")" ++ rest).head?,
      Lexeme.EndsOperator c := by
    rw [hs]
    intro c hc
    cases hc
    exact hb
  simp only [Expr.print, List.append_assoc]
  refine .token (lexes_bracket "(" .lparen (by decide)) fun paren hp _ => ?_
  refine .token (lexes_operator_before hmem hnext) fun op' hk hl => ?_
  refine .append (ho _ (Bytes.delimits_cons (by decide))) ?_
  rintro us ⟨x, hx, hdx, hbx⟩
  refine (lexes_bracket ")" .rparen (by decide)).last fun close hc _ => ?_
  have hunary : Derives (.expr .unary (.unary op' op'.literal x)) (op' :: us) :=
    .unary (hk ▸ hkind) (hx.ofCall (by decide))
  refine ⟨_, derives_parens hp hunary hc, .unary trivial hdx ?_, ?_⟩
  · rw [isGreedy_of_bare_eq hbx, hg]
  · simp [bare, hl, hbx]

/-- Two operands with a spaced operator between them, in parentheses. -/
theorem lexes_operation {left right : Expr} {op : String} {kind : Token.Kind} {rest : Bytes}
    {Q : List Token → Prop} (hmem : (op, kind) ∈ Token.Kind.operators) (hl : left.IsReadBack)
    (hr : right.IsReadBack)
    (hq : ∀ paren op' close : Token, ∀ us vs, paren.kind = .lparen → op'.kind = kind →
      op'.literal = op → close.kind = .rparen → Regained left us → Regained right vs →
        Q (paren :: ((us ++ op' :: vs) ++ [close]))) :
    Lexes ("(" ++ left.print ++ " " ++ op ++ " " ++ right.print ++ ")") Q rest := by
  simp only [List.append_assoc]
  refine .token (lexes_bracket "(" .lparen (by decide)) fun paren hp _ => ?_
  refine .append (hl _ (Bytes.delimits_cons (by decide))) fun us hus => ?_
  refine .blank (.token (lexes_spaced op kind hmem) fun op' hk hlit => .blank ?_)
  refine .append (hr _ (Bytes.delimits_cons (by decide))) fun vs hvs => ?_
  refine (lexes_bracket ")" .rparen (by decide)).last fun close hc _ => ?_
  simpa using hq paren op' close us vs hp hk hlit hc hus hvs

private theorem isReadBack_binary {op : Bytes} {left right : Expr}
    (ha : (Expr.binary tok left op right).Legible) (hl : left.IsReadBack) (hr : right.IsReadBack)
    (hgl : left.isGreedy = false) (hgr : right.isGreedy = false) :
    (Expr.binary tok left op right).IsReadBack := by
  intro rest hrest
  obtain ⟨text, kind, level, rfl, hmem, hkind⟩ := ha
  obtain ⟨hlevel, htighter⟩ := Level.ne_primary hkind
  refine lexes_operation hmem hl hr fun paren op' close us vs hp hk hlit hc hus hvs => ?_
  obtain ⟨x, hx, hdx, hbx⟩ := hus
  obtain ⟨y, hy, hdy, hby⟩ := hvs
  have hbinary : Derives (.expr level (.binary op' x op'.literal y)) (us ++ op' :: vs) :=
    .binary (hx.ofCall hlevel) (hk ▸ hkind) (hy.ofCall htighter)
  refine ⟨_, derives_parens hp hbinary hc, .binary trivial hdx hdy ?_ ?_, ?_⟩
  · rw [isGreedy_of_bare_eq hbx, hgl]
  · rw [isGreedy_of_bare_eq hby, hgr]
  · simp [bare, hlit, hbx, hby]

private theorem isReadBack_pipe {left target : Expr} (ha : IsPipeTarget target)
    (hl : left.IsReadBack)
    (ht : target.IsReadBack) (hgl : left.isGreedy = false) (hgt : target.isGreedy = false) :
    (Expr.pipe tok left target).IsReadBack := by
  intro rest hrest
  have hprint : (Expr.pipe tok left target).print =
      "(" ++ left.print ++ " " ++ Bytes.ofString "|>" ++ " " ++ target.print ++ ")" := by
    have hop : Bytes.ofString " |> " =
        Bytes.ofString " " ++ (Bytes.ofString "|>" ++ Bytes.ofString " ") := rfl
    simp only [Expr.print, hop, List.append_assoc]
  rw [hprint]
  refine lexes_operation (by decide : ("|>", Token.Kind.pipe) ∈ _) hl ht ?_
  intro paren op' close us vs hp hk _ hc hus hvs
  obtain ⟨x, hx, hdx, hbx⟩ := hus
  obtain ⟨y, hy, hdy, hby⟩ := hvs
  have hpipe : Derives (.expr .pipeline (.pipe op' x y)) (us ++ op' :: vs) :=
    .pipe hx.loosest hk (hy.ofCall (by decide)) (isPipeTarget_of_bare_eq hby ha)
  refine ⟨_, derives_parens hp hpipe hc, .pipe trivial hdx hdy ?_ ?_, ?_⟩
  · rw [isGreedy_of_bare_eq hbx, hgl]
  · rw [isGreedy_of_bare_eq hby, hgt]
  · simp [bare, hbx, hby]

private theorem isReadBack_call {callee : Expr} {args : List Expr} (hc : callee.IsReadBack)
    (ha : ∀ x ∈ args, x.IsReadBack) (hg : callee.isGreedy = false) :
    (Expr.call tok callee args).IsReadBack := by
  intro rest hrest
  simp only [Expr.print, List.append_assoc]
  refine .append (hc _ (Bytes.delimits_cons (by decide))) ?_
  rintro us ⟨x, hx, hdx, hbx⟩
  refine .token (lexes_bracket "(" .lparen (by decide)) fun paren hp _ => ?_
  refine (lexes_exprs ")" .rparen (by decide) ha).mono ?_
  rintro vs ⟨args', hargs, hds, hbares⟩
  refine ⟨.call paren x args', .call hx hp hargs, .call trivial hdx hds ?_, ?_⟩
  · rw [isGreedy_of_bare_eq hbx, hg]
  · simp [bare, hbx, hbares]

/-- Two bars next to each other are one token. -/
theorem isReadBack_thunk {body : Expr} (hb : body.IsReadBack) :
    (Expr.lambda tok [] body).IsReadBack := by
  intro rest hrest
  change Lexes (Bytes.ofString "||" ++ (Bytes.ofString " " ++ body.print)) _ rest
  refine .token (lexes_spaced "||" .or (by decide)) fun tok' hk _ => .blank ?_
  refine (hb rest hrest).mono ?_
  rintro us ⟨x, hx, hdx, hbx⟩
  refine ⟨.lambda tok' [] x, .tighter (.thunk hk (.exprBranch hx.loosest)), .lambda trivial hdx, ?_⟩
  simp [bare, hbx]

private theorem isReadBack_lambda {n : Name} {ns : List Name} {body : Expr}
    (hns : ∀ m ∈ n :: ns, m.Legible) (hb : body.IsReadBack) :
    (Expr.lambda tok (n :: ns) body).IsReadBack := by
  intro rest hrest
  have hbar : Bytes.ofString "| " = Bytes.ofString "|" ++ Bytes.ofString " " := rfl
  obtain ⟨b, t, hlist, hb'⟩ := Name.list_head (hns n (by simp)) ns
  have hnext : ∀ c ∈ (Name.list (n :: ns) ++
      (Bytes.ofString "|" ++ (Bytes.ofString " " ++ body.print)) ++ rest).head?,
      Lexeme.EndsOperator c := by
    rw [hlist]
    intro c hc
    cases hc
    exact hb'
  simp only [Expr.print, hbar, List.append_assoc]
  refine .token (lexes_operator_before (by decide : ("|", Token.Kind.bar) ∈ _) hnext)
    fun tok' hk _ => ?_
  rw [← List.append_assoc (Name.list (n :: ns))]
  refine .append (lexes_params hns) ?_
  rintro ps ⟨params, hps, hnames⟩
  refine .blank ((hb rest hrest).mono ?_)
  rintro us ⟨x, hx, hdx, hbx⟩
  refine ⟨.lambda tok' params x, .tighter (.lambda hk hps (.exprBranch hx.loosest)),
    .lambda trivial hdx, ?_⟩
  simp [bare, hbx, hnames]

/-- The part of a choice up to its alternative. -/
theorem lexes_choice {test yes : Expr} {rest t : Bytes} {Q : List Token → Prop}
    (ht : test.IsReadBack) (hy : yes.IsReadBack) (hdelimits : Bytes.Delimits (t ++ rest))
    (hq : ∀ tok word : Token, ∀ us vs, tok.kind = .ifWord → word.kind = .thenWord →
      Regained test us → Regained yes vs →
        Lexes t (fun ts => Q (tok :: (us ++ (word :: (vs ++ ts))))) rest) :
    Lexes ("if " ++ test.print ++ " then " ++ yes.print ++ t) Q rest := by
  have hif : Bytes.ofString "if " = Bytes.ofString "if" ++ Bytes.ofString " " := rfl
  have hthen : Bytes.ofString " then " =
      Bytes.ofString " " ++ (Bytes.ofString "then" ++ Bytes.ofString " ") := rfl
  simp only [hif, hthen, List.append_assoc]
  refine .token (lexes_word_spaced "if" .ifWord (by decide)) fun tok hk _ => .blank ?_
  refine .append (ht _ (Bytes.delimits_cons (by decide))) fun us hus => ?_
  refine .blank (.token (lexes_word_spaced "then" .thenWord (by decide)) fun word hw _ => .blank ?_)
  exact .append (hy _ hdelimits) fun vs hvs => hq tok word us vs hk hw hus hvs

private theorem isReadBack_ifThen {test yes : Expr} (ht : test.IsReadBack) (hy : yes.IsReadBack)
    (hblock : yes.isBlock = false) (hgt : test.isGreedy = false) (hgy : yes.isGreedy = false) :
    (Expr.cond tok test yes .missing).IsReadBack := by
  intro rest hrest
  have hprint : (Expr.cond tok test yes .missing).print =
      "if " ++ test.print ++ " then " ++ yes.print ++ ([] : Bytes) := by
    simp [Expr.print, hblock, isPresent]
  rw [hprint]
  refine lexes_choice ht hy hrest fun tok' word us vs hk hw hus hvs => .nil ?_
  obtain ⟨x, hx, hdx, hbx⟩ := hus
  obtain ⟨y, hy, hdy, hby⟩ := hvs
  have hchoice : Derives (.choice (.cond tok' x y .missing))
      (tok' :: (us ++ (word :: (vs ++ [])))) := by
    rw [List.append_nil]
    exact .ifThen hk hx.loosest (.thenConsequence hw (.exprBranch hy.loosest))
  refine ⟨_, .tighter (.choicePrimary hchoice), .ifThen trivial hdx hdy ?_ ?_, ?_⟩
  · rw [isGreedy_of_bare_eq hbx, hgt]
  · rw [isGreedy_of_bare_eq hby, hgy]
  · simp [bare, hbx, hby]

private theorem isReadBack_ifThenElse {test yes no : Expr} (ht : test.IsReadBack)
    (hy : yes.IsReadBack)
    (hn : no.IsReadBack) (hblock : yes.isBlock = false) (hpresent : no.isPresent = true)
    (hgt : test.isGreedy = false) (hgy : yes.isGreedy = false) :
    (Expr.cond tok test yes no).IsReadBack := by
  intro rest hrest
  have hprint : (Expr.cond tok test yes no).print =
      "if " ++ test.print ++ " then " ++ yes.print ++
        (" " ++ (Bytes.ofString "else" ++ (" " ++ no.print))) := by
    have helse : Bytes.ofString " else " =
        Bytes.ofString " " ++ (Bytes.ofString "else" ++ Bytes.ofString " ") := rfl
    simp [Expr.print, hblock, hpresent, helse]
  rw [hprint]
  refine lexes_choice ht hy (Bytes.delimits_cons (by decide)) ?_
  intro tok' word us vs hk hw hus hvs
  refine .blank (.token (lexes_word_spaced "else" .elseWord (by decide)) fun other ho _ => ?_)
  refine .blank ?_
  refine (hn rest hrest).mono ?_
  rintro ws ⟨z, hz, hdz, hbz⟩
  obtain ⟨x, hx, hdx, hbx⟩ := hus
  obtain ⟨y, hy, hdy, hby⟩ := hvs
  have hchoice : Derives (.choice (.cond tok' x y z))
      (tok' :: (us ++ (word :: (vs ++ other :: ws)))) := by
    have hderived := Derives.ifThenElse hk hx.loosest (.thenConsequence hw (.exprBranch hy.loosest))
      ho (.elseBranch (.exprBranch hz.loosest))
    simpa using hderived
  refine ⟨_, .tighter (.choicePrimary hchoice), .ifThenElse trivial hdx hdy hdz ?_ ?_, ?_⟩
  · rw [isGreedy_of_bare_eq hbx, hgt]
  · rw [isGreedy_of_bare_eq hby, hgy]
  · simp [bare, hbx, hby, hbz]

theorem Delimited.isReadBack {e : Expr} (h : e.Delimited Legible) : e.IsReadBack := by
  induction h with
  | name ha => exact isReadBack_name ha
  | number ha => exact isReadBack_number ha.1 ha.2
  | string ha => exact isReadBack_string ha
  | bool ha => exact isReadBack_bool ha
  | null ha => exact isReadBack_null
  | array ha hi ih => exact isReadBack_array ih
  | unary ha ho hg ih => exact isReadBack_unary ha ih ho hg
  | binary ha hl hr hgl hgr ihl ihr => exact isReadBack_binary ha ihl ihr hgl hgr
  | pipe ha hl ht hgl hgt ihl iht => exact isReadBack_pipe ha ihl iht hgl hgt
  | call ha hc hargs hg ihc ihargs => exact isReadBack_call ihc ihargs hg
  | @lambda tok params body ha hb ih =>
    cases params with
    | nil => exact isReadBack_thunk ih
    | cons n ns => exact isReadBack_lambda ha ih
  | ifThen ha ht hy hgt hgy iht ihy => exact isReadBack_ifThen iht ihy hy.isBlock_eq hgt hgy
  | ifThenElse ha ht hy hn hgt hgy iht ihy ihn =>
    exact isReadBack_ifThenElse iht ihy ihn hy.isBlock_eq hn.isPresent_eq hgt hgy

end Expr

section

open PipeCompiler.Parser
open Tokens (before)

variable {tok : Token} {ts : List Token} {rest : Tokens} {e : Expr}

/-- Behind a name that it begins with, an expression ends or goes on. -/
theorem Grammar.Derives.afterName {phrase : Phrase} (h : Derives phrase ts) :
    ∀ level e, phrase = .expr level e → first ts .eof = .ident →
      first ts.tail .eof ∈ .eof :: level.continuations := by
  -- What goes on with an expression goes on with its first part, if that is only the name.
  have hextend {level : Level} {left : Expr} {op : Token} {ls rs : List Token}
      (hls : Derives (.expr level left) ls) (ho : op.kind ∈ level.suffixes)
      (ih : first ls .eof = .ident → first ls.tail .eof ∈ .eof :: level.continuations)
      (hi : first (ls ++ op :: rs) .eof = .ident) :
      first (ls ++ op :: rs).tail .eof ∈ .eof :: level.continuations := by
    obtain ⟨name, us, rfl, -⟩ := hls.opens (by simp)
    cases us with
    | nil =>
      rw [Level.continuations_eq]
      exact List.mem_cons_of_mem _ (List.mem_append_left _ ho)
    | cons u us => exact ih hi
  induction h with
  | @tighter level ts e he ih =>
    rintro _ _ ⟨⟩ hi
    have hmem := ih _ _ rfl hi
    rw [Level.continuations_eq]
    grind
  | pipe hl ht hr hp ihl ihr =>
    rintro _ _ ⟨⟩ hi
    exact hextend hl (by simp [ht, Level.suffixes]) (ihl _ _ rfl) hi
  | binary hl ho hr ihl ihr =>
    rintro _ _ ⟨⟩ hi
    exact hextend hl (Level.mem_suffixes ho) (ihl _ _ rfl) hi
  | call hl ht hr ihl ihr =>
    rintro _ _ ⟨⟩ hi
    exact hextend hl (by simp [ht, Level.suffixes]) (ihl _ _ rfl) hi
  | name => simp
  | choicePrimary he | blockPrimary he =>
    rintro _ _ ⟨⟩ hi
    have hmem := (he.opens (by simp)).first_mem .eof
    simp [hi, Phrase.opens] at hmem
  | unary ht | bool ht =>
    rintro _ _ ⟨⟩ hi
    rcases ht with ht | ht <;> simp [ht] at hi
  | lambda ht | thunk ht | array ht | parens ht | number ht | string ht | null ht =>
    rintro _ _ ⟨⟩ hi
    simp [ht] at hi
  | _ =>
    intro _ _ hphrase
    cases hphrase

/-- A program that is one expression. -/
theorem program_of_derives {stop : Token} (hstop : stop.kind = .eof)
    (h : Derives (.expr .pipeline e) ts) (hd : e.Delimited fun _ => True) :
    ∃ tok, Parser.program (Tokens.ofList (ts ++ [stop])) = .ok ⟨[.expr tok e]⟩ ⟨[], stop⟩ := by
  have hlist : Tokens.ofList (ts ++ [stop]) = ⟨ts, stop⟩ := by
    have hend : Tokens.ofList ([] ++ [stop]) = ⟨[], stop⟩ := Tokens.ofList_end hstop (by simp)
    rw [Tokens.ofList_append (h.inPhrases trivial) ⟨stop, by simp, hstop⟩, ← List.nil_append [stop],
      hend]
    simp [Tokens.before]
  have hend : Ends .pipeline e .eof := ⟨by decide, fun _ => by decide⟩
  have hread := (h.shown hd).ends hend
  obtain ⟨tok, us, rfl, -⟩ := (h.shown hd).begins
  have hassign : tok.kind = .ident → first us .eof ≠ .assign := by
    intro hi ha
    have hmem := h.afterName _ _ rfl hi
    rw [List.tail_cons, ha] at hmem
    revert hmem
    decide
  have hstatements : Greedy (.statements [.expr tok e]) (tok :: us ++ []) .eof :=
    .moreStatements (.exprStatement hread.1 hread.2 hassign) (by decide) (.noStatements (by decide))
  rw [List.append_nil] at hstatements
  refine ⟨tok, ?_⟩
  rw [hlist]
  exact hstatements.program hstop

end

/-- Printing an expression and parsing the text gives one statement, which is the expression, up to
what the text does not show. The expression may be made by hand: its names, numbers, strings and
operators are such as the language has, there are no blocks in it, and anonymous functions and
choices stand only where the text around them shows where they end. -/
theorem printed_expression_parses {e : Expr} (h : e.Delimited Expr.Legible) :
    ∃ tok e', Program.parse e.print = .ok ⟨[.expr tok e']⟩ ∧ e'.bare = e.bare := by
  obtain ⟨ts, pos, ⟨e', he', hd, hbare⟩, hlex⟩ := h.isReadBack [] (by simp [Bytes.Delimits]) .start
  obtain ⟨stop, hlast, hstop, -⟩ := Cursor.tokens_nil pos
  have htokens : tokenize e.print = .ok (ts ++ [stop]) := by
    rw [List.append_nil, hlast] at hlex
    exact hlex
  obtain ⟨tok, hrun⟩ := program_of_derives hstop he'.loosest hd
  have hparse := Tokens.parse_eq_ok.mpr ⟨_, hrun⟩
  exact ⟨tok, e', Program.parse_eq_ok.mpr ⟨_, htokens, hparse⟩, hbare⟩

namespace Grammar.GuardedList

def name (text : String) : Expr := .name (.mk (.bare []) text)

/-- `[|a, b| if (!a) then "\"\n" else || 2.50, (b |> f(null))]` -/
def tree : Expr :=
  .array (.bare [])
    [.lambda (.bare []) [.mk (.bare []) "a", .mk (.bare []) "b"]
      (.cond (.bare []) (.unary (.bare []) "!" (name "a")) (.string (.bare []) "\"\n")
        (.lambda (.bare []) [] (.number (.bare "2.50") ⟨0x4004000000000000⟩))),
    .pipe (.bare []) (name "b") (.call (.bare []) (name "f") [.null (.bare [])])]

set_option maxRecDepth 2000 in
theorem delimited : tree.Delimited Expr.Legible := by
  have hname {text : String} (h : Lexeme.IsName text)
      (hword : Token.Kind.ofName (Bytes.ofString text) = .ident) :
      (name text).Delimited Expr.Legible := .name ⟨h, hword⟩
  have hnumber : (Expr.number (.bare "2.50") ⟨0x4004000000000000⟩).Delimited Expr.Legible := by
    have hdigits : ∀ b ∈ Bytes.ofString "2" ++ Bytes.ofString "50", isDigit b = true := by
      decide
    rw [List.forall_mem_append] at hdigits
    exact .number ⟨.fraction (by decide) hdigits.1 (by decide) hdigits.2, by decide +kernel⟩
  have hstring : (Expr.string (.bare []) "\"\n").Delimited Expr.Legible := by
    refine .string ?_
    intro g hg
    rw [glyphs_ofString] at hg
    obtain ⟨c, hc, rfl⟩ := List.mem_map.mp hg
    have hcases : c = '"' ∨ c = '\n' := by simpa using hc
    rcases hcases with rfl | rfl
    · exact ⟨'"', rfl, .inl rfl⟩
    · exact ⟨'\n', rfl, .inr (by decide)⟩
  have hchoice : (Expr.cond (.bare []) (.unary (.bare []) "!" (name "a"))
      (.string (.bare []) "\"\n")
      (.lambda (.bare []) [] (.number (.bare "2.50") ⟨0x4004000000000000⟩))).Delimited
        Expr.Legible :=
    .ifThenElse trivial (.unary (.inl rfl) (hname (by decide) (by decide)) rfl) hstring
      (.lambda (by simp [Expr.Legible]) hnumber) rfl rfl
  have hparams : ∀ n ∈ [Name.mk (.bare []) "a", .mk (.bare []) "b"], n.Legible := by
    simp only [List.forall_mem_cons]
    exact ⟨⟨by decide, by decide⟩, ⟨by decide, by decide⟩, by simp⟩
  have hcall : (Expr.call (.bare []) (name "f") [.null (.bare [])]).Delimited Expr.Legible :=
    .call trivial (hname (by decide) (by decide)) (by simpa using .null trivial) rfl
  refine .array trivial ?_
  simp only [List.forall_mem_cons]
  exact ⟨.lambda hparams hchoice,
    .pipe (.inr ⟨_, _, _, rfl⟩) (hname (by decide) (by decide)) hcall rfl rfl, by simp⟩

end Grammar.GuardedList

theorem printed_expression_parses_guardedList :
    ∃ tok e', Program.parse Grammar.GuardedList.tree.print = .ok ⟨[.expr tok e']⟩ ∧
      e'.bare = Grammar.GuardedList.tree.bare :=
  printed_expression_parses Grammar.GuardedList.delimited

end PipeCompiler
