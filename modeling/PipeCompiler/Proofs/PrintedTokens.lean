import PipeCompiler.Proofs.SeenTokens
import PipeCompiler.Proofs.TokenForms

/-! The tokens of printed programs.

The text of a program that was read is cut into tokens again, which are known from the tree:
`tokens` lists them. Only a string may be read as another one, since it is printed with escapes that
the lexer does not know (`Quoted.reread`). -/
namespace PipeCompiler

open Grammar
open Lexeme (isNamePart)
open Token.Relabelling (plain)

instance (c : Char) : Decidable (Quoted.Shows c) :=
  inferInstanceAs (Decidable (_ ∨ _))

/-- A character that a string can show is read as itself, any other one as what follows the
backslash in its escape. -/
def Quoted.rereadGlyph : Glyph → Bytes
  | .char c => if Shows c then Bytes.ofChar c else (char '"' c).tail
  | .stray b => (glyph '"' (.stray b)).tail

/-- What the lexer makes of a quoted text. -/
def Quoted.reread (s : Bytes) : Bytes :=
  (glyphs s).flatMap rereadGlyph

/-- Items with commas between them. -/
def Token.list (items : List (List Token)) : List Token :=
  List.intercalate [.shown .comma ","] items

/-- Statements between braces, with semicolons between them. -/
def Token.block (items : List (List Token)) : List Token :=
  .shown .lbrace "\x7b" ::
    (List.intercalate [.shown .semicolon ";"] items ++ [.shown .rbrace "\x7d"])

/-- A name as a token. -/
def Name.token (n : Name) : Token :=
  .shown .ident n.text

/-- Names with commas between them. -/
def Name.tokens (ns : List Name) : List Token :=
  Token.list (ns.map fun n => [n.token])

mutual

/-- The tokens of the text of a statement. -/
def Stmt.tokens : Stmt → List Token
  | .missing => []
  | .declare _ constant name value =>
    (if constant then .shown .letWord "let" else .shown .varWord "var") :: name.token ::
      .shown .assign "=" :: value.tokens
  | .function _ name params body concise =>
    .shown .fnWord "fn" :: name.token :: .shown .lparen "(" ::
      (Name.tokens params ++ .shown .rparen ")" ::
        ((if concise then [.shown .assign "="] else []) ++ body.tokens))
  | .assign _ name value => name.token :: .shown .assign "=" :: value.tokens
  | .ret _ value => .shown .returnWord "return" :: value.tokens
  | .whileLoop _ test body => .shown .whileWord "while" :: (test.tokens ++ body.tokens)
  | .forLoop _ item items body =>
    .shown .forWord "for" :: item.token :: .shown .inWord "in" :: (items.tokens ++ body.tokens)
  | .expr _ value => value.tokens

def Body.tokens : Body → List Token
  | .missing => []
  | .block _ stmts => Token.block (Stmt.tokensAll stmts)

/-- The tokens of the text of an expression. -/
def Expr.tokens : Expr → List Token
  | .missing => []
  | .cond _ test yes no =>
    .shown .ifWord "if" ::
      (test.tokens ++ ((if yes.isBlock then [] else [.shown .thenWord "then"]) ++ yes.tokens ++
        if no.isPresent then .shown .elseWord "else" :: no.tokens else []))
  | .block _ body => Token.block (Stmt.tokensAll body)
  | .binary op left text right =>
    .shown .lparen "(" ::
      (left.tokens ++ .shown op.kind text :: right.tokens ++ [.shown .rparen ")"])
  | .unary op text operand =>
    .shown .lparen "(" :: .shown op.kind text :: (operand.tokens ++ [.shown .rparen ")"])
  | .pipe _ left target =>
    .shown .lparen "(" ::
      (left.tokens ++ .shown .pipe "|>" :: target.tokens ++ [.shown .rparen ")"])
  | .call _ callee args =>
    callee.tokens ++ .shown .lparen "(" ::
      (Token.list (Expr.tokensAll args) ++ [.shown .rparen ")"])
  | .lambda _ [] body => .shown .or "||" :: body.tokens
  | .lambda _ (n :: ns) body =>
    .shown .bar "|" :: (Name.tokens (n :: ns) ++ .shown .bar "|" :: body.tokens)
  | .name n => [n.token]
  | .number tok _ => [.shown .number tok.literal]
  | .string _ value => [.shown .string (Quoted.reread value)]
  | .bool tok _ => [.shown tok.kind tok.literal]
  | .null _ => [.shown .nullWord "null"]
  | .array _ items =>
    .shown .lbracket "[" :: (Token.list (Expr.tokensAll items) ++ [.shown .rbracket "]"])

def Stmt.tokensAll : List Stmt → List (List Token)
  | [] => []
  | s :: body => s.tokens :: Stmt.tokensAll body

def Expr.tokensAll : List Expr → List (List Token)
  | [] => []
  | e :: es => e.tokens :: Expr.tokensAll es

end

/-- The first token of an expression. -/
def Expr.opener : Expr → Token
  | .missing => .shown .eof []
  | .cond .. => .shown .ifWord "if"
  | .block .. => .shown .lbrace "\x7b"
  | .binary .. | .unary .. | .pipe .. => .shown .lparen "("
  | .call _ callee _ => callee.opener
  | .lambda _ [] _ => .shown .or "||"
  | .lambda _ (_ :: _) _ => .shown .bar "|"
  | .name n => n.token
  | .number tok _ => .shown .number tok.literal
  | .string _ value => .shown .string (Quoted.reread value)
  | .bool tok _ => .shown tok.kind tok.literal
  | .null _ => .shown .nullWord "null"
  | .array .. => .shown .lbracket "["

section Pieces

variable {t rest : Bytes} {us : List Token}

/-- Neither a name nor a number goes on with such a text. -/
def Bytes.EndsWord (rest : Bytes) : Prop :=
  ∀ b ∈ rest.head?, isNamePart b = false ∧ b ≠ '.'

theorem Bytes.endsWord_cons {b : UInt8} (h : isNamePart b = false ∧ b ≠ '.') (s : Bytes) :
    Bytes.EndsWord (b :: s) := by
  intro c hc
  cases hc
  exact h

theorem Bytes.EndsWord.name (h : rest.EndsWord) : ∀ b ∈ rest.head?, isNamePart b = false :=
  fun b hb => (h b hb).1

theorem Bytes.EndsWord.number (h : rest.EndsWord) :
    ∀ b ∈ rest.head?, Lexeme.isDigit b = false ∧ b ≠ '.' := by
  intro b hb
  obtain ⟨hname, hpoint⟩ := h b hb
  simp only [isNamePart, Bool.or_eq_false_iff] at hname
  exact ⟨hname.2, hpoint⟩

/-- The operators that no other operator begins with. -/
def marks : List (String × Token.Kind) :=
  [("(", .lparen), (")", .rparen), ("[", .lbracket), ("]", .rbracket), ("\x7b", .lbrace),
    ("\x7d", .rbrace), (",", .comma), (";", .semicolon)]

theorem marks_inPhrases : ∀ x ∈ marks, x.2 ≠ .newline ∧ x.2 ≠ .eof := by
  decide

theorem lexes_mark (mark : String) (kind : Token.Kind) (hmem : (mark, kind) ∈ marks) :
    Lexes mark (IsToken kind mark) rest := by
  have halone : ∀ y ∈ marks, y ∈ Token.Kind.operators ∧ (∀ x ∈ Token.Kind.operators,
      (Bytes.ofString x.1).head? = (Bytes.ofString y.1).head? → x.1 = y.1) ∧
        (Bytes.ofString y.1).head? ≠ some '/'.toUInt8 := by
    decide
  obtain ⟨hop, hother, hslash⟩ := halone _ hmem
  exact lexes_delimiter hop hother hslash

theorem Token.Kind.inPhrases {text : String} {kind : Token.Kind}
    (h : (text, kind) ∈ operators ++ words) : kind ≠ .newline ∧ kind ≠ .eof := by
  have hall : ∀ x ∈ operators ++ words, x.2 ≠ .newline ∧ x.2 ≠ .eof := by decide
  exact hall _ h

namespace Cut

theorem mark (mark : String) (kind : Token.Kind) (hmem : (mark, kind) ∈ marks)
    (ht : Cut t us rest) : Cut (mark ++ t) (.shown kind mark :: us) rest :=
  cons (lexes_mark mark kind hmem) (marks_inPhrases _ hmem) ht

theorem endMark (mark : String) (kind : Token.Kind) (hmem : (mark, kind) ∈ marks) :
    Cut mark [.shown kind mark] rest :=
  token (lexes_mark mark kind hmem) (marks_inPhrases _ hmem)

/-- An operator or a reserved word, a space, and then more. -/
theorem spaced (op : String) (kind : Token.Kind)
    (hmem : (op, kind) ∈ Token.Kind.operators ++ Token.Kind.words) (ht : Cut t us rest) :
    Cut (Bytes.ofString op ++ (" " ++ t)) (.shown kind op :: us) rest := by
  apply Cut.cons _ (Token.Kind.inPhrases hmem) (Cut.blank ht)
  rcases List.mem_append.mp hmem with hop | hword
  · exact lexes_spaced op kind hop
  · exact lexes_word_spaced op kind hword

theorem leading (text op : String) (kind : Token.Kind)
    (hmem : (op, kind) ∈ Token.Kind.operators ++ Token.Kind.words)
    (htext : Bytes.ofString text = Bytes.ofString op ++ Bytes.ofString " ") (ht : Cut t us rest) :
    Cut (text ++ t) (.shown kind op :: us) rest := by
  rw [htext, List.append_assoc]
  exact Cut.spaced op kind hmem ht

theorem between (text op : String) (kind : Token.Kind)
    (hmem : (op, kind) ∈ Token.Kind.operators ++ Token.Kind.words)
    (htext : Bytes.ofString text = Bytes.ofString " " ++ (Bytes.ofString op ++ Bytes.ofString " "))
    (ht : Cut t us rest) : Cut (text ++ t) (.shown kind op :: us) rest := by
  rw [htext, List.append_assoc, List.append_assoc]
  exact Cut.blank (Cut.spaced op kind hmem ht)

theorem name {n : Name} (hn : n.Legible) (hend : Bytes.EndsWord (t ++ rest))
    (ht : Cut t us rest) : Cut (n.text ++ t) (n.token :: us) rest := by
  have hlex := lexes_name hn.isName hend.name
  rw [hn.not_word] at hlex
  exact cons hlex (by decide) ht

/-- Items with a mark and a space between them. -/
theorem items {α : Type} {text : α → Bytes} {toks : α → List Token} {xs : List α}
    (mark : String) (kind : Token.Kind)
    (hmem : (mark, kind) ∈ [(",", Token.Kind.comma), (";", .semicolon)])
    (hxs : ∀ x ∈ xs, ∀ rest : Bytes, rest.EndsWord → Cut (text x) (toks x) rest)
    (hrest : rest.EndsWord) :
    Cut (List.intercalate (Bytes.ofString mark ++ " ") (xs.map text))
      (List.intercalate [.shown kind mark] (xs.map toks)) rest := by
  have hmarks : ∀ x ∈ [(",", Token.Kind.comma), (";", .semicolon)], x ∈ marks ∧
      ∃ b ∈ (Bytes.ofString x.1).head?, isNamePart b = false ∧ b ≠ '.' := by
    decide
  obtain ⟨hmark, b, hhead, hb⟩ := hmarks _ hmem
  obtain ⟨u, hu⟩ := List.head?_eq_some_iff.mp hhead
  have hend (s : Bytes) : Bytes.EndsWord (Bytes.ofString mark ++ s) := by
    rw [hu]
    exact Bytes.endsWord_cons hb _
  induction xs with
  | nil => exact Cut.nil
  | cons x xs ih =>
    rw [List.forall_mem_cons] at hxs
    cases xs with
    | nil => simpa using hxs.1 rest hrest
    | cons y ys =>
      simp only [List.map_cons, List.intercalate_cons_cons, List.append_assoc]
      apply Cut.append
      · apply hxs.1
        rw [List.append_assoc]
        exact hend _
      · exact Cut.mark mark kind hmark (Cut.blank (ih hxs.2))

end Cut
end Pieces

/-- Behind the backslash of an escape that the lexer does not know everything is plain. -/
theorem Lexeme.string?_unknown {e : UInt8} {digits s : Bytes} (he : unescape e = e)
    (hdigits : ∀ b ∈ digits, b ≠ '"'.toUInt8 ∧ b ≠ '\\'.toUInt8) :
    (string? '"' ('\\'.toUInt8 :: e :: (digits ++ s))).map (fun r => (r.1, r.2.2)) =
      (string? '"' s).map fun r => (e :: digits ++ r.1, r.2.2) := by
  rw [string?_escape (by decide), string?_plains hdigits, Option.map_map, Option.map_map, he]
  rfl

/-- The lexer knows three of the short escapes, and the strings of the language show what they stand
for. -/
theorem Quoted.unescape_shortEscape {c letter : Char} (h : shortEscape? c = some letter)
    (hc : c ∉ ['\n', '\t', '\r']) : Lexeme.unescape letter.toUInt8 = letter.toUInt8 := by
  have hchar {d : Char} (hd : d ∈ ['\n', '\t', '\r']) : c.toNat ≠ d.toNat :=
    fun hnat => hc (Char.toNat_inj.mp hnat ▸ hd)
  have htab := hchar (d := '\t') (by decide)
  have hline := hchar (d := '\n') (by decide)
  have hreturn := hchar (d := '\r') (by decide)
  unfold shortEscape? at h
  split at h
  · cases h
    decide
  · cases h
    decide
  · rename_i hnat
    exact absurd hnat htab
  · rename_i hnat
    exact absurd hnat hline
  · cases h
    decide
  · cases h
    decide
  · rename_i hnat
    exact absurd hnat hreturn
  · cases h

private theorem Lexeme.string?_rereadChar {c : Char} (h : ¬Quoted.Shows c) (s : Bytes) :
    (string? '"' (Quoted.char '"' c ++ s)).map (fun r => (r.1, r.2.2)) =
      (string? '"' s).map fun r => ((Quoted.char '"' c).tail ++ r.1, r.2.2) := by
  simp only [Quoted.Shows, not_or] at h
  have hplain : ¬(c = '"' ∨ c = '\\') := by
    rintro (rfl | rfl)
    · exact h.1 (by decide)
    · exact h.1 (by decide)
  unfold Quoted.char
  rw [if_neg hplain, if_neg h.1]
  split
  · rename_i letter hletter
    have hnone : ∀ b ∈ ([] : Bytes), b ≠ '"'.toUInt8 ∧ b ≠ '\\'.toUInt8 := nofun
    exact string?_unknown (Quoted.unescape_shortEscape hletter h.2) hnone
  · split_ifs
    · exact string?_unknown rfl fun b hb => Bytes.mem_hex hb
    · exact string?_unknown rfl fun b hb => Bytes.mem_hex hb
    · exact string?_unknown rfl fun b hb => Bytes.mem_hex hb

private theorem Lexeme.string?_rereadGlyph (g : Glyph) (s : Bytes) :
    (string? '"' (Quoted.glyph '"' g ++ s)).map (fun r => (r.1, r.2.2)) =
      (string? '"' s).map fun r => (Quoted.rereadGlyph g ++ r.1, r.2.2) := by
  cases g with
  | stray b => exact string?_unknown rfl fun b hb => Bytes.mem_hex hb
  | char c =>
    by_cases h : Quoted.Shows c
    · rw [Quoted.rereadGlyph, if_pos h]
      exact string?_char h
    · rw [Quoted.rereadGlyph, if_neg h]
      exact string?_rereadChar h s

private theorem lexes_reread (value rest : Bytes) :
    Lexes (Quoted.text value) (IsToken .string (Quoted.reread value)) rest := by
  have hglyphs : ∀ g ∈ glyphs value, ∀ s,
      (Lexeme.string? '"' (Quoted.glyph '"' g ++ s)).map (fun r => (r.1, r.2.2)) =
        (Lexeme.string? '"' s).map fun r => (Quoted.rereadGlyph g ++ r.1, r.2.2) :=
    fun g _ s => Lexeme.string?_rereadGlyph g s
  obtain ⟨text, hread⟩ := Lexeme.string?_pieces hglyphs rest
  exact lexes_string hread

theorem Stmt.prints_eq_map (body : List Stmt) : Stmt.prints body = body.map Stmt.print := by
  induction body with
  | nil => rfl
  | cons s body ih => rw [Stmt.prints, ih, List.map_cons]

private theorem Stmt.tokensAll_eq_map (body : List Stmt) :
    Stmt.tokensAll body = body.map Stmt.tokens := by
  induction body with
  | nil => rfl
  | cons s body ih => rw [Stmt.tokensAll, ih, List.map_cons]

private theorem Expr.tokensAll_eq_map (es : List Expr) :
    Expr.tokensAll es = es.map Expr.tokens := by
  induction es with
  | nil => rfl
  | cons e es ih => rw [Expr.tokensAll, ih, List.map_cons]

theorem Grammar.FormedName.legible {n : Name} (h : FormedName Token.WellSpelled n) :
    n.Legible := by
  have hname := h.tok.name h.kind
  rw [← h.text] at hname
  exact ⟨hname.1, hname.2⟩

/-- Wherever it may end, the text of the statement is cut into its tokens. -/
def Stmt.IsCut (s : Stmt) : Prop :=
  ∀ rest : Bytes, rest.EndsWord → Cut s.print s.tokens rest

/-- The same for an expression. -/
def Expr.IsCut (e : Expr) : Prop :=
  ∀ rest : Bytes, rest.EndsWord → Cut e.print e.tokens rest

section Forms

variable {rest t : Bytes} {us : List Token} {tok brace : Token} {n : Name} {params : List Name}
  {value test : Expr} {body : List Stmt}

theorem isCut_name (hn : n.Legible) : (Expr.name n).IsCut := by
  intro rest hrest
  have hname : Cut (n.text ++ []) [n.token] rest := Cut.name hn hrest Cut.nil
  rwa [List.append_nil] at hname

theorem cut_names (hps : ∀ n ∈ params, n.Legible) (hrest : rest.EndsWord) :
    Cut (Name.list params) (Name.tokens params) rest := by
  apply Cut.items "," .comma (by decide) _ hrest
  intro n hn
  exact isCut_name (hps n hn)

theorem cut_exprs {es : List Expr} (hes : ∀ e ∈ es, e.IsCut) (hrest : rest.EndsWord) :
    Cut (List.intercalate ", " (Expr.prints es)) (Token.list (Expr.tokensAll es)) rest := by
  rw [Expr.prints_eq_map, Expr.tokensAll_eq_map]
  exact Cut.items "," .comma (by decide) hes hrest

private theorem isCut_block (hb : ∀ s ∈ body, s.IsCut) : (Expr.block brace body).IsCut := by
  intro rest hrest
  have hend : Cut "\x7d" [.shown .rbrace "\x7d"] rest :=
    Cut.endMark "\x7d" .rbrace (by decide)
  cases body with
  | nil => exact Cut.mark "\x7b" .lbrace (by decide) hend
  | cons s body =>
    have hopen : Bytes.ofString "\x7b " = Bytes.ofString "\x7b" ++ Bytes.ofString " " := rfl
    have hclose : Bytes.ofString " \x7d" = Bytes.ofString " " ++ Bytes.ofString "\x7d" := rfl
    have hprints : s.print :: Stmt.prints body = (s :: body).map Stmt.print := by
      rw [Stmt.prints_eq_map, List.map_cons]
    simp only [Expr.print, Expr.tokens, Stmt.printBlock, hopen, hclose, hprints,
      Stmt.tokensAll_eq_map, List.append_assoc]
    apply Cut.mark "\x7b" .lbrace (by decide)
    apply Cut.blank
    apply Cut.append
    · apply Cut.items ";" .semicolon (by decide) hb
      exact Bytes.endsWord_cons (by decide) _
    · exact Cut.blank hend

private theorem isCut_declare {constant : Bool} (hn : n.Legible) (hv : value.IsCut) :
    (Stmt.declare tok constant n value).IsCut := by
  intro rest hrest
  have htarget : Cut (n.text ++ (Bytes.ofString " = " ++ value.print))
      (n.token :: .shown .assign "=" :: value.tokens) rest := by
    apply Cut.name hn (Bytes.endsWord_cons (by decide) _)
    exact Cut.between " = " "=" .assign (by decide) rfl (hv rest hrest)
  cases constant with
  | true =>
    simp only [Stmt.print, Stmt.tokens, List.append_assoc, if_true]
    exact Cut.leading "let " "let" .letWord (by decide) rfl htarget
  | false =>
    simp only [Stmt.print, Stmt.tokens, List.append_assoc]
    exact Cut.leading "var " "var" .varWord (by decide) rfl htarget

private theorem isCut_function {concise : Bool} (hn : n.Legible) (hps : ∀ n ∈ params, n.Legible)
    (hv : value.IsCut) : (Stmt.function tok n params value concise).IsCut := by
  intro rest hrest
  have hbody : Cut (Bytes.ofString (if concise then " = " else " ") ++ value.print)
      ((if concise then [.shown .assign "="] else []) ++ value.tokens) rest := by
    cases concise with
    | true => exact Cut.between " = " "=" .assign (by decide) rfl (hv rest hrest)
    | false => exact Cut.blank (hv rest hrest)
  simp only [Stmt.print, Stmt.tokens, List.append_assoc]
  apply Cut.leading "fn " "fn" .fnWord (by decide) rfl
  apply Cut.name hn (Bytes.endsWord_cons (by decide) _)
  apply Cut.mark "(" .lparen (by decide)
  apply Cut.append (cut_names hps (Bytes.endsWord_cons (by decide) _))
  exact Cut.mark ")" .rparen (by decide) hbody

private theorem isCut_assign (hn : n.Legible) (hv : value.IsCut) :
    (Stmt.assign tok n value).IsCut := by
  intro rest hrest
  simp only [Stmt.print, Stmt.tokens, List.append_assoc]
  apply Cut.name hn (Bytes.endsWord_cons (by decide) _)
  exact Cut.between " = " "=" .assign (by decide) rfl (hv rest hrest)

private theorem isCut_leave : (Stmt.ret tok .missing).IsCut := by
  intro rest hrest
  exact Cut.token (lexes_word "return" .returnWord (by decide) hrest.name) (by decide)

private theorem isCut_ret (hv : value.IsCut) (hne : value ≠ .missing) :
    (Stmt.ret tok value).IsCut := by
  intro rest hrest
  have hpresent : value.isPresent = true := by
    cases value with
    | missing => exact absurd rfl hne
    | _ => rfl
  simp only [Stmt.print, Stmt.tokens, hpresent, if_true]
  exact Cut.leading "return " "return" .returnWord (by decide) rfl (hv rest hrest)

private theorem isCut_whileLoop (hc : test.IsCut) (hb : (Expr.block brace body).IsCut) :
    (Stmt.whileLoop tok test (.block brace body)).IsCut := by
  intro rest hrest
  simp only [Stmt.print, Stmt.tokens, List.append_assoc]
  apply Cut.leading "while " "while" .whileWord (by decide) rfl
  apply Cut.append (hc _ (Bytes.endsWord_cons (by decide) _))
  exact Cut.blank (hb rest hrest)

private theorem isCut_forLoop (hn : n.Legible) (hx : value.IsCut)
    (hb : (Expr.block brace body).IsCut) :
    (Stmt.forLoop tok n value (.block brace body)).IsCut := by
  intro rest hrest
  simp only [Stmt.print, Stmt.tokens, List.append_assoc]
  apply Cut.leading "for " "for" .forWord (by decide) rfl
  apply Cut.name hn (Bytes.endsWord_cons (by decide) _)
  apply Cut.between " in " "in" .inWord (by decide) rfl
  apply Cut.append (hx _ (Bytes.endsWord_cons (by decide) _))
  exact Cut.blank (hb rest hrest)

private theorem isCut_cond {yes no : Expr} (hc : test.IsCut) (hy : yes.IsCut)
    (hn : no.isPresent = true → no.IsCut) : (Expr.cond tok test yes no).IsCut := by
  intro rest hrest
  have hno : Cut (if no.isPresent then Bytes.ofString " else " ++ no.print else [])
      (if no.isPresent then .shown .elseWord "else" :: no.tokens else []) rest := by
    split
    · rename_i hpresent
      exact Cut.between " else " "else" .elseWord (by decide) rfl (hn hpresent rest hrest)
    · exact Cut.nil
  have hend : Bytes.EndsWord ((if no.isPresent then Bytes.ofString " else " ++ no.print else []) ++
      rest) := by
    split
    · exact Bytes.endsWord_cons (by decide) _
    · exact hrest
  have hyes := Cut.append (hy _ hend) hno
  simp only [Expr.print, Expr.tokens, List.append_assoc]
  apply Cut.leading "if " "if" .ifWord (by decide) rfl
  split
  · exact Cut.append (hc _ (Bytes.endsWord_cons (by decide) _)) (Cut.blank hyes)
  · apply Cut.append (hc _ (Bytes.endsWord_cons (by decide) _))
    exact Cut.between " then " "then" .thenWord (by decide) rfl hyes

private theorem isCut_binary {level : Level} {op : Token} {left right : Expr} (ho : op.WellSpelled)
    (hk : op.kind ∈ level.operators) (hl : left.IsCut) (hr : right.IsCut) :
    (Expr.binary op left op.literal right).IsCut := by
  intro rest hrest
  have hall : ∀ level : Level, ∀ kind ∈ level.operators,
      ∃ x ∈ Token.Kind.operators, x.2 = kind := by
    intro level
    cases level <;> decide
  obtain ⟨⟨text, kind⟩, hmem, rfl⟩ := hall level _ hk
  rw [ho.operator text hmem]
  simp only [Expr.print, Expr.tokens, List.append_assoc, List.cons_append]
  apply Cut.mark "(" .lparen (by decide)
  apply Cut.append (hl _ (Bytes.endsWord_cons (by decide) _))
  apply Cut.blank
  apply Cut.spaced text op.kind (List.mem_append_left _ hmem)
  apply Cut.append (hr _ (Bytes.endsWord_cons (by decide) _))
  exact Cut.endMark ")" .rparen (by decide)

set_option maxRecDepth 2000 in
/-- A unary operator before something that no longer operator goes on with. -/
theorem lexes_unary {op : String} {kind : Token.Kind} {b : UInt8}
    (hmem : (op, kind) ∈ [("!", Token.Kind.bang), ("-", .minus)]) (hb : b ≠ '=' ∧ b ≠ '>') :
    Lexes op (IsToken kind op) (b :: rest) := by
  have hops : ∀ y ∈ [("!", Token.Kind.bang), ("-", .minus)], y ∈ Token.Kind.operators ∧
      (Bytes.ofString y.1).head? ≠ some '/'.toUInt8 ∧
      ∀ x ∈ Token.Kind.operators, Bytes.ofString y.1 <+: Bytes.ofString x.1 →
        ∀ c ∈ (Bytes.ofString x.1).drop (Bytes.ofString y.1).length,
          c = '='.toUInt8 ∨ c = '>'.toUInt8 := by
    decide
  obtain ⟨hop, hslash, hlonger⟩ := hops _ hmem
  apply lexes_operator hop _ (Lexeme.not_comment_append hop hslash)
  intro x hx hbegin
  rcases Nat.le_total (Bytes.ofString x.1).length (Bytes.ofString op).length with hle | hle
  · exact List.prefix_of_prefix_length_le hbegin (List.prefix_append _ _) hle
  · have hop' := List.prefix_of_prefix_length_le (List.prefix_append _ (b :: rest)) hbegin hle
    have hnext := hlonger x hx hop'
    obtain ⟨t, ht⟩ := hop'
    rw [← ht, List.prefix_append_right_inj] at hbegin
    cases t with
    | nil => simp [← ht]
    | cons c t =>
      obtain ⟨u, hu⟩ := hbegin
      have hc : c = b := (List.cons.inj hu).1
      have hcases : c = '='.toUInt8 ∨ c = '>'.toUInt8 := hnext c (by simp [← ht])
      exact absurd hcases (by simp [hc, hb])

private theorem isCut_unary {op : Token} {operand : Expr} (ho : op.WellSpelled)
    (hk : op.kind = .bang ∨ op.kind = .minus) (he : operand.IsCut)
    (hhead : ∀ b ∈ operand.print.head?, b ≠ '=' ∧ b ≠ '>') (hne : operand.print ≠ []) :
    (Expr.unary op op.literal operand).IsCut := by
  intro rest hrest
  obtain ⟨text, hmem, hops⟩ : ∃ text : String, (text, op.kind) ∈ Token.Kind.operators ∧
      (text, op.kind) ∈ [("!", Token.Kind.bang), ("-", .minus)] := by
    rcases hk with hk | hk
    · exact ⟨"!", by rw [hk]; decide, by rw [hk]; decide⟩
    · exact ⟨"-", by rw [hk]; decide, by rw [hk]; decide⟩
  obtain ⟨b, u, hu⟩ := List.exists_cons_of_ne_nil hne
  have hop : Lexes text (IsToken op.kind text) (operand.print ++ Bytes.ofString ")" ++ rest) := by
    rw [hu] at hhead ⊢
    exact lexes_unary hops (hhead b rfl)
  rw [ho.operator text hmem]
  simp only [Expr.print, Expr.tokens, List.append_assoc]
  apply Cut.mark "(" .lparen (by decide)
  apply Cut.cons hop (Token.Kind.inPhrases (List.mem_append_left _ hmem))
  apply Cut.append (he _ (Bytes.endsWord_cons (by decide) _))
  exact Cut.endMark ")" .rparen (by decide)

private theorem isCut_pipe {left target : Expr} (hl : left.IsCut) (ht : target.IsCut) :
    (Expr.pipe tok left target).IsCut := by
  intro rest hrest
  simp only [Expr.print, Expr.tokens, List.append_assoc, List.cons_append]
  apply Cut.mark "(" .lparen (by decide)
  apply Cut.append (hl _ (Bytes.endsWord_cons (by decide) _))
  apply Cut.between " |> " "|>" .pipe (by decide) rfl
  apply Cut.append (ht _ (Bytes.endsWord_cons (by decide) _))
  exact Cut.endMark ")" .rparen (by decide)

private theorem isCut_call {callee : Expr} {args : List Expr} (hc : callee.IsCut)
    (ha : ∀ e ∈ args, e.IsCut) : (Expr.call tok callee args).IsCut := by
  intro rest hrest
  simp only [Expr.print, Expr.tokens, List.append_assoc]
  apply Cut.append (hc _ (Bytes.endsWord_cons (by decide) _))
  apply Cut.mark "(" .lparen (by decide)
  apply Cut.append (cut_exprs ha (Bytes.endsWord_cons (by decide) _))
  exact Cut.endMark ")" .rparen (by decide)

private theorem isCut_array {items : List Expr} (hi : ∀ e ∈ items, e.IsCut) :
    (Expr.array tok items).IsCut := by
  intro rest hrest
  simp only [Expr.print, Expr.tokens, List.append_assoc]
  apply Cut.mark "[" .lbracket (by decide)
  apply Cut.append (cut_exprs hi (Bytes.endsWord_cons (by decide) _))
  exact Cut.endMark "]" .rbracket (by decide)

private theorem isCut_lambda (hps : ∀ n ∈ params, n.Legible) (hv : value.IsCut) :
    (Expr.lambda tok params value).IsCut := by
  intro rest hrest
  cases params with
  | nil => exact Cut.leading "|| " "||" .or (by decide) rfl (hv rest hrest)
  | cons n ns =>
    obtain ⟨b, u, hlist, hb⟩ := Name.list_head (hps n (by simp)) ns
    have hbar : Lexes "|" (IsToken .bar "|")
        (Name.list (n :: ns) ++ (Bytes.ofString "| " ++ value.print) ++ rest) := by
      apply lexes_operator_before (by decide)
      rw [hlist]
      intro c hc
      cases hc
      exact hb
    simp only [Expr.print, Expr.tokens, List.append_assoc]
    apply Cut.cons hbar (by decide)
    apply Cut.append (cut_names hps (Bytes.endsWord_cons (by decide) _))
    exact Cut.leading "| " "|" .bar (by decide) rfl (hv rest hrest)

private theorem isCut_bool {constant : Bool} (ho : tok.WellSpelled)
    (hk : tok.kind = .trueWord ∨ tok.kind = .falseWord) : (Expr.bool tok constant).IsCut := by
  intro rest hrest
  obtain ⟨word, hmem⟩ : ∃ word, (word, tok.kind) ∈ Token.Kind.words := by
    rcases hk with hk | hk
    · exact ⟨"true", by rw [hk]; decide⟩
    · exact ⟨"false", by rw [hk]; decide⟩
  rw [Expr.print, Expr.tokens, ho.word word hmem]
  exact Cut.token (lexes_word word tok.kind hmem hrest.name)
    (Token.Kind.inPhrases (List.mem_append_right _ hmem))

end Forms

/-- The text of an expression begins with something that no operator goes on with. -/
theorem Grammar.Formed.print_head {e : Expr} (h : Formed Token.WellSpelled (.expr e)) :
    ∃ b s, e.print = b :: s ∧ b ≠ '=' ∧ b ≠ '>' := by
  generalize htree : Tree.expr e = t at h
  induction h generalizing e with
  | name hn =>
    cases htree
    obtain ⟨b, s, hs, hb⟩ := hn.legible.isName.eq_cons
    refine ⟨b, s, hs, ?_⟩
    constructor <;> (rintro rfl; revert hb; decide)
  | @number tok value ht hk hv =>
    cases htree
    obtain ⟨b, s, hs, hb⟩ := (ht.number hk).eq_cons
    refine ⟨b, s, hs, ?_⟩
    constructor <;> (rintro rfl; revert hb; decide)
  | @bool tok ht hk =>
    cases htree
    rcases hk with hk | hk
    · exact ⟨'t'.toUInt8, "rue", ht.word "true" (by rw [hk]; decide), by decide⟩
    · exact ⟨'f'.toUInt8, "alse", ht.word "false" (by rw [hk]; decide), by decide⟩
  | call ht hk hc ha ihc iha =>
    cases htree
    obtain ⟨b, s, hs, hb⟩ := ihc rfl
    rw [Expr.print, hs]
    exact ⟨b, _, rfl, hb⟩
  | @block brace body =>
    cases htree
    cases body with
    | nil => exact ⟨_, _, rfl, by decide⟩
    | cons s body => exact ⟨_, _, rfl, by decide⟩
  | binary | unary | pipeName | pipeCall | lambda | array | ifThen | ifThenElse | null | string =>
    cases htree
    exact ⟨_, _, rfl, by decide⟩
  | _ => cases htree

/-- The text of a tree that was read is cut into its tokens. -/
def Grammar.Tree.IsCut : Tree → Prop
  | .stmt s => s.IsCut
  | .body stmts => ∀ s ∈ stmts, s.IsCut
  | .expr e => e.IsCut
  | .exprs es => ∀ e ∈ es, e.IsCut

theorem Grammar.Formed.isCut {t : Tree} (h : Formed Token.WellSpelled t) : t.IsCut := by
  induction h with
  | declare ht hk hn hv ih => exact isCut_declare hn.legible ih
  | conciseFunction ht hk hn hps hb ih =>
    exact isCut_function hn.legible (fun n hn => (hps n hn).legible) ih
  | blockFunction ht hk hn hps hb ih =>
    exact isCut_function hn.legible (fun n hn => (hps n hn).legible) ih
  | assign ht hk hn hv ih => exact isCut_assign hn.legible ih
  | leave ht hk => exact isCut_leave
  | ret ht hk hv ih => exact isCut_ret ih hv.ne_missing
  | whileLoop ht hk hc hb ihc ihb => exact isCut_whileLoop ihc ihb
  | forLoop ht hk hn hx hb ihx ihb => exact isCut_forLoop hn.legible ihx ihb
  | exprStatement ht hv ih => exact ih
  | noStatements => exact nofun
  | moreStatements hs hb ihs ihb => exact List.forall_mem_cons.mpr ⟨ihs, ihb⟩
  | ifThen ht hk hc hy ihc ihy => exact isCut_cond ihc ihy nofun
  | ifThenElse ht hk hc hy hn ihc ihy ihn => exact isCut_cond ihc ihy fun _ => ihn
  | block ht hk hb ih => exact isCut_block ih
  | binary level ht hk hl hr ihl ihr => exact isCut_binary ht hk ihl ihr
  | unary ht hk he ih =>
    obtain ⟨b, s, hs, hb⟩ := he.print_head
    exact isCut_unary ht hk ih (by simpa [hs] using hb) (by simp [hs])
  | pipeName ht hk hl hn ihl => exact isCut_pipe ihl (isCut_name hn.legible)
  | pipeCall ht hk hl hp hpk hc ha ihl ihc iha => exact isCut_pipe ihl (isCut_call ihc iha)
  | call ht hk hc ha ihc iha => exact isCut_call ihc iha
  | lambda ht hk hps hb ih => exact isCut_lambda (fun n hn => (hps n hn).legible) ih
  | name hn => exact isCut_name hn.legible
  | number ht hk hv =>
    exact fun rest hrest => .token (lexes_number (ht.number hk) hrest.number) (by decide)
  | string ht hk => exact fun rest hrest => .token (lexes_reread _ rest) (by decide)
  | bool ht hk => exact isCut_bool ht hk
  | null ht hk =>
    exact fun rest hrest => .token (lexes_word "null" .nullWord (by decide) hrest.name) (by decide)
  | array ht hk hx ih => exact isCut_array ih
  | noExprs => exact nofun
  | moreExprs he hes ihe ihes => exact List.forall_mem_cons.mpr ⟨ihe, ihes⟩

/-- The tokens of the text of a program that the parser sees. -/
def Program.tokens (p : Program) : List Token :=
  p.body.flatMap Stmt.tokens

/-- The parser sees the tokens of the statements, one statement to a line. -/
theorem seen?_print {p : Program} (h : Formed Token.WellSpelled (.body p.body)) :
    seen? p.print = some p.tokens := by
  have hcut : ∀ s ∈ p.body, s.IsCut := h.isCut
  rw [Program.print, Program.tokens, Stmt.prints_eq_map]
  generalize p.body = body at hcut
  induction body with
  | nil => exact seen?_of_cut Cut.nil
  | cons s body ih =>
    rw [List.forall_mem_cons] at hcut
    have hline := seen?_of_cut (hcut.1 [] (by simp [Bytes.EndsWord]))
    have hrest := seen?_nextLine hline (ih hcut.2)
    rw [List.map_cons, List.flatMap_cons, List.flatMap_cons, List.append_assoc]
    exact hrest

end PipeCompiler
