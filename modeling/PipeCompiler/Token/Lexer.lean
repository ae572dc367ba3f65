import PipeCompiler.Token.Basic

/-! From source text to tokens.

A text is read as gaps and lexemes in turn: `gap` splits off blanks and a comment, `Lexeme.scan` the
longest lexeme at the head of what is left. A `Cursor` is what is left of a text and where that is;
`Cursor.next` reads one token, `tokenize` all of them up to the end of input. -/
namespace PipeCompiler

namespace Lexeme

/-- Spaces, tabs and carriage returns separate lexemes. Line breaks are lexemes of their own. -/
def isGap (b : UInt8) : Bool :=
  b == ' ' || b == '\t' || b == '\r'

def isLineBreak (b : UInt8) : Bool :=
  b == '\n'

def isLetter (b : UInt8) : Bool :=
  'a'.toUInt8 ≤ b && b ≤ 'z' || 'A'.toUInt8 ≤ b && b ≤ 'Z' || b == '_'

def isDigit (b : UInt8) : Bool :=
  '0'.toUInt8 ≤ b && b ≤ '9'

def isNamePart (b : UInt8) : Bool :=
  isLetter b || isDigit b

def isQuote (b : UInt8) : Bool :=
  b == '"' || b == '\''

/-- What comes before the next lexeme, and the text from there on: blanks, then perhaps a comment
that runs up to the line break. -/
def gap (s : Bytes) : Bytes × Bytes :=
  let blanks := s.takeWhile isGap
  let s := s.dropWhile isGap
  if (Bytes.ofString "//").isPrefixOf s then
    (blanks ++ s.takeWhile (!isLineBreak ·), s.dropWhile (!isLineBreak ·))
  else (blanks, s)

def unescape (b : UInt8) : UInt8 :=
  if b == 'n' then '\n' else if b == 't' then '\t' else if b == 'r' then '\r' else b

/-- Reads a string whose opening quote has been read: its value, its text up to the closing quote
and what follows. There is none if the text ends first. -/
def string? (quote : UInt8) : Bytes → Option (Bytes × Bytes × Bytes)
  | [] => none
  | b :: s =>
    if b == quote then some ([], [b], s)
    else if b == '\\' then
      match s with
      | [] => none
      | e :: s => (string? quote s).map fun (value, text, rest) =>
          (unescape e :: value, b :: e :: text, rest)
    else (string? quote s).map fun (value, text, rest) => (b :: value, b :: text, rest)

/-- Splits off the digits of a number, with a fraction if a digit follows the point. -/
def number (s : Bytes) : Bytes × Bytes :=
  let whole := s.takeWhile isDigit
  match s.dropWhile isDigit with
  | point :: digit :: s =>
    if point == '.' && isDigit digit then
      (whole ++ point :: digit :: s.takeWhile isDigit, s.dropWhile isDigit)
    else (whole, point :: digit :: s)
  | rest => (whole, rest)

inductive Fault
  | unexpected (g : Glyph)
  | unterminated
deriving DecidableEq, Repr

end Lexeme

structure Lexeme where
  kind : Token.Kind
  literal : Bytes
  text : Bytes
deriving DecidableEq, Repr

namespace Lexeme

def scan (b : UInt8) (s : Bytes) : Except Fault (Lexeme × Bytes) :=
  if isLineBreak b then .ok (⟨.newline, [b], [b]⟩, s)
  else if isQuote b then
    match string? b s with
    | some (value, text, rest) => .ok (⟨.string, value, b :: text⟩, rest)
    | none => .error .unterminated
  else if isLetter b then
    let name := b :: s.takeWhile isNamePart
    .ok (⟨.ofName name, name, name⟩, s.dropWhile isNamePart)
  else if isDigit b then
    let (text, rest) := number (b :: s)
    .ok (⟨.number, text, text⟩, rest)
  else
    match Token.Kind.operator? (b :: s) with
    | some (text, kind, rest) => .ok (⟨kind, text, text⟩, rest)
    | none => .error (.unexpected (Glyph.first b s))

theorem gap_length (s : Bytes) : (gap s).2.length ≤ s.length := by
  have h (p : UInt8 → Bool) (s : Bytes) : (s.dropWhile p).length ≤ s.length :=
    (List.dropWhile_suffix p).length_le
  simp only [gap]
  split
  · exact Nat.le_trans (h _ _) (h _ _)
  · exact h _ _

theorem string?_length {quote : UInt8} {s value text rest : Bytes}
    (h : string? quote s = some (value, text, rest)) : rest.length ≤ s.length := by
  fun_induction string? quote s generalizing value text rest with
  | case1 => simp at h
  | case2 b s hb => simp_all
  | case3 => simp at h
  | case4 b hq hb e s ih =>
    simp only [Option.map_eq_some_iff, Prod.exists, Prod.mk.injEq] at h
    obtain ⟨v, t, r, hr, -, -, rfl⟩ := h
    exact Nat.le_trans (ih hr) (Nat.le_add_right _ 2)
  | case5 b s hq hb ih =>
    simp only [Option.map_eq_some_iff, Prod.exists, Prod.mk.injEq] at h
    obtain ⟨v, t, r, hr, -, -, rfl⟩ := h
    exact Nat.le_succ_of_le (ih hr)

theorem number_length (s : Bytes) : (number s).2.length ≤ (s.dropWhile isDigit).length := by
  unfold number
  split
  · rename_i heq
    rw [heq]
    split
    · exact Nat.le_trans (List.dropWhile_suffix _).length_le (Nat.le_add_right _ 2)
    · exact Nat.le_refl _
  · exact Nat.le_refl _

theorem operator?_length {b : UInt8} {s text : Bytes} {kind : Token.Kind} {rest : Bytes}
    (h : Token.Kind.operator? (b :: s) = some (text, kind, rest)) : rest.length ≤ s.length := by
  obtain ⟨⟨op, k⟩, hmem, hop⟩ := List.exists_of_findSome?_eq_some h
  have hne : 1 ≤ (Bytes.ofString op).length := by
    have : ∀ x ∈ Token.Kind.operators, 1 ≤ (Bytes.ofString x.1).length := by decide
    exact this _ hmem
  simp only [Bytes.after?, Option.map_eq_some_iff, Prod.mk.injEq] at hop
  obtain ⟨r, hr, -, -, rfl⟩ := hop
  split at hr
  · simp only [Option.some.injEq] at hr
    rw [← hr, List.length_drop, List.length_cons]
    omega
  · simp at hr

theorem scan_length {b : UInt8} {s : Bytes} {x : Lexeme} {rest : Bytes}
    (h : scan b s = .ok (x, rest)) : rest.length ≤ s.length := by
  unfold scan at h
  split at h
  · simp_all
  split at h
  · split at h
    · rename_i hs
      simp only [Except.ok.injEq, Prod.mk.injEq] at h
      exact h.2 ▸ string?_length hs
    · simp at h
  split at h
  · simp only [Except.ok.injEq, Prod.mk.injEq] at h
    exact h.2 ▸ (List.dropWhile_suffix _).length_le
  split at h
  · rename_i hd
    simp only [Except.ok.injEq, Prod.mk.injEq] at h
    have hn := number_length (b :: s)
    rw [List.dropWhile_cons_of_pos hd] at hn
    exact h.2 ▸ Nat.le_trans hn (List.dropWhile_suffix _).length_le
  · split at h
    · rename_i ho
      simp only [Except.ok.injEq, Prod.mk.injEq] at h
      exact h.2 ▸ operator?_length ho
    · simp at h

def token (x : Lexeme) (pos : Position) : Token :=
  ⟨x.kind, x.literal, if x.kind = .string then x.text else [], pos⟩

end Lexeme

structure Cursor where
  rest : Bytes
  pos : Position
deriving DecidableEq, Repr

structure LexicalError where
  fault : Lexeme.Fault
  pos : Position
deriving DecidableEq, Repr

namespace Cursor

def start (source : Bytes) : Cursor := ⟨source, .start⟩

/-- What reading one token can come to. In every case the gap before it has been read. -/
inductive Step
  | done (stop : Token) (after : Cursor)
  | token (tok : Token) (after : Cursor)
  /-- No token. An unexpected character is left unread, an unterminated string is read to the
  end. -/
  | fail (error : LexicalError) (after : Cursor)

def step (c : Cursor) : Step :=
  let (skipped, s) := Lexeme.gap c.rest
  let pos := c.pos.advance skipped
  match s with
  | [] => .done ⟨.eof, [], [], pos⟩ ⟨[], pos⟩
  | b :: s =>
    match Lexeme.scan b s with
    | .ok (x, rest) => .token (x.token pos) ⟨rest, pos.advance x.text⟩
    | .error .unterminated => .fail ⟨.unterminated, pos⟩ ⟨[], pos.advance (b :: s)⟩
    | .error (.unexpected g) => .fail ⟨.unexpected g, pos⟩ ⟨b :: s, pos⟩

/-- The next token, which is the end-of-input token for ever once nothing is left, and the place
behind it. -/
def next (c : Cursor) : Except LexicalError Token × Cursor :=
  match c.step with
  | .done tok after => (.ok tok, after)
  | .token tok after => (.ok tok, after)
  | .fail error after => (.error error, after)

theorem step_token_length {c : Cursor} {tok : Token} {after : Cursor}
    (h : c.step = .token tok after) : after.rest.length < c.rest.length := by
  have hgap := Lexeme.gap_length c.rest
  simp only [step] at h
  split at h
  · simp at h
  · rename_i b s hs
    rw [hs] at hgap
    split at h
    · rename_i hx
      simp only [Step.token.injEq] at h
      rw [← h.2]
      exact Nat.lt_of_lt_of_le (Nat.lt_succ_of_le (Lexeme.scan_length hx)) hgap
    · simp at h
    · simp at h

def tokens (c : Cursor) : Except LexicalError (List Token) :=
  match _h : c.step with
  | .done stop _ => .ok [stop]
  | .fail error _ => .error error
  | .token tok after => (tokens after).map (tok :: ·)
termination_by c.rest.length
decreasing_by exact step_token_length _h

end Cursor

/-- The tokens of a source text. The last one, and no other, is the end of input. -/
def tokenize (source : Bytes) : Except LexicalError (List Token) :=
  (Cursor.start source).tokens

end PipeCompiler
