import Mathlib.Data.List.Chain
import PipeCompiler.Proofs.CodeForms
import PipeCompiler.Proofs.StringValues
import PipeCompiler.Proofs.TextCuts
import PipeCompiler.Text.Bytes

/-! Indentation.

How deep a statement is nested shows in the spaces that its lines begin with and in nothing else.
The text of an expression stands inside a line, so at a greater depth it has more spaces behind each
line break; the text of a statement is made of whole lines, with more spaces before each of them. -/
namespace PipeCompiler

open Lexeme (isDigit isNamePart)

namespace Bytes

variable {n : Nat} {b : UInt8} {s t text : Bytes}

def spaces (n : Nat) : Bytes :=
  List.replicate n ' '.toUInt8

/-- A text with more spaces before every line. -/
def indentLines (n : Nat) (text : Bytes) : Bytes :=
  (cutLines text).flatMap (spaces n ++ ·)

/-- A text with more spaces behind every line break. -/
def spread (n : Nat) (text : Bytes) : Bytes :=
  text.flatMap fun b : UInt8 => if b = '\n'.toUInt8 then b :: spaces n else [b]

@[simp] theorem spread_append : spread n (s ++ t) = spread n s ++ spread n t :=
  List.flatMap_append

theorem spread_lineBreak (s : Bytes) :
    spread n ('\n'.toUInt8 :: s) = '\n'.toUInt8 :: (spaces n ++ spread n s) := rfl

theorem spread_cons (hb : b ≠ '\n'.toUInt8) (s : Bytes) : spread n (b :: s) = b :: spread n s := by
  rw [spread, List.flatMap_cons, if_neg hb]
  rfl

theorem spread_of_notMem (h : '\n'.toUInt8 ∉ s) : spread n s = s := by
  induction s with
  | nil => rfl
  | cons b s ih =>
    rw [List.mem_cons, not_or] at h
    rw [spread_cons (Ne.symm h.1), ih h.2]

theorem spread_endLine (h : '\n'.toUInt8 ∉ s) : spread n (s ++ "\n") = s ++ "\n" ++ spaces n := by
  have hbreak : spread n "\n" = '\n'.toUInt8 :: (spaces n ++ []) := spread_lineBreak []
  rw [spread_append, spread_of_notMem h, hbreak, List.append_nil, List.append_assoc]
  rfl

/-- The last line of the text is as complete as the others. -/
def EndsLine (text : Bytes) : Prop :=
  ∀ b ∈ text.getLast?, b = '\n'.toUInt8

theorem EndsLine.tail (h : EndsLine (b :: s)) : EndsLine s := by
  intro c hc
  apply h
  rw [List.getLast?_cons, Option.mem_def.mp hc]
  rfl

private theorem cutLines_lineBreak (s : Bytes) :
    cutLines ('\n'.toUInt8 :: s) = ['\n'.toUInt8] :: cutLines s := rfl

private theorem cutLines_ne_nil (b : UInt8) (s : Bytes) : cutLines (b :: s) ≠ [] := by
  rw [cutLines]
  split
  · exact List.cons_ne_nil _ _
  · split <;> exact List.cons_ne_nil _ _

/-- Behind a byte that is no line break a complete text goes on. -/
theorem EndsLine.cutLines_cons (h : EndsLine (b :: s)) (hb : b ≠ '\n'.toUInt8) :
    ∃ line lines, cutLines s = line :: lines ∧ cutLines (b :: s) = (b :: line) :: lines := by
  cases s with
  | nil => exact absurd (h b rfl) hb
  | cons c s =>
    obtain ⟨line, lines, hs⟩ := List.exists_cons_of_ne_nil (cutLines_ne_nil c s)
    refine ⟨line, lines, hs, ?_⟩
    rw [cutLines, hs, if_neg (by simpa using hb)]

/-- Where every line is complete, spaces before the lines are spaces behind the line breaks, but for
those before the first line. -/
theorem EndsLine.indentLines_append (h : EndsLine text) (n : Nat) :
    indentLines n text ++ spaces n = spaces n ++ spread n text := by
  induction text with
  | nil => simp [indentLines, cutLines, spread]
  | cons b s ih =>
    specialize ih h.tail
    by_cases hb : b = '\n'.toUInt8
    · rw [hb, spread_lineBreak, ← ih]
      simp [indentLines, cutLines_lineBreak]
    · obtain ⟨line, lines, hs, hcut⟩ := h.cutLines_cons hb
      rw [indentLines, hs, List.flatMap_cons, List.append_assoc, List.append_assoc,
        List.append_cancel_left_eq] at ih
      rw [spread_cons hb, ← ih, indentLines, hcut]
      simp

/-- What a line can end with. -/
def lineEnds : Bytes := ";\x7b\x7d"

/-- The text does not begin with a line break, and each line break in it is at the end of a line
that is not blank. -/
structure Tidy (text : Bytes) : Prop where
  start : text.head? ≠ some '\n'.toUInt8
  ends : text.IsChain fun a b => b = '\n'.toUInt8 → a ∈ lineEnds

namespace Tidy

theorem plain (h : '\n'.toUInt8 ∉ s) : Tidy s where
  start := fun hstart => h (List.mem_of_mem_head? hstart)
  ends := by
    refine (List.pairwise_of_forall_mem_list fun _ _ b hb hline => ?_).isChain
    rw [hline] at hb
    exact absurd hb h

theorem append (hs : Tidy s) (ht : Tidy t) : Tidy (s ++ t) where
  start := by
    cases s with
    | nil => exact ht.start
    | cons b s => exact hs.start
  ends := List.isChain_append.mpr
    ⟨hs.ends, ht.ends, fun a _ b hb heq => absurd (heq ▸ Option.mem_def.mp hb) ht.start⟩

end Tidy

/-- A line that ends with more than the line break. -/
def IsLine (line : Bytes) : Prop :=
  ∃ start, ∃ b ∈ lineEnds, line = start ++ [b, '\n'.toUInt8]

theorem IsLine.cons (h : IsLine s) (b : UInt8) : IsLine (b :: s) := by
  obtain ⟨start, c, hc, rfl⟩ := h
  exact ⟨b :: start, c, hc, rfl⟩

theorem IsLine.of_lineBreak (h : IsLine ('\n'.toUInt8 :: s)) : IsLine s := by
  obtain ⟨start, c, hc, hline⟩ := h
  cases start with
  | nil =>
    cases (List.cons.inj hline).1
    exact absurd hc (by decide)
  | cons b start => exact ⟨start, c, hc, (List.cons.inj hline).2⟩

/-- The lines of a complete text. The first one is continued from a byte before the text, as it may
be nothing but a line break in the text itself. -/
theorem EndsLine.isLine (h : EndsLine text)
    (hchain : (b :: text).IsChain fun a b => b = '\n'.toUInt8 → a ∈ lineEnds) :
    ∀ line ∈ (cutLines text).modifyHead (b :: ·), IsLine line := by
  induction text generalizing b with
  | nil => exact List.forall_mem_nil _
  | cons c s ih =>
    rw [List.isChain_cons_cons] at hchain
    have hrest := ih h.tail hchain.2
    by_cases hc : c = '\n'.toUInt8
    · rw [hc, cutLines_lineBreak, List.modifyHead_cons, List.forall_mem_cons]
      refine ⟨⟨[], b, hchain.1 hc, rfl⟩, ?_⟩
      cases hs : cutLines s with
      | nil => exact List.forall_mem_nil _
      | cons line lines =>
        rw [hc, hs, List.modifyHead_cons, List.forall_mem_cons] at hrest
        exact List.forall_mem_cons.mpr ⟨hrest.1.of_lineBreak, hrest.2⟩
    · obtain ⟨line, lines, hs, hcut⟩ := h.cutLines_cons hc
      rw [hs, List.modifyHead_cons, List.forall_mem_cons] at hrest
      rw [hcut, List.modifyHead_cons, List.forall_mem_cons]
      exact ⟨hrest.1.cons b, hrest.2⟩

theorem Tidy.isLine (h : Tidy text) (hend : EndsLine text) :
    ∀ line ∈ cutLines text, IsLine line := by
  cases text with
  | nil => exact List.forall_mem_nil _
  | cons b s =>
    have hb : b ≠ '\n'.toUInt8 := fun heq => h.start (congrArg some heq)
    obtain ⟨line, lines, hs, hcut⟩ := hend.cutLines_cons hb
    have hlines := hend.tail.isLine h.ends
    rw [hs] at hlines
    rw [hcut]
    exact hlines

set_option maxRecDepth 2000 in
theorem IsLine.not_blank (h : IsLine s) : ∃ b ∈ s, ' '.toUInt8 < b := by
  obtain ⟨start, b, hb, rfl⟩ := h
  have hall : ∀ b ∈ lineEnds, ' '.toUInt8 < b := by decide
  exact ⟨b, by simp, hall b hb⟩

/-- The text begins with something to be seen. -/
def Starts (text : Bytes) : Prop :=
  ∃ b ∈ text.head?, ' '.toUInt8 < b

instance (text : Bytes) : Decidable (Starts text) :=
  inferInstanceAs (Decidable (∃ b ∈ text.head?, _))

theorem Starts.append (h : Starts s) (t : Bytes) : Starts (s ++ t) := by
  obtain ⟨b, hb, hlt⟩ := h
  rw [List.eq_cons_of_mem_head? hb]
  exact ⟨b, rfl, hlt⟩

/-- The text ends so that a line may end with it. -/
def Closes (text : Bytes) : Prop :=
  ∃ b ∈ text.getLast?, b ∈ lineEnds

instance (text : Bytes) : Decidable (Closes text) :=
  inferInstanceAs (Decidable (∃ b ∈ text.getLast?, _))

theorem Closes.before (h : Closes t) (s : Bytes) : Closes (s ++ t) := by
  obtain ⟨b, hb, hmem⟩ := h
  refine ⟨b, ?_, hmem⟩
  rw [List.getLast?_append, Option.mem_def.mp hb]
  rfl

theorem Tidy.endLine (hs : Tidy s) (hc : Closes s) : Tidy (s ++ "\n") := by
  obtain ⟨b, hb, hmem⟩ := hc
  constructor
  · cases s with
    | nil => cases hb
    | cons c s => exact hs.start
  · refine List.isChain_append.mpr ⟨hs.ends, List.isChain_singleton _, fun a ha _ _ _ => ?_⟩
    cases Option.mem_unique ha hb
    exact hmem

end Bytes

namespace Target

open Bytes (spaces spread Tidy Starts Closes)

/-- A text inside a line, for every depth of the line. -/
structure InLine (f : Nat → Bytes) : Prop where
  shift : ∀ depth k, f (depth + k) = spread (2 * k) (f depth)
  tidy : ∀ depth, Tidy (f depth)

/-- Whole lines, for every depth. -/
structure OnLines (f : Nat → Bytes) : Prop where
  shift : ∀ depth k, f (depth + k) ++ spaces (2 * k) = spaces (2 * k) ++ spread (2 * k) (f depth)
  tidy : ∀ depth, Tidy (f depth)

/-- A text at the end of a line. -/
structure AtLineEnd (f : Nat → Bytes) : Prop extends InLine f where
  closes : ∀ depth, Closes (f depth)

/-- A statement, from its first byte to the one before its last line break. -/
structure IsStatement (f : Nat → Bytes) : Prop extends AtLineEnd f where
  starts : ∀ depth, Starts (f depth)

theorem indent_add (depth k : Nat) : indent (depth + k) = spaces (2 * k) ++ indent depth := by
  rw [indent, indent, spaces, List.replicate_append_replicate]
  congr 1
  omega

theorem lineBreak_notMem_indent (depth : Nat) : '\n'.toUInt8 ∉ indent depth := by
  intro hmem
  exact absurd (List.eq_of_mem_replicate hmem) (by decide)

section

variable {f g : Nat → Bytes} {s : Bytes}

namespace InLine

theorem plain (h : '\n'.toUInt8 ∉ s) : InLine fun _ => s :=
  ⟨fun _ _ => (Bytes.spread_of_notMem h).symm, fun _ => .plain h⟩

theorem append (hf : InLine f) (hg : InLine g) : InLine fun depth => f depth ++ g depth where
  shift depth k := by rw [hf.shift, hg.shift, Bytes.spread_append]
  tidy depth := (hf.tidy depth).append (hg.tidy depth)

/-- A fixed text may stand before. -/
theorem after (h : InLine f) (s : String) (hs : '\n'.toUInt8 ∉ Bytes.ofString s) :
    InLine fun depth => Bytes.ofString s ++ f depth :=
  (plain hs).append h

/-- A fixed text may follow. -/
theorem before (h : InLine f) (s : String) (hs : '\n'.toUInt8 ∉ Bytes.ofString s) :
    InLine fun depth => f depth ++ Bytes.ofString s :=
  h.append (plain hs)

/-- Statements in braces, one level deeper. -/
theorem braces {body : Nat → Bytes} (hf : InLine f) (hb : OnLines body) (hg : InLine g) :
    InLine fun depth =>
      f depth ++ ("\x7b\n" ++ (body (depth + 1) ++ (indent depth ++ g depth))) where
  shift depth k := by
    have hbody := hb.shift (depth + 1) k
    have hopen : spread (2 * k) "\x7b\n" = Bytes.ofString "\x7b\n" ++ spaces (2 * k) :=
      Bytes.spread_endLine (by decide : '\n'.toUInt8 ∉ Bytes.ofString "\x7b")
    rw [Nat.add_right_comm] at hbody
    simp only [Bytes.spread_append, hopen, Bytes.spread_of_notMem (lineBreak_notMem_indent depth),
      ← hf.shift, ← hg.shift, indent_add, List.append_assoc]
    rw [← List.append_assoc (spaces _) (spread _ _), ← hbody, List.append_assoc]
  tidy depth := by
    have hopen : Tidy "\x7b\n" := ⟨by decide, by decide⟩
    have hindent : Tidy (indent depth) := .plain (lineBreak_notMem_indent depth)
    exact (hf.tidy depth).append
      (hopen.append ((hb.tidy (depth + 1)).append (hindent.append (hg.tidy depth))))

end InLine

namespace AtLineEnd

theorem closingBrace : AtLineEnd fun _ => Bytes.ofString "\x7d" :=
  ⟨.plain (by decide), fun _ => by decide⟩

theorem braces {body : Nat → Bytes} (hf : InLine f) (hb : OnLines body) (hg : AtLineEnd g) :
    AtLineEnd fun depth =>
      f depth ++ ("\x7b\n" ++ (body (depth + 1) ++ (indent depth ++ g depth))) where
  toInLine := hf.braces hb hg.toInLine
  closes depth := ((((hg.closes depth).before _).before _).before _).before _

end AtLineEnd

namespace OnLines

theorem nil : OnLines fun _ => [] :=
  ⟨fun _ _ => (List.append_nil _).symm, fun _ => .plain List.not_mem_nil⟩

theorem append (hf : OnLines f) (hg : OnLines g) : OnLines fun depth => f depth ++ g depth where
  shift depth k := by
    rw [List.append_assoc, hg.shift, ← List.append_assoc, hf.shift, List.append_assoc,
      Bytes.spread_append]
  tidy depth := (hf.tidy depth).append (hg.tidy depth)

end OnLines

theorem IsStatement.onLines (h : IsStatement f) :
    OnLines fun depth => indent depth ++ (f depth ++ "\n") where
  shift depth k := by
    have hbreak : spread (2 * k) "\n" = Bytes.ofString "\n" ++ spaces (2 * k) :=
      Bytes.spread_endLine List.not_mem_nil
    simp only [Bytes.spread_append, hbreak, Bytes.spread_of_notMem (lineBreak_notMem_indent depth),
      ← h.shift, indent_add, List.append_assoc]
  tidy depth := by
    have hindent : Tidy (indent depth) := .plain (lineBreak_notMem_indent depth)
    exact hindent.append ((h.tidy depth).endLine (h.closes depth))

end

end Target

open Bytes (Starts)

theorem Lexeme.space_lt_of_isNamePart {b : UInt8} (h : isNamePart b = true) : ' '.toUInt8 < b := by
  simp only [isNamePart, isLetter, isDigit, Bool.or_eq_true, Bool.and_eq_true, decide_eq_true_eq,
    beq_iff_eq] at h
  rcases h with ((h | h) | rfl) | h
  · exact UInt8.lt_of_lt_of_le (by decide) h.1
  · exact UInt8.lt_of_lt_of_le (by decide) h.1
  · decide
  · exact UInt8.lt_of_lt_of_le (by decide) h.1

section

variable {s : Bytes}

theorem Lexeme.IsName.starts (h : IsName s) : Starts s := by
  obtain ⟨b, t, rfl, -⟩ := h.eq_cons
  exact ⟨b, rfl, space_lt_of_isNamePart (h.isNamePart b List.mem_cons_self)⟩

theorem Lexeme.IsNumber.starts (h : IsNumber s) : Starts s := by
  obtain ⟨b, t, rfl, hb⟩ := h.eq_cons
  exact ⟨b, rfl, space_lt_of_isNamePart (by simp [isNamePart, hb])⟩

end

namespace Target

private theorem starts_numberLiteral (x : Double) : Starts (numberLiteral x) := by
  have hnumber := (Decimal.positional_read (Double.shortest x.ordinal)).1.starts
  simp only [numberLiteral]
  split_ifs
  · decide
  · decide
  · decide
  · exact Starts.append (by decide) _
  · exact hnumber

private theorem lineBreak_notMem_stringLiteral (s : Bytes) : '\n'.toUInt8 ∉ stringLiteral s := by
  obtain ⟨ds, text, hds, -, hliteral⟩ := exists_writes_stringLiteral s
  have hallowed : ∀ d ∈ '"' :: (ds ++ ['"']), 0x20 ≤ d.toNat := by
    rw [List.forall_mem_cons, List.forall_mem_append, List.forall_mem_singleton]
    exact ⟨by decide, fun d hd => (hds.allowed d hd).1, by decide⟩
  rw [hliteral]
  intro hmem
  obtain ⟨d, hd, hbyte⟩ := List.mem_flatMap.mp hmem
  exact absurd (Bytes.ofChar_printable (hallowed d hd) _ hbyte) (by decide)

private theorem starts_stringLiteral (s : Bytes) : Starts (stringLiteral s) :=
  (Starts.append (by decide) _).append _

private theorem lineBreak_notMem_library {name : Bytes} (h : Library.isName name = true) :
    '\n'.toUInt8 ∉ name := by
  have hall : ∀ name ∈ Library.names, '\n'.toUInt8 ∉ name := by decide
  exact hall name (by simpa [Library.isName] using h)

private theorem lineBreak_notMem_operator {op : String}
    (h : op ∈ binaryOperators ++ unaryOperators) :
    '\n'.toUInt8 ∉ Bytes.ofString op := by
  have hall : ∀ op ∈ binaryOperators ++ unaryOperators, '\n'.toUInt8 ∉ Bytes.ofString op := by
    decide
  exact hall op h

open Bytes (Closes)

/-- The part is printed on lines of its own or inside a line, as it should be. The line break behind
a branch counts as a part of the alternative, and so does the brace before it. -/
def Part.IsLaidOut : Part → Prop
  | .expr e => InLine (fun depth => e.print depth) ∧ ∀ depth, Starts (e.print depth)
  | .exprs es => InLine fun depth => commaList (Expr.prints depth es)
  | .stmt s => ∃ f, IsStatement f ∧ ∀ depth, s.print depth = indent depth ++ (f depth ++ "\n")
  | .body stmts => OnLines fun depth => Stmt.prints depth stmts
  | .otherwise no => ∃ f, AtLineEnd f ∧ ∀ depth, "\x7d" ++ no.print depth = f depth ++ "\n"

namespace Part.IsLaidOut

variable {s : Stmt} {body : List Stmt} {f : Nat → Bytes}

/-- A statement on the line of its expression. -/
theorem simple (hf : InLine f) (hstarts : ∀ depth, Starts (f depth))
    (hprint : ∀ depth, s.print depth = indent depth ++ (f depth ++ ";\n")) :
    (Part.stmt s).IsLaidOut := by
  have hall : AtLineEnd fun depth => f depth ++ Bytes.ofString ";" :=
    ⟨hf.before ";" (by decide), fun _ => Closes.before (by decide) _⟩
  refine ⟨_, ⟨hall, fun depth => ?_⟩, fun depth => ?_⟩
  · exact (hstarts depth).append _
  · rw [hprint, List.append_assoc (f depth)]
    rfl

/-- A statement with a body in braces, and what follows the body. -/
theorem compound {g : Nat → Bytes} (hf : InLine f)
    (hstarts : ∀ depth, Starts (f depth ++ "\x7b\n")) (hb : (Part.body body).IsLaidOut)
    (hg : AtLineEnd g)
    (hprint : ∀ depth, s.print depth = indent depth ++ (f depth ++ ("\x7b\n" ++
      (Stmt.prints (depth + 1) body ++ (indent depth ++ (g depth ++ "\n")))))) :
    (Part.stmt s).IsLaidOut := by
  refine ⟨_, ⟨.braces hf hb hg, fun depth => ?_⟩, fun depth => ?_⟩
  · rw [← List.append_assoc]
    exact (hstarts depth).append _
  · rw [hprint]
    simp only [List.append_assoc]

theorem statement (h : (Part.stmt s).IsLaidOut) : OnLines fun depth => s.print depth := by
  obtain ⟨f, hf, hprint⟩ := h
  simp only [hprint]
  exact hf.onLines

theorem items {e : Expr} {es : List Expr} (he : InLine fun depth => e.print depth)
    (hes : (Part.exprs es).IsLaidOut) : (Part.exprs (e :: es)).IsLaidOut := by
  cases es with
  | nil => simpa only [IsLaidOut, Expr.prints, commaList, List.intercalate_singleton] using he
  | cons x es =>
    simp only [IsLaidOut, Expr.prints, commaList, List.intercalate_cons_cons]
    exact (he.before ", " (by decide)).append hes

end Part.IsLaidOut

theorem InLine.name {name : Bytes} (h : Lexeme.IsName name) : InLine fun _ => name :=
  .plain (h.notMem (by decide))

theorem InLine.params {params : List Bytes} (h : ∀ p ∈ params, Lexeme.IsName p) :
    InLine fun _ => commaList params :=
  .plain (Bytes.notMem_intercalate (by decide) fun p hp => (h p hp).notMem (by decide))

/-- Well-spelled code is laid out as it should be. -/
theorem Part.WellSpelled.isLaidOut {part : Part} (h : part.WellSpelled) : part.IsLaidOut := by
  induction h with
  | name h => exact ⟨.name h, fun _ => h.starts⟩
  | library h =>
    have hname := (InLine.plain (lineBreak_notMem_library h)).after "." (by decide)
    simp only [IsLaidOut, Expr.print, List.append_assoc]
    exact ⟨(InLine.plain (by decide)).append hname, fun _ => Starts.append (by decide) _⟩
  | number value =>
    exact ⟨.plain (notMem_numberLiteral (by decide) (by decide) (by decide) value),
      fun _ => starts_numberLiteral value⟩
  | string value =>
    exact ⟨.plain (lineBreak_notMem_stringLiteral value), fun _ => starts_stringLiteral value⟩
  | bool value =>
    simp only [IsLaidOut, Expr.print]
    cases value <;> exact ⟨.plain (by decide), fun _ => by decide⟩
  | null | undefined =>
    simp only [IsLaidOut, Expr.print]
    exact ⟨.plain (by decide), fun _ => by decide⟩
  | array h ih =>
    simp only [IsLaidOut, Expr.print, List.append_assoc]
    exact ⟨(InLine.before ih "]" (by decide)).after "[" (by decide),
      fun _ => Starts.append (by decide) _⟩
  | binary hl hop hr ihl ihr =>
    have hop := lineBreak_notMem_operator (List.mem_append_left _ hop)
    have hright := (((ihr.1.before ")" (by decide)).after " " (by decide)).after _ hop).after " "
      (by decide)
    simp only [IsLaidOut, Expr.print, List.append_assoc]
    exact ⟨(ihl.1.append hright).after "(" (by decide), fun _ => Starts.append (by decide) _⟩
  | unary hop h ih =>
    have hop := lineBreak_notMem_operator (List.mem_append_right _ hop)
    simp only [IsLaidOut, Expr.print, List.append_assoc]
    exact ⟨((ih.1.before ")" (by decide)).after _ hop).after "(" (by decide),
      fun _ => Starts.append (by decide) _⟩
  | call hc ha ihc iha =>
    have hargs := (InLine.before iha ")" (by decide)).after "(" (by decide)
    simp only [IsLaidOut, Expr.print, List.append_assoc]
    exact ⟨ihc.1.append hargs, fun depth => (ihc.2 depth).append _⟩
  | arrow hps h ih =>
    have hbody := (ih.1.before ")" (by decide)).after ") => " (by decide)
    simp only [IsLaidOut, Expr.print, List.append_assoc]
    exact ⟨((InLine.params hps).append hbody).after "((" (by decide),
      fun _ => Starts.append (by decide) _⟩
  | closure hps h ih =>
    have hstart := ((InLine.params hps).before ") => " (by decide)).after "((" (by decide)
    have hall := hstart.braces ih (.plain (by decide : '\n'.toUInt8 ∉ Bytes.ofString "\x7d)"))
    simp only [List.append_assoc] at hall
    simp only [IsLaidOut, Expr.print, List.append_assoc]
    exact ⟨hall, fun _ => Starts.append (by decide) _⟩
  | choose ht hy hn iht ihy ihn =>
    have hno := (ihn.1.before ")" (by decide)).after " : " (by decide)
    have hyes := (ihy.1.append hno).after " ? " (by decide)
    simp only [IsLaidOut, Expr.print, List.append_assoc]
    exact ⟨(iht.1.append hyes).after "(" (by decide), fun _ => Starts.append (by decide) _⟩
  | noExprs => exact .plain (by decide)
  | moreExprs he hes ihe ihes => exact .items ihe.1 ihes
  | @declare constant name value hn hv ih =>
    have hname := (InLine.name hn).append (ih.1.after " = " (by decide))
    cases constant with
    | true =>
      refine .simple (hname.after "const " (by decide)) (fun _ => Starts.append (by decide) _) ?_
      simp [Stmt.print]
    | false =>
      refine .simple (hname.after "let " (by decide)) (fun _ => Starts.append (by decide) _) ?_
      simp [Stmt.print]
  | function hn hps hb ih =>
    have hparams := ((InLine.params hps).before ") " (by decide)).after "(" (by decide)
    have hstart := ((InLine.name hn).append hparams).after "function " (by decide)
    refine .compound hstart (fun _ => (Starts.append (by decide) _).append _) ih .closingBrace
      fun depth => ?_
    simp only [Stmt.print, List.append_assoc]
    rfl
  | assign hn hv ih =>
    refine .simple ((InLine.name hn).append (ih.1.after " = " (by decide)))
      (fun _ => hn.starts.append _) fun depth => ?_
    simp only [Stmt.print, List.append_assoc]
  | ret hv ih =>
    refine .simple (ih.1.after "return " (by decide)) (fun _ => Starts.append (by decide) _)
      fun depth => ?_
    simp only [Stmt.print, List.append_assoc]
  | leave =>
    have hword : InLine fun _ => Bytes.ofString "return" := .plain (by decide)
    refine .simple hword (fun _ => by decide) fun depth => ?_
    rw [Stmt.print]
    rfl
  | whileLoop ht hb iht ihb =>
    have hstart := (iht.1.before ") " (by decide)).after "while (" (by decide)
    refine .compound hstart (fun _ => (Starts.append (by decide) _).append _) ihb .closingBrace
      fun depth => ?_
    simp only [Stmt.print, List.append_assoc]
    rfl
  | forLoop hn hx hb ihx ihb =>
    have hitems := (ihx.1.before ") " (by decide)).after " of " (by decide)
    have hstart := ((InLine.name hn).append hitems).after "for (const " (by decide)
    refine .compound hstart (fun _ => (Starts.append (by decide) _).append _) ihb .closingBrace
      fun depth => ?_
    simp only [Stmt.print, List.append_assoc]
    rfl
  | exprStatement hv ih =>
    refine .simple ih.1 ih.2 fun depth => ?_
    simp only [Stmt.print, List.append_assoc]
  | block hb ih =>
    have hstart : InLine fun _ => [] := .plain List.not_mem_nil
    refine .compound hstart (fun _ => by decide) ih .closingBrace fun depth => ?_
    simp only [Stmt.print, List.append_assoc, List.nil_append]
    rfl
  | branch ht hy hn iht ihy ihn =>
    obtain ⟨g, hg, hprint⟩ := ihn
    have hstart := (iht.1.before ") " (by decide)).after "if (" (by decide)
    refine .compound hstart (fun _ => (Starts.append (by decide) _).append _) ihy hg fun depth => ?_
    simp only [Stmt.print, ← hprint, List.append_assoc]
    rfl
  | noStatements => exact .nil
  | moreStatements hs hb ihs ihb => exact ihs.statement.append ihb
  | noElse => exact ⟨_, .closingBrace, fun depth => by rw [Else.print]⟩
  | elseBody hb ih =>
    have hstart : InLine fun _ => Bytes.ofString "\x7d else " := .plain (by decide)
    refine ⟨_, .braces hstart ih .closingBrace, fun depth => ?_⟩
    simp only [Else.print, List.append_assoc]
    rfl
  | elseIf ht hy hn iht ihy ihn =>
    obtain ⟨g, hg, hprint⟩ := ihn
    have hstart := (iht.1.before ") " (by decide)).after "\x7d else if (" (by decide)
    refine ⟨_, .braces hstart ihy hg, fun depth => ?_⟩
    simp only [Else.print, List.append_assoc, ← hprint]
    rfl

/-- What the text of a statement is like at a depth. -/
structure IsFragment (depth : Nat) (text : Bytes) : Prop where
  ne_nil : text ≠ []
  ends : text.getLast? = some '\n'.toUInt8
  noBlankLine : ∀ line ∈ Bytes.cutLines text, ∃ b ∈ line, ' '.toUInt8 < b
  starts : ∃ b rest, text = Bytes.spaces (2 * depth) ++ b :: rest ∧ ' '.toUInt8 < b

variable {s : Stmt}

theorem Part.IsLaidOut.getLast? (h : (Part.stmt s).IsLaidOut) (depth : Nat) :
    (s.print depth).getLast? = some '\n'.toUInt8 := by
  obtain ⟨f, hf, hprint⟩ := h
  rw [hprint, ← List.append_assoc]
  exact List.getLast?_concat

theorem Part.IsLaidOut.endsLine (h : (Part.stmt s).IsLaidOut) (depth : Nat) :
    Bytes.EndsLine (s.print depth) := by
  rw [Bytes.EndsLine, h.getLast? depth]
  rintro _ ⟨⟩
  rfl

theorem Part.IsLaidOut.shift (h : (Part.stmt s).IsLaidOut) (depth k : Nat) :
    s.print (depth + k) = Bytes.indentLines (2 * k) (s.print depth) := by
  have hshift := h.statement.shift depth k
  rw [← (h.endsLine depth).indentLines_append (2 * k)] at hshift
  exact List.append_cancel_right hshift

theorem Part.IsLaidOut.fragment (h : (Part.stmt s).IsLaidOut) (depth : Nat) :
    IsFragment depth (s.print depth) := by
  have hlast := h.getLast? depth
  refine ⟨?_, hlast, ?_, ?_⟩
  · intro hnil
    rw [hnil] at hlast
    cases hlast
  · intro line hline
    exact ((h.statement.tidy depth).isLine (h.endsLine depth) line hline).not_blank
  · obtain ⟨f, hf, hprint⟩ := h
    obtain ⟨b, hb, hlt⟩ := hf.starts depth
    rw [hprint, List.eq_cons_of_mem_head? hb]
    exact ⟨b, _, rfl, hlt⟩

end Target

/-- Every statement of a program has code, whether it returns its value or not. How deep it stands
shows in two spaces for each level before every line of its text and in nothing else. The text ends
with a line break, no line of it is blank, and it begins with the spaces of its depth and then
something to be seen. -/
theorem nesting_only_indents {source : Bytes} {p : Program} {s : Stmt}
    (h : Program.parse source = .ok p) (hs : Node.stmt s ∈ p.outline.labels) (returns : Bool) :
    ∃ code, s.lower returns = .ok code ∧
      (∀ depth k, code.print (depth + k) = Bytes.indentLines (2 * k) (code.print depth)) ∧
      ∀ depth, Target.IsFragment depth (code.print depth) := by
  have hformed : Grammar.Formed Token.WellSpelled (.stmt s) := Program.parse_nodes h _ hs
  obtain ⟨code, hcode, hbecomes⟩ := hformed.lowers returns
  have hlaid := hbecomes.wellSpelled.isLaidOut
  exact ⟨code, hcode, hlaid.shift, hlaid.fragment⟩

/-- Functions in functions, choices in a row, and a string with a line break. -/
def Grammar.nestedStatements : Bytes :=
  "fn f(x) \x7b\n  if x \x7b y = |z| \x7b print('a\nb') \x7d \x7d else if y then 1 else 2\n\x7d"

theorem nesting_only_indents_nestedStatements :
    ∃ p s code, Program.parse Grammar.nestedStatements = .ok p ∧
      .stmt s ∈ p.outline.labels ∧ s.kindName = "AssignmentStatement" ∧
      s.lower true = .ok code ∧ code.print 5 = Bytes.indentLines 6 (code.print 2) ∧
      Target.IsFragment 2 (code.print 2) := by
  obtain ⟨p, h⟩ := eq_ok_of_isSome (x := Program.parse Grammar.nestedStatements) (by decide +kernel)
  have hkinds : (Program.parse Grammar.nestedStatements).toOption.any (fun p =>
      (p.outline.labels.map Node.kindName).contains "AssignmentStatement") = true := by
    decide +kernel
  rw [h] at hkinds
  obtain ⟨node, hnode, hkind⟩ := List.mem_map.mp (List.contains_iff_mem.mp hkinds)
  obtain ⟨s, rfl⟩ : ∃ s, node = .stmt s := by
    cases node with
    | program p => simp [Node.kindName] at hkind
    | stmt s => exact ⟨s, rfl⟩
    | expr e => cases e <;> simp [Node.kindName, Expr.kindName] at hkind
    | missingBody => simp [Node.kindName] at hkind
  obtain ⟨code, hcode, hshift, hfragment⟩ := nesting_only_indents h hnode true
  exact ⟨p, s, code, h, hnode, hkind, hcode, hshift 2 3, hfragment 2⟩

end PipeCompiler
