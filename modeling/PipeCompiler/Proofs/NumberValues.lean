import PipeCompiler.Proofs.CorrectRounding
import PipeCompiler.Proofs.DiagnosticPlaces
import PipeCompiler.Proofs.PrintedExpressions
import PipeCompiler.Proofs.StatementSequences
import PipeCompiler.Proofs.UniqueReadability

/-! What the numbers of a source text become.

A number of any length is read as the number nearest to what it says, and the code has a number that
reads as the same. Only what is too large for the format has another form. -/
namespace PipeCompiler

open Numeral (value)
open Lexeme (isDigit)

namespace Lexeme

variable {ds fs : Bytes}

/-- The value of digits before the point. -/
def wholeValue (ds : Bytes) : ℚ :=
  ds.foldl (fun x b => 10 * x + ((b.toNat : ℚ) - 48)) 0

/-- The value of digits behind the point. -/
def fractionValue : Bytes → ℚ
  | [] => 0
  | b :: fs => (((b.toNat : ℚ) - 48) + fractionValue fs) / 10

/-- The exact value of a number. -/
def exactValue (s : Bytes) : ℚ :=
  wholeValue (s.takeWhile isDigit) + fractionValue (s.dropWhile isDigit).tail

theorem value_cons {b : UInt8} (hb : isDigit b = true) (hds : ∀ c ∈ ds, isDigit c = true) :
    value 10 (b :: ds) = (b.toNat - 48) * 10 ^ ds.length + value 10 ds := by
  have hone : value 10 [b] = b.toNat - 48 := by simp [value, Numeral.digit?_digit hb]
  rw [← List.singleton_append, value_append hds, hone]

private theorem value_lt (hds : ∀ b ∈ ds, isDigit b = true) : value 10 ds < 10 ^ ds.length := by
  induction ds with
  | nil => decide
  | cons b ds ih =>
    rw [List.forall_mem_cons] at hds
    have hb : b.toNat - 48 ≤ 9 := by
      have hbounds := Numeral.isDigit_bounds hds.1
      omega
    rw [value_cons hds.1 hds.2, List.length_cons, Nat.pow_succ]
    have hlead := Nat.mul_le_mul_right (10 ^ ds.length) hb
    have hrest := ih hds.2
    omega

theorem cast_digit {b : UInt8} (hb : isDigit b = true) :
    ((b.toNat - 48 : Nat) : ℚ) = (b.toNat : ℚ) - 48 := by
  rw [Nat.cast_sub (Numeral.isDigit_bounds hb).1]
  rfl

theorem wholeValue_eq (hds : ∀ b ∈ ds, isDigit b = true) : wholeValue ds = (value 10 ds : ℚ) := by
  have hfold (x : ℚ) : ds.foldl (fun x b => 10 * x + ((b.toNat : ℚ) - 48)) x =
      x * 10 ^ ds.length + value 10 ds := by
    induction ds generalizing x with
    | nil => simp [value]
    | cons b ds ih =>
      rw [List.forall_mem_cons] at hds
      rw [List.foldl_cons, ih hds.2, value_cons hds.1 hds.2, List.length_cons]
      push_cast [cast_digit hds.1]
      ring
  rw [wholeValue, hfold, zero_mul, zero_add]

private theorem fractionValue_eq (hfs : ∀ b ∈ fs, isDigit b = true) :
    fractionValue fs = (value 10 fs : ℚ) / (10 ^ fs.length : Nat) := by
  induction fs with
  | nil => simp [fractionValue, value]
  | cons b fs ih =>
    rw [List.forall_mem_cons] at hfs
    rw [fractionValue, ih hfs.2, value_cons hfs.1 hfs.2, List.length_cons]
    push_cast [cast_digit hfs.1]
    field_simp
    ring

private theorem exactValue_whole (hds : ∀ b ∈ ds, isDigit b = true) :
    exactValue ds = (value 10 ds : ℚ) / (10 ^ 0 : Nat) := by
  have hend : ∀ b ∈ ([] : Bytes).head?, isDigit b = false := nofun
  obtain ⟨htake, hdrop⟩ := takeWhile_append_of_head hds hend
  rw [List.append_nil] at htake hdrop
  rw [exactValue, htake, hdrop, wholeValue_eq hds]
  simp [fractionValue]

private theorem exactValue_fraction (hds : ∀ b ∈ ds, isDigit b = true)
    (hfs : ∀ b ∈ fs, isDigit b = true) :
    exactValue (ds ++ '.'.toUInt8 :: fs) =
      (value 10 (ds ++ fs) : ℚ) / (10 ^ fs.length : Nat) := by
  have hpoint : ∀ b ∈ ('.'.toUInt8 :: fs).head?, isDigit b = false := by
    rintro b ⟨⟩
    decide
  obtain ⟨htake, hdrop⟩ := takeWhile_append_of_head hds hpoint
  rw [exactValue, htake, hdrop, List.tail_cons, wholeValue_eq hds, fractionValue_eq hfs,
    value_append hfs]
  push_cast
  field_simp

/-- A number is read as the number nearest to its exact value. -/
theorem IsNumber.read?_rounded {s : Bytes} (h : IsNumber s) :
    ∃ k, Double.IsRounded (exactValue s) k ∧ Double.read? s = some (.ofOrdinal false k) := by
  have hrounded {n p : Nat} (hvalue : exactValue s = (n : ℚ) / (10 ^ p : Nat))
      (hread : Numeral.read? s = some (.finite false n 10 (-p))) :
      ∃ k, Double.IsRounded (exactValue s) k ∧ Double.read? s = some (.ofOrdinal false k) := by
    refine ⟨Numeral.scaledOrdinal n 10 (-p), ?_, ?_⟩
    · rw [hvalue]
      exact (Double.scaledOrdinal_rounds n p).isRounded (Nat.pow_pos (by decide))
    · rw [Double.read?, hread]
      rfl
  cases h with
  | whole hne hds => exact hrounded (exactValue_whole hds) (Numeral.read?_whole hne hds)
  | fraction hne hds hfne hfs =>
    exact hrounded (exactValue_fraction hds hfs) (Numeral.read?_fraction hne hds hfs)

/-- A number that does not begin with a zero but for one before the point, and has no exponent. -/
structure IsPlain (s : Bytes) : Prop where
  isNumber : IsNumber s
  leadingZero : ∀ rest, s = '0'.toUInt8 :: rest → ∀ b ∈ rest.head?, b = '.'.toUInt8
  noExponent : 'e'.toUInt8 ∉ s ∧ 'E'.toUInt8 ∉ s

theorem IsNumber.isDigit_of_mem {s : Bytes} (h : IsNumber s) :
    ∀ b ∈ s, isDigit b = true ∨ b = '.'.toUInt8 := by
  intro b hb
  cases h with
  | whole hne hds => exact .inl (hds b hb)
  | fraction hne hds hfne hfs =>
    rcases List.mem_append.mp hb with hb | hb
    · exact .inl (hds b hb)
    · exact (List.mem_cons.mp hb).symm.imp_left (hfs b)

end Lexeme

private theorem ofNat_leadingZero {n : Nat} {rest : Bytes}
    (h : Bytes.ofNat n = '0'.toUInt8 :: rest) :
    rest = [] := by
  have hdigits := isDigit_ofNat n
  have hvalue := value_ofNat n
  have hlength : (Nat.toDigits 10 n).length = rest.length + 1 := by
    rw [← List.length_cons, ← h, Bytes.ofNat, List.length_map]
  rw [h, List.forall_mem_cons] at hdigits
  rw [h, Lexeme.value_cons hdigits.1 hdigits.2] at hvalue
  rcases Nat.eq_zero_or_pos n with rfl | hn
  · cases h
    rfl
  · -- The zero adds nothing, and what is behind it is too small.
    have hle := Double.le_of_toDigits hn
    have hlt := Lexeme.value_lt hdigits.2
    have hzero : '0'.toUInt8.toNat - 48 = 0 := rfl
    rw [hlength, Nat.add_sub_cancel] at hle
    rw [hzero, Nat.zero_mul, Nat.zero_add] at hvalue
    omega

private theorem Decimal.positional_eq (d : Decimal) :
    ∃ n tail, d.positional = Bytes.ofNat n ++ tail ∧ ∀ b ∈ tail.head?, b = '.'.toUInt8 := by
  unfold positional
  dsimp only
  split
  · exact ⟨_, [], (List.append_nil _).symm, by simp⟩
  split
  · exact ⟨_, [], (List.append_nil _).symm, by simp⟩
  · refine ⟨_, _, List.append_assoc _ _ _, ?_⟩
    rintro b ⟨⟩
    rfl

private theorem Decimal.isPlain_positional (d : Decimal) : Lexeme.IsPlain d.positional := by
  have hnumber := d.positional_read.1
  refine ⟨hnumber, fun rest hrest b hb => ?_, ?_, ?_⟩
  · obtain ⟨n, tail, hpos, htail⟩ := d.positional_eq
    obtain ⟨first, others, hn⟩ := List.exists_cons_of_ne_nil (ofNat_ne_nil n)
    rw [hpos, hn, List.cons_append] at hrest
    injection hrest with hfirst hothers
    rw [hfirst] at hn
    rw [← hothers, ofNat_leadingZero hn] at hb
    exact htail b hb
  · intro hmem
    exact absurd (hnumber.isDigit_of_mem _ hmem) (by decide)
  · intro hmem
    exact absurd (hnumber.isDigit_of_mem _ hmem) (by decide)

/-- A number is parsed as `x`, wherever its token stands and as a program of its own. -/
structure IsParsedAs (s : Bytes) (x : Double) : Prop where
  primary : ∀ (inner : Phrases) (ts : Tokens), ts.current.kind = .number → ts.current.literal = s →
    inner.primary ts = .ok (.number ts.current x) ts.tail
  program : ∃ tok first, Program.parse s = .ok ⟨[.expr first (.number tok x)]⟩

theorem isParsedAs_of_read? {s : Bytes} {x : Double} (h : Lexeme.IsNumber s)
    (hread : Double.read? s = some x) : IsParsedAs s x := by
  constructor
  · rintro inner ts hkind rfl
    have hpeek : Parser.peek ts = .ok ts.current ts := rfl
    have hadvance : Parser.advance ts = .ok ts.current ts.tail := rfl
    rw [Phrases.primary, run_bind_of_ok hpeek, hkind, hread]
    exact run_bind_of_ok hadvance
  · have hend : ∀ b ∈ ([] : Bytes).head?, isDigit b = false ∧ b ≠ '.' := nofun
    obtain ⟨ts, pos, ⟨tok, rfl, hkind, rfl⟩, hlex⟩ := lexes_number h hend .start
    obtain ⟨stop, hlast, hstop, -⟩ := Cursor.tokens_nil pos
    have htokens : tokenize tok.literal = .ok ([tok] ++ [stop]) := by
      rw [List.append_nil, hlast] at hlex
      exact hlex
    have hderives : Grammar.Derives (.expr .primary (.number tok x)) [tok] := .number hkind hread
    obtain ⟨first, hrun⟩ := program_of_derives hstop hderives.loosest (.number trivial)
    have hparse := Tokens.parse_eq_ok.mpr ⟨_, hrun⟩
    exact ⟨tok, first, Program.parse_eq_ok.mpr ⟨_, htokens, hparse⟩⟩

theorem IsParsedAs.unique {s : Bytes} {x y : Double} (hx : IsParsedAs s x) (hy : IsParsedAs s y) :
    x = y := by
  obtain ⟨tok, first, hparse⟩ := hx.program
  obtain ⟨tok', first', hparse'⟩ := hy.program
  rw [hparse] at hparse'
  cases hparse'
  rfl

theorem Expr.code_number (tok : Token) (x : Double) (depth : Nat) :
    (Expr.number tok x).code depth = .ok (Target.numberLiteral x) := by
  simp only [code, lower]
  rfl

private theorem Program.code_number (tok first : Token) (x : Double) :
    (Program.mk [.expr first (.number tok x)]).code =
      .ok (Target.preamble ++ (Target.numberLiteral x ++ ";\n")) := by
  have hbody : Stmt.lowerBody false [.expr first (.number tok x)] =
      .ok [.expr (.number x)] := by
    simp only [Stmt.lowerBody, Stmt.lower, Expr.lower]
    rfl
  refine Program.code_eq_ok.mpr ⟨_, hbody, ?_⟩
  simp [Target.Stmt.prints, Target.Stmt.print, Target.Expr.print, Target.indent]

/-- No source text has a number that cannot be read. -/
theorem badNumber_not_reported {source : Bytes} {d : Diagnostic}
    (h : compile source = .error (.diagnostic d)) :
    ¬Bytes.ofString "Invalid number literal" <+: d.message := by
  rintro ⟨tail, htail⟩
  have hfirst : d.message.head? = some 'I'.toUInt8 := by
    rw [← htail]
    rfl
  rcases Program.parse_eq_error.mp (compile_eq_diagnostic.mp h) with
    ⟨e, -, rfl⟩ | ⟨toks, e, htoks, he, rfl⟩
  · change e.fault.message.head? = _ at hfirst
    cases hfault : e.fault <;> rw [hfault] at hfirst <;> cases hfirst
  · obtain ⟨rest, hrun⟩ := Tokens.parse_eq_error.mp he
    have hjustified := Parser.program_justifies (Tokens.ofList_stop toks) hrun
    have hspelled := Cursor.tokens_wellSpelled htoks _ (e.tok_mem htoks hrun)
    change e.message.head? = _ at hfirst
    rw [e.head?_message] at hfirst
    cases hfault : e.fault with
    | badNumber => exact e.fault_ne_badNumber hjustified hspelled hfault
    | _ =>
      rw [hfault] at hfirst
      cases hfirst

/-- What becomes of the number `s`: it is read as `k`, and the code has `text` for it. -/
structure Survives (s : Bytes) (k : Nat) (text : Bytes) : Prop where
  rounded : ∀ j, Double.IsRounded (Lexeme.exactValue s) j ↔ j = k
  parsed : IsParsedAs s (.ofOrdinal false k)
  emitted : ∀ tok depth, (Expr.number tok (.ofOrdinal false k)).code depth = .ok text
  compiled : ∃ p, compile s = .ok ⟨p, Target.preamble ++ (text ++ ";\n")⟩
  finite : k < Double.infinity → Lexeme.IsPlain text ∧ IsParsedAs text (.ofOrdinal false k)
  infinite : k = Double.infinity → text = "Infinity"

/-- No source text is refused because of a number. Each number is read as the one nearest to its
exact value, and of two that are as near as the even one. Its text in the code is a number without
needless zeros before the point and without an exponent, which is read as the same; only what is too
large is infinite. -/
theorem number_literals_survive {s : Bytes} (h : Lexeme.IsNumber s) :
    (∀ source d, compile source = .error (.diagnostic d) →
      ¬Bytes.ofString "Invalid number literal" <+: d.message) ∧
    ∃ k text, Survives s k text := by
  refine ⟨fun _ _ => badNumber_not_reported, ?_⟩
  obtain ⟨k, hrounded, hread⟩ := h.read?_rounded
  have hparsed := isParsedAs_of_read? h hread
  refine ⟨k, Target.numberLiteral (.ofOrdinal false k), ?_, hparsed,
    fun tok depth => Expr.code_number tok _ depth, ?_, fun hk => ⟨?_, ?_⟩, ?_⟩
  · exact fun j => ⟨fun hj => hj.unique hrounded, fun hj => hj ▸ hrounded⟩
  · obtain ⟨tok, first, hparse⟩ := hparsed.program
    exact ⟨_, compile_eq_ok.mpr ⟨hparse, Program.code_number tok first _⟩⟩
  · rw [Double.numberLiteral_finite hk]
    exact (Double.shortest k).isPlain_positional
  · obtain ⟨hnumber, hsame⟩ := Double.read?_numberLiteral hk
    exact isParsedAs_of_read? hnumber hsame
  · rintro rfl
    exact Double.numberLiteral_infinity

/-- The number lies in the middle between two others. -/
theorem number_literals_survive_oddMiddle :
    Lexeme.IsNumber "9007199254740993" ∧
      Survives "9007199254740993" 0x4340000000000000 "9007199254740992" := by
  have hnumber : Lexeme.IsNumber "9007199254740993" := .whole (by decide) (by decide +kernel)
  have hread : Double.read? "9007199254740993" = some (.ofOrdinal false 0x4340000000000000) := by
    decide +kernel
  have htext : Target.numberLiteral (.ofOrdinal false 0x4340000000000000) = "9007199254740992" := by
    decide +kernel
  obtain ⟨-, k, text, h⟩ := number_literals_survive hnumber
  have hk : k = 0x4340000000000000 := by
    have hsmall : k < 2 ^ 63 := ((h.rounded k).mpr rfl).le.trans_lt (by decide)
    rw [← (Double.ofOrdinal_parts hsmall).1, h.parsed.unique (isParsedAs_of_read? hnumber hread)]
    decide
  subst hk
  have hcode := h.emitted (.bare []) 0
  rw [Expr.code_number, htext] at hcode
  cases hcode
  exact ⟨hnumber, h⟩

end PipeCompiler
