import PipeCompiler.Proofs.Encoding
import PipeCompiler.Proofs.LineBreaks
import PipeCompiler.Proofs.Numerals
import PipeCompiler.Proofs.Positions
import PipeCompiler.Text.Quoted

/-! Texts that are cut into known tokens.

`Lexes text Q rest` says what the lexer makes of a text that is put together from pieces: before
`rest`, and wherever the text stands, it is cut into tokens of which `Q` holds, and the lexer goes
on with `rest`. There is a rule for putting two texts together and one for each form of lexeme; each
says what must not follow. -/
namespace PipeCompiler

open Lexeme (isGap isLetter isDigit isNamePart isQuote isLineBreak IsNumber)

/-- Before `rest` the text is cut into tokens of which `Q` holds. -/
def Lexes (text : Bytes) (Q : List Token → Prop) (rest : Bytes) : Prop :=
  ∀ pos, ∃ ts pos', Q ts ∧
    (Cursor.mk (text ++ rest) pos).tokens = (Cursor.mk rest pos').tokens.map (ts ++ ·)

/-- One token. -/
def IsToken (kind : Token.Kind) (literal : Bytes) (ts : List Token) : Prop :=
  ∃ tok : Token, ts = [tok] ∧ tok.kind = kind ∧ tok.literal = literal

private theorem Lexeme.gap_space (s : Bytes) :
    gap (' ' :: s) = (' '.toUInt8 :: (gap s).1, (gap s).2) := by
  have hspace : isGap ' ' = true := rfl
  simp only [gap, List.takeWhile_cons_of_pos hspace, List.dropWhile_cons_of_pos hspace]
  split <;> rfl

set_option maxRecDepth 2000 in
theorem Cursor.tokens_space (s : Bytes) (pos : Position) :
    (Cursor.mk (' ' :: s) pos).tokens = (Cursor.mk s (pos.advance " ")).tokens := by
  have hadvance (g : Bytes) : pos.advance (' '.toUInt8 :: g) = (pos.advance " ").advance g := by
    have hseam : Bytes.Seam " " g := .of_forall (by decide)
    exact Position.advance_append hseam pos
  have hstep : (Cursor.mk (' ' :: s) pos).step = (Cursor.mk s (pos.advance " ")).step := by
    simp only [step, Lexeme.gap_space, hadvance]
  rw [tokens_eq, hstep, ← tokens_eq]

theorem Cursor.tokens_nil (pos : Position) :
    ∃ stop, (Cursor.mk [] pos).tokens = .ok [stop] ∧ stop.kind = .eof ∧ stop.literal = [] ∧
      stop.raw = [] := by
  rw [tokens_eq]
  exact ⟨_, rfl, rfl, rfl, rfl⟩

/-- Before `rest` the lexer reads this lexeme, and skips nothing to get there. -/
def Lexeme.Leads (x : Lexeme) (rest : Bytes) : Prop :=
  ∃ b s, x.text = b :: s ∧ isGap b = false ∧
    ¬(Bytes.ofString "//").isPrefixOf (b :: (s ++ rest)) = true ∧
    scan b (s ++ rest) = .ok (x, rest)

theorem Lexeme.Leads.step {x : Lexeme} {rest : Bytes} (h : x.Leads rest) (pos : Position) :
    (Cursor.mk (x.text ++ rest) pos).step = .token (x.token pos) ⟨rest, pos.advance x.text⟩ := by
  obtain ⟨b, s, htext, hgap, hcomment, hscan⟩ := h
  have hskip : gap (x.text ++ rest) = ([], b :: (s ++ rest)) := by
    simp only [htext, List.cons_append, gap, List.takeWhile_cons, List.dropWhile_cons, hgap]
    exact if_neg hcomment
  have hnone : pos.advance [] = pos := by
    rw [Position.advance, glyphs]
    rfl
  simp only [Cursor.step, hskip, hscan, hnone]

namespace Lexes

variable {s t rest : Bytes} {P Q R : List Token → Prop}

theorem nil (h : Q []) : Lexes [] Q rest := by
  intro pos
  refine ⟨[], pos, h, ?_⟩
  cases hrest : (Cursor.mk rest pos).tokens with
  | error e => exact hrest
  | ok toks => exact hrest

theorem mono (h : Lexes s P rest) (hPQ : ∀ ts, P ts → Q ts) : Lexes s Q rest := by
  intro pos
  obtain ⟨ts, pos', hts, hrun⟩ := h pos
  exact ⟨ts, pos', hPQ ts hts, hrun⟩

theorem append (hs : Lexes s P (t ++ rest))
    (ht : ∀ us, P us → Lexes t (fun vs => Q (us ++ vs)) rest) : Lexes (s ++ t) Q rest := by
  intro pos
  obtain ⟨us, pos₁, hus, hrun₁⟩ := hs pos
  obtain ⟨vs, pos₂, hvs, hrun₂⟩ := ht us hus pos₁
  refine ⟨us ++ vs, pos₂, hvs, ?_⟩
  rw [List.append_assoc, hrun₁, hrun₂]
  cases (Cursor.mk rest pos₂).tokens with
  | error e => rfl
  | ok toks => exact congrArg Except.ok (List.append_assoc us vs toks).symm

/-- One token, and then more text. -/
theorem token {kind : Token.Kind} {literal : Bytes}
    (hs : Lexes s (IsToken kind literal) (t ++ rest))
    (ht : ∀ tok : Token, tok.kind = kind → tok.literal = literal →
      Lexes t (fun ts => Q (tok :: ts)) rest) : Lexes (s ++ t) Q rest := by
  refine .append hs ?_
  rintro _ ⟨tok, rfl, hk, hl⟩
  exact ht tok hk hl

/-- One token, and no more. -/
theorem last {kind : Token.Kind} {literal : Bytes} (hs : Lexes s (IsToken kind literal) rest)
    (ht : ∀ tok : Token, tok.kind = kind → tok.literal = literal → Q [tok]) : Lexes s Q rest := by
  refine hs.mono ?_
  rintro _ ⟨tok, rfl, hk, hl⟩
  exact ht tok hk hl

/-- A space separates tokens and is nothing else. -/
theorem blank (h : Lexes t Q rest) : Lexes (" " ++ t) Q rest := by
  intro pos
  obtain ⟨ts, pos', hts, hrun⟩ := h (pos.advance " ")
  exact ⟨ts, pos', hts, (Cursor.tokens_space (t ++ rest) pos).trans hrun⟩

/-- One lexeme. -/
theorem lexeme {x : Lexeme} (h : x.Leads rest) : Lexes x.text (IsToken x.kind x.literal) rest := by
  intro pos
  refine ⟨[x.token pos], pos.advance x.text, ⟨_, rfl, rfl, rfl⟩, ?_⟩
  rw [Cursor.tokens_eq, h.step]
  rfl

end Lexes

/-- A letter, then more letters or digits. -/
def Lexeme.IsName (s : Bytes) : Prop :=
  (∃ b ∈ s.head?, isLetter b = true) ∧ ∀ c ∈ s.tail, isNamePart c = true

instance (s : Bytes) : Decidable (Lexeme.IsName s) :=
  inferInstanceAs (Decidable (_ ∧ _))

set_option maxRecDepth 2000 in
/-- A reserved word is a name, but for its kind. -/
theorem Lexeme.isName_word {word : String} {kind : Token.Kind}
    (h : (word, kind) ∈ Token.Kind.words) :
    IsName word ∧ Token.Kind.ofName (Bytes.ofString word) = kind := by
  have hwords : ∀ x ∈ Token.Kind.words,
      IsName x.1 ∧ Token.Kind.ofName (Bytes.ofString x.1) = x.2 := by
    decide
  exact hwords (word, kind) h

/-- Such a text may follow a name or a number: it does not go on with it. -/
def Bytes.Delimits (rest : Bytes) : Prop :=
  ∀ b ∈ rest.head?, b ∈ ([' ', ',', ')', ']', '(', '|'] : Bytes)

section

variable {s rest : Bytes} {b : UInt8}

theorem Lexeme.notMem_of_isLetter (h : isLetter b = true) {excluded : Bytes}
    (hexcluded : ∀ c ∈ excluded, isLetter c = false) : b ∉ excluded := by
  intro hb
  rw [hexcluded b hb] at h
  cases h

theorem Lexeme.isLetter_of_isDigit (h : isDigit b = true) : isLetter b = false := by
  have hall : ∀ n < 58, 48 ≤ n → isLetter (UInt8.ofNat n) = false := by decide
  have hbounds := Numeral.isDigit_bounds h
  have hb := hall b.toNat (by omega) hbounds.1
  rwa [UInt8.ofNat_toNat] at hb

theorem Lexeme.notMem_of_isDigit (h : isDigit b = true) {excluded : Bytes}
    (hexcluded : ∀ c ∈ excluded, isDigit c = false) : b ∉ excluded := by
  intro hb
  rw [hexcluded b hb] at h
  cases h

/-! The first byte tells what is scanned. -/

set_option maxRecDepth 2000 in
theorem Lexeme.scan_letter (h : isLetter b = true) (s : Bytes) :
    scan b s = .ok (⟨.ofName (b :: s.takeWhile isNamePart), b :: s.takeWhile isNamePart,
      b :: s.takeWhile isNamePart⟩, s.dropWhile isNamePart) := by
  have hno : b ∉ (['\n', '"', '\''] : Bytes) := notMem_of_isLetter h (by decide)
  simp only [List.mem_cons, List.not_mem_nil, or_false, not_or] at hno
  simp [scan, isLineBreak, isQuote, hno, h]

set_option maxRecDepth 2000 in
theorem Lexeme.scan_digit (h : isDigit b = true) (s : Bytes) :
    scan b s = .ok (⟨.number, (number (b :: s)).1, (number (b :: s)).1⟩, (number (b :: s)).2) := by
  have hno : b ∉ (['\n', '"', '\''] : Bytes) := notMem_of_isDigit h (by decide)
  simp only [List.mem_cons, List.not_mem_nil, or_false, not_or] at hno
  simp [scan, isLineBreak, isQuote, hno, isLetter_of_isDigit h, h]

theorem Lexeme.isLineBreak_of_isQuote (h : isQuote b = true) : isLineBreak b = false := by
  simp only [isQuote, Bool.or_eq_true, beq_iff_eq] at h
  rcases h with rfl | rfl <;> rfl

theorem Lexeme.scan_quoted {value text : Bytes} (h : isQuote b = true)
    (hread : string? b s = some (value, text, rest)) :
    scan b s = .ok (⟨.string, value, b :: text⟩, rest) := by
  simp [scan, isLineBreak_of_isQuote h, h, hread]

theorem Lexeme.scan_operator {op : String} {kind : Token.Kind}
    (h : (op, kind) ∈ Token.Kind.operators) :
    ∃ b t, Bytes.ofString op = b :: t ∧ isGap b = false ∧
      ∀ s text kind' rest, Token.Kind.operator? (b :: s) = some (text, kind', rest) →
        scan b s = .ok (⟨kind', text, text⟩, rest) := by
  have hops : ∀ x ∈ Token.Kind.operators, ∃ b ∈ (Bytes.ofString x.1).head?,
      isGap b = false ∧ isLineBreak b = false ∧ isQuote b = false ∧ isLetter b = false ∧
        isDigit b = false := by
    decide
  obtain ⟨b, hb, hgap, hline, hquote, hletter, hdigit⟩ := hops _ h
  obtain ⟨t, ht⟩ := List.head?_eq_some_iff.mp hb
  refine ⟨b, t, ht, hgap, fun s text kind' rest hread => ?_⟩
  simp [scan, hline, hquote, hletter, hdigit, hread]

theorem Lexeme.not_comment (hb : b ≠ '/') (s : Bytes) :
    ¬(Bytes.ofString "//").isPrefixOf (b :: s) = true := by
  have hslash : Bytes.ofString "//" = ['/'.toUInt8, '/'.toUInt8] := rfl
  rw [hslash, List.isPrefixOf_cons_cons]
  simp [hb.symm]

theorem Bytes.Delimits.head {p : UInt8 → Prop} (h : rest.Delimits)
    (hp : ∀ b ∈ ([' ', ',', ')', ']', '(', '|'] : Bytes), p b) : ∀ b ∈ rest.head?, p b :=
  fun b hb => hp b (h b hb)

set_option maxRecDepth 2000 in
theorem Bytes.Delimits.name (h : rest.Delimits) : ∀ b ∈ rest.head?, isNamePart b = false :=
  h.head (by decide)

theorem Bytes.delimits_cons (h : b ∈ ([' ', ',', ')', ']', '(', '|'] : Bytes)) :
    Bytes.Delimits (b :: s) := by
  intro c hc
  cases hc
  exact h

theorem takeWhile_append_of_head {p : UInt8 → Bool} (hs : ∀ b ∈ s, p b = true)
    (hrest : ∀ b ∈ rest.head?, p b = false) :
    (s ++ rest).takeWhile p = s ∧ (s ++ rest).dropWhile p = rest := by
  rw [List.takeWhile_append_of_pos hs, List.dropWhile_append_of_pos hs]
  cases rest with
  | nil => simp
  | cons b rest => simp [hrest b rfl]

theorem Lexeme.IsName.eq_cons (h : IsName s) : ∃ b t, s = b :: t ∧ isLetter b = true := by
  obtain ⟨⟨b, hb, hletter⟩, -⟩ := h
  cases s with
  | nil => cases hb
  | cons c t =>
    cases hb
    exact ⟨_, t, rfl, hletter⟩

theorem Lexeme.IsName.ne_nil (h : IsName s) : s ≠ [] := by
  obtain ⟨b, t, rfl, -⟩ := h.eq_cons
  exact List.cons_ne_nil b t

theorem Lexeme.IsName.isNamePart (h : IsName s) : ∀ c ∈ s, isNamePart c = true := by
  obtain ⟨b, t, rfl, hletter⟩ := h.eq_cons
  rw [List.forall_mem_cons]
  exact ⟨by simp [Lexeme.isNamePart, hletter], h.2⟩

theorem Lexeme.IsName.notMem (h : IsName s) (hb : Lexeme.isNamePart b = false) : b ∉ s := by
  intro hmem
  rw [h.isNamePart b hmem] at hb
  cases hb

set_option maxRecDepth 2000 in
theorem Lexeme.leads_name (h : IsName s) (hrest : ∀ b ∈ rest.head?, Lexeme.isNamePart b = false) :
    Leads ⟨.ofName s, s, s⟩ rest := by
  obtain ⟨b, t, rfl, hb⟩ := h.eq_cons
  have hno : b ∉ ([' ', '\t', '\r', '/'] : Bytes) := notMem_of_isLetter hb (by decide)
  simp only [List.mem_cons, List.not_mem_nil, or_false, not_or] at hno
  have ht : ∀ c ∈ t, Lexeme.isNamePart c = true := h.2
  obtain ⟨htake, hdrop⟩ := takeWhile_append_of_head ht hrest
  have hscan := scan_letter hb (t ++ rest)
  rw [htake, hdrop] at hscan
  exact ⟨b, t, rfl, by simp [isGap, hno], not_comment (by simp [hno]) _, hscan⟩

theorem lexes_name (h : Lexeme.IsName s) (hrest : ∀ b ∈ rest.head?, isNamePart b = false) :
    Lexes s (IsToken (.ofName s) s) rest :=
  .lexeme (Lexeme.leads_name h hrest)

theorem Lexeme.IsNumber.eq_cons (h : IsNumber s) : ∃ b t, s = b :: t ∧ isDigit b = true := by
  cases h with
  | whole hne hds =>
    obtain ⟨b, t, rfl⟩ := List.exists_cons_of_ne_nil hne
    exact ⟨b, t, rfl, hds b (by simp)⟩
  | fraction hne hds hfne hfs =>
    obtain ⟨b, t, rfl⟩ := List.exists_cons_of_ne_nil hne
    exact ⟨b, _, rfl, hds b (by simp)⟩

/-- A number is read to its end if neither a digit nor a point follows. -/
theorem Lexeme.number_of_isNumber (h : IsNumber s)
    (hrest : ∀ b ∈ rest.head?, isDigit b = false ∧ b ≠ '.') : number (s ++ rest) = (s, rest) := by
  have hdigit : ∀ b ∈ rest.head?, isDigit b = false := fun b hb => (hrest b hb).1
  unfold number
  cases h with
  | whole hne hds =>
    obtain ⟨htake, hdrop⟩ := takeWhile_append_of_head hds hdigit
    rw [htake, hdrop]
    rcases rest with _ | ⟨point, _ | ⟨digit, rest⟩⟩
    · rfl
    · rfl
    · simp [(hrest point rfl).2]
  | @fraction ds fs hne hds hfne hfs =>
    obtain ⟨f, fs, rfl⟩ := List.exists_cons_of_ne_nil hfne
    rw [List.forall_mem_cons] at hfs
    have hpoint : ∀ b ∈ ('.'.toUInt8 :: f :: (fs ++ rest)).head?, isDigit b = false := by
      intro b hb
      cases hb
      decide
    obtain ⟨htake, hdrop⟩ := takeWhile_append_of_head hds hpoint
    obtain ⟨hftake, hfdrop⟩ := takeWhile_append_of_head hfs.2 hdigit
    rw [List.append_assoc, List.cons_append, List.cons_append, htake, hdrop]
    simp [hfs.1, hftake, hfdrop]

set_option maxRecDepth 2000 in
theorem Lexeme.leads_number (h : IsNumber s)
    (hrest : ∀ b ∈ rest.head?, isDigit b = false ∧ b ≠ '.') : Leads ⟨.number, s, s⟩ rest := by
  have hnumber := number_of_isNumber h hrest
  obtain ⟨b, t, rfl, hb⟩ := h.eq_cons
  have hno : b ∉ ([' ', '\t', '\r', '/'] : Bytes) := notMem_of_isDigit hb (by decide)
  simp only [List.mem_cons, List.not_mem_nil, or_false, not_or] at hno
  have hscan := scan_digit hb (t ++ rest)
  rw [← List.cons_append, hnumber] at hscan
  exact ⟨b, t, rfl, by simp [isGap, hno], not_comment (by simp [hno]) _, hscan⟩

theorem lexes_number (h : IsNumber s)
    (hrest : ∀ b ∈ rest.head?, isDigit b = false ∧ b ≠ '.') : Lexes s (IsToken .number s) rest :=
  .lexeme (Lexeme.leads_number h hrest)

/-- No operator begins like one that stands behind it in the table. -/
theorem Token.Kind.operators_pairwise :
    operators.Pairwise fun x y => ¬Bytes.ofString x.1 <+: Bytes.ofString y.1 := by
  decide

/-- An operator is read as itself if no longer operator can be read. -/
theorem Token.Kind.operator_ne_nil {op : String} {kind : Token.Kind}
    (h : (op, kind) ∈ operators) : Bytes.ofString op ≠ [] := by
  have hops : ∀ x ∈ operators, Bytes.ofString x.1 ≠ [] := by decide
  exact hops (op, kind) h

private theorem Token.Kind.operator?_self {op : String} {kind : Token.Kind}
    (hmem : (op, kind) ∈ operators)
    (hlonger : ∀ x ∈ operators, Bytes.ofString x.1 <+: Bytes.ofString op ++ rest →
      Bytes.ofString x.1 <+: Bytes.ofString op) :
    operator? (Bytes.ofString op ++ rest) = some (Bytes.ofString op, kind, rest) := by
  obtain ⟨before, after, htable⟩ := List.append_of_mem hmem
  have hpairs := operators_pairwise
  rw [htable, List.pairwise_append] at hpairs
  refine List.findSome?_eq_some_iff.mpr ⟨before, (op, kind), after, htable, ?_, ?_⟩
  · simp [Bytes.after?]
  · intro x hx
    have hprefix : ¬Bytes.ofString x.1 <+: Bytes.ofString op ++ rest := fun h =>
      hpairs.2.2 x hx (op, kind) (by simp) (hlonger x (by simp [htable, hx]) h)
    simp [Bytes.after?, hprefix]

/-- A byte with which neither an operator goes on nor, behind a slash, a comment begins. -/
def Lexeme.EndsOperator (b : UInt8) : Prop :=
  b ≠ '/' ∧ ∀ x ∈ Token.Kind.operators, b ∉ (Bytes.ofString x.1).tail

instance (b : UInt8) : Decidable (Lexeme.EndsOperator b) :=
  inferInstanceAs (Decidable (_ ∧ _))

private theorem prefix_of_endsOperator {op : String} {kind : Token.Kind}
    (hmem : (op, kind) ∈ Token.Kind.operators) (hrest : ∀ b ∈ rest.head?, Lexeme.EndsOperator b)
    {x : String × Token.Kind} (hx : x ∈ Token.Kind.operators)
    (h : Bytes.ofString x.1 <+: Bytes.ofString op ++ rest) :
    Bytes.ofString x.1 <+: Bytes.ofString op := by
  rcases Nat.le_total (Bytes.ofString x.1).length (Bytes.ofString op).length with hle | hle
  · exact List.prefix_of_prefix_length_le h (List.prefix_append _ _) hle
  · -- A longer operator would go on with the next byte.
    obtain ⟨t, ht⟩ := List.prefix_of_prefix_length_le (List.prefix_append _ rest) h hle
    rw [← ht, List.prefix_append_right_inj] at h
    cases t with
    | nil =>
      rw [List.append_nil] at ht
      exact ht ▸ List.prefix_refl _
    | cons c t =>
      obtain ⟨u, rfl⟩ := h
      have hne : Bytes.ofString op ≠ [] := Token.Kind.operator_ne_nil hmem
      refine absurd ?_ ((hrest c rfl).2 x hx)
      rw [← ht, List.tail_append_of_ne_nil hne]
      simp

theorem Lexeme.not_comment_append {op : String} {kind : Token.Kind}
    (hmem : (op, kind) ∈ Token.Kind.operators)
    (hslash : (Bytes.ofString op).head? ≠ some '/'.toUInt8) :
    ¬(Bytes.ofString "//").isPrefixOf (Bytes.ofString op ++ rest) = true := by
  obtain ⟨b, t, hbt⟩ := List.exists_cons_of_ne_nil (Token.Kind.operator_ne_nil hmem)
  rw [hbt, List.cons_append]
  exact not_comment (by simpa [hbt] using hslash) _

theorem Lexeme.leads_operator {op : String} {kind : Token.Kind}
    (hmem : (op, kind) ∈ Token.Kind.operators)
    (hlonger : ∀ x ∈ Token.Kind.operators, Bytes.ofString x.1 <+: Bytes.ofString op ++ rest →
      Bytes.ofString x.1 <+: Bytes.ofString op)
    (hcomment : ¬(Bytes.ofString "//").isPrefixOf (Bytes.ofString op ++ rest) = true) :
    Leads ⟨kind, op, op⟩ rest := by
  have hread := Token.Kind.operator?_self hmem hlonger
  obtain ⟨b, t, ht, hgap, hscan⟩ := scan_operator hmem
  rw [ht, List.cons_append] at hread hcomment
  rw [ht]
  exact ⟨b, t, rfl, hgap, hcomment, hscan _ _ _ _ hread⟩

theorem lexes_operator {op : String} {kind : Token.Kind} (hmem : (op, kind) ∈ Token.Kind.operators)
    (hlonger : ∀ x ∈ Token.Kind.operators, Bytes.ofString x.1 <+: Bytes.ofString op ++ rest →
      Bytes.ofString x.1 <+: Bytes.ofString op)
    (hcomment : ¬(Bytes.ofString "//").isPrefixOf (Bytes.ofString op ++ rest) = true) :
    Lexes op (IsToken kind op) rest :=
  .lexeme (Lexeme.leads_operator hmem hlonger hcomment)

/-- An operator before something that cannot be part of one. -/
theorem Lexeme.leads_operator_before {op : String} {kind : Token.Kind}
    (hmem : (op, kind) ∈ Token.Kind.operators) (hrest : ∀ b ∈ rest.head?, EndsOperator b) :
    Leads ⟨kind, op, op⟩ rest := by
  refine leads_operator hmem (fun x hx h => prefix_of_endsOperator hmem hrest hx h) ?_
  have hops : ∀ x ∈ Token.Kind.operators, Bytes.ofString x.1 = ['/'.toUInt8] ∨
      (Bytes.ofString x.1).head? ≠ some '/'.toUInt8 := by
    decide
  rcases hops _ hmem with hslash | hslash
  · rw [hslash]
    cases rest with
    | nil => decide
    | cons c rest =>
      have hc : '/'.toUInt8 ≠ c := fun h => (hrest c rfl).1 h.symm
      have hcomment : Bytes.ofString "//" = ['/'.toUInt8, '/'.toUInt8] := rfl
      simp [hcomment, List.isPrefixOf_cons_cons, hc]
  · exact not_comment_append hmem hslash

theorem lexes_operator_before {op : String} {kind : Token.Kind}
    (hmem : (op, kind) ∈ Token.Kind.operators) (hrest : ∀ b ∈ rest.head?, Lexeme.EndsOperator b) :
    Lexes op (IsToken kind op) rest :=
  .lexeme (Lexeme.leads_operator_before hmem hrest)

/-- A delimiter with which no other operator begins, whatever follows it. -/
theorem lexes_delimiter {op : String} {kind : Token.Kind} (hmem : (op, kind) ∈ Token.Kind.operators)
    (halone : ∀ x ∈ Token.Kind.operators,
      (Bytes.ofString x.1).head? = (Bytes.ofString op).head? → x.1 = op)
    (hslash : (Bytes.ofString op).head? ≠ some '/'.toUInt8) : Lexes op (IsToken kind op) rest := by
  refine lexes_operator hmem ?_ (Lexeme.not_comment_append hmem hslash)
  rintro x hx ⟨t, ht⟩
  have hhead : (Bytes.ofString x.1).head? = (Bytes.ofString op).head? := by
    obtain ⟨b, u, hbu⟩ := List.exists_cons_of_ne_nil (Token.Kind.operator_ne_nil hx)
    obtain ⟨c, v, hcv⟩ := List.exists_cons_of_ne_nil (Token.Kind.operator_ne_nil hmem)
    rw [hbu, hcv] at ht ⊢
    exact congrArg some (List.cons.inj ht).1
  exact halone x hx hhead ▸ List.prefix_refl _

end

/-- A character that a string can show: it is printable, or there is an escape for it. -/
def Quoted.Shows (c : Char) : Prop :=
  Printable.isPrintable c = true ∨ c ∈ ['\n', '\t', '\r']

/-- Every unit of the text is a character that a string can show. -/
def Quoted.Legible (s : Bytes) : Prop :=
  ∀ g ∈ glyphs s, ∃ c, g = .char c ∧ Shows c

section

variable {rest : Bytes} {quote b : UInt8}

/-- A byte that stands for itself. -/
theorem Lexeme.string?_plain {s : Bytes} (hq : b ≠ quote) (hb : b ≠ '\\') :
    string? quote (b :: s) =
      (string? quote s).map fun (value, text, rest) => (b :: value, b :: text, rest) := by
  rw [string?.eq_def]
  simp [hq, hb]

theorem Lexeme.string?_plains {s t : Bytes} (hs : ∀ b ∈ s, b ≠ quote ∧ b ≠ '\\') :
    string? quote (s ++ t) =
      (string? quote t).map fun (value, text, rest) => (s ++ value, s ++ text, rest) := by
  induction s with
  | nil => simp
  | cons b s ih =>
    rw [List.forall_mem_cons] at hs
    rw [List.cons_append, string?_plain hs.1.1 hs.1.2, ih hs.2, Option.map_map]
    rfl

/-- A byte behind a backslash. -/
theorem Lexeme.string?_escape {s : Bytes} (hq : '\\'.toUInt8 ≠ quote) :
    string? quote ('\\' :: b :: s) = (string? quote s).map fun (value, text, rest) =>
      (unescape b :: value, '\\'.toUInt8 :: b :: text, rest) := by
  simp [string?, hq]

/-- A character between double quotes is read as itself. -/
theorem Lexeme.string?_char {c : Char} {s : Bytes} (hc : Quoted.Shows c) :
    (string? '"' (Quoted.char '"' c ++ s)).map (fun r => (r.1, r.2.2)) =
      (string? '"' s).map fun r => (Bytes.ofChar c ++ r.1, r.2.2) := by
  unfold Quoted.char
  split
  · rename_i hcase
    rcases hcase with rfl | rfl
    · exact congrArg _ (string?_escape (by decide)) |>.trans (Option.map_map ..)
    · exact congrArg _ (string?_escape (by decide)) |>.trans (Option.map_map ..)
  · rename_i hcase
    rw [not_or] at hcase
    split
    · rw [string?_plains (Bytes.plain_ofChar hcase.1 hcase.2), Option.map_map]
      rfl
    · rename_i hprintable
      rcases hc with hc | hc
      · exact absurd hc hprintable
      · simp only [List.mem_cons, List.not_mem_nil, or_false] at hc
        rcases hc with rfl | rfl | rfl
        · exact congrArg _ (string?_escape (by decide)) |>.trans (Option.map_map ..)
        · exact congrArg _ (string?_escape (by decide)) |>.trans (Option.map_map ..)
        · exact congrArg _ (string?_escape (by decide)) |>.trans (Option.map_map ..)

/-- What is written piece by piece is read piece by piece, up to the quote that closes it. -/
theorem Lexeme.string?_pieces {α : Type} {write mean : α → Bytes} {xs : List α}
    (h : ∀ x ∈ xs, ∀ s, (string? '"' (write x ++ s)).map (fun r => (r.1, r.2.2)) =
      (string? '"' s).map fun r => (mean x ++ r.1, r.2.2)) (rest : Bytes) :
    ∃ text, string? '"' (xs.flatMap write ++ '"'.toUInt8 :: rest) =
      some (xs.flatMap mean, text, rest) := by
  induction xs with
  | nil =>
    refine ⟨['"'.toUInt8], ?_⟩
    rw [List.flatMap_nil, List.nil_append, string?.eq_def]
    simp
  | cons x xs ih =>
    rw [List.forall_mem_cons] at h
    obtain ⟨text, hread⟩ := ih h.2
    have hpiece := h.1 (xs.flatMap write ++ '"'.toUInt8 :: rest)
    rw [hread, Option.map_some, Option.map_eq_some_iff] at hpiece
    obtain ⟨⟨value, text', tail⟩, hread', heq⟩ := hpiece
    simp only [Prod.mk.injEq] at heq
    rw [heq.1, heq.2] at hread'
    exact ⟨text', by rwa [List.flatMap_cons, List.append_assoc]⟩

theorem Lexeme.leads_string {body value text : Bytes} (hq : isQuote quote = true)
    (hread : string? quote (body ++ quote :: rest) = some (value, text, rest)) :
    Leads ⟨.string, value, quote :: (body ++ [quote])⟩ rest := by
  have hwhole : text ++ rest = body ++ [quote] ++ rest := by
    rw [string?_append hread, List.append_assoc]
    rfl
  have htext := List.append_cancel_right hwhole
  have hscan : scan quote (body ++ [quote] ++ rest) =
      .ok (⟨.string, value, quote :: (body ++ [quote])⟩, rest) := by
    rw [← htext, string?_append hread]
    exact scan_quoted hq hread
  have hno : isGap quote = false ∧ quote ≠ '/' := by
    simp only [isQuote, Bool.or_eq_true, beq_iff_eq] at hq
    rcases hq with rfl | rfl <;> decide
  exact ⟨quote, _, rfl, hno.1, not_comment hno.2 _, hscan⟩

theorem lexes_string {body value text : Bytes}
    (hread : Lexeme.string? '"' (body ++ '"'.toUInt8 :: rest) = some (value, text, rest)) :
    Lexes ('"'.toUInt8 :: (body ++ ['"'.toUInt8])) (IsToken .string value) rest :=
  .lexeme (Lexeme.leads_string rfl hread)

/-- A quoted text is read as the text, whatever follows it. -/
theorem lexes_quoted {value : Bytes} (h : Quoted.Legible value) :
    Lexes (Quoted.text value) (IsToken .string value) rest := by
  have hchars : ∀ g ∈ glyphs value, ∀ s,
      (Lexeme.string? '"' (Quoted.glyph '"' g ++ s)).map (fun r => (r.1, r.2.2)) =
        (Lexeme.string? '"' s).map fun r => (g.bytes ++ r.1, r.2.2) := by
    intro g hg s
    obtain ⟨c, rfl, hc⟩ := h g hg
    exact Lexeme.string?_char hc
  obtain ⟨text, hread⟩ := Lexeme.string?_pieces hchars rest
  rw [glyphs_bytes] at hread
  exact lexes_string hread

end
end PipeCompiler
