import PipeCompiler.Proofs.StringLiterals

/-! What the strings of generated code stand for.

A string literal is read by rules of its own (`Json`): characters stand for themselves in UTF-16,
but for the control characters, which are not allowed, and behind a backslash there is a known
letter or a code unit. By these rules the literal of a text stands for the text, with the
replacement character in the place of each byte that is no part of valid UTF-8. -/
namespace PipeCompiler

namespace Utf16

/-- The code units of a character: one, or a pair of surrogates. -/
def units (c : Char) : List Nat :=
  if c.toNat < 0x10000 then [c.toNat]
  else [0xD800 + (c.toNat - 0x10000) / 1024, 0xDC00 + (c.toNat - 0x10000) % 1024]

/-- The characters of a sequence of code units. A surrogate on its own is not one. -/
def chars? : List Nat → Option (List Char)
  | [] => some []
  | unit :: us =>
    if unit < 0xD800 ∨ 0xE000 ≤ unit then (chars? us).map (Char.ofNat unit :: ·)
    else
      match us with
      | [] => none
      | low :: us =>
        if unit < 0xDC00 ∧ 0xDC00 ≤ low ∧ low < 0xE000 then
          (chars? us).map (Char.ofNat (0x10000 + (unit - 0xD800) * 1024 + (low - 0xDC00)) :: ·)
        else none

private theorem chars?_units (c : Char) (us : List Nat) :
    chars? (units c ++ us) = (chars? us).map (c :: ·) := by
  have hvalid : c.toNat < 0xD800 ∨ 0xDFFF < c.toNat ∧ c.toNat < 0x110000 := c.valid
  have hc := Char.ofNat_toNat c
  unfold units
  split
  · rw [List.singleton_append, chars?.eq_def]
    dsimp only
    rw [if_pos (by omega), hc]
  · have hpair : 0x10000 + (0xD800 + (c.toNat - 0x10000) / 1024 - 0xD800) * 1024 +
        (0xDC00 + (c.toNat - 0x10000) % 1024 - 0xDC00) = c.toNat := by
      omega
    rw [List.cons_append, chars?.eq_def]
    dsimp only [List.cons_append, List.nil_append]
    rw [if_neg (by omega), if_pos (by omega), hpair, hc]

private theorem chars?_flatMap_units (cs : List Char) : chars? (cs.flatMap units) = some cs := by
  induction cs with
  | nil => rfl
  | cons c cs ih => rw [List.flatMap_cons, chars?_units, ih, Option.map_some]

end Utf16

namespace Json

/-- The value of a hexadecimal digit. -/
def hexDigit? (c : Char) : Option Nat :=
  "0123456789abcdef".toList.idxOf? c <|> "0123456789ABCDEF".toList.idxOf? c

/-- The code unit that four hexadecimal digits give. -/
def codeUnit? (h₁ h₂ h₃ h₄ : Char) : Option Nat := do
  return (((← hexDigit? h₁) * 16 + (← hexDigit? h₂)) * 16 + (← hexDigit? h₃)) * 16 +
    (← hexDigit? h₄)

/-- The character that a letter behind a backslash stands for. -/
def escape? : Char → Option Char
  | '"' => some '"'
  | '\\' => some '\\'
  | '/' => some '/'
  | 'b' => some '\x08'
  | 'f' => some '\x0C'
  | 'n' => some '\n'
  | 'r' => some '\r'
  | 't' => some '\t'
  | _ => none

/-- The code units of a literal behind its opening quote. Its closing quote is the last
character. -/
def units? : List Char → Option (List Nat)
  | [] => none
  | c :: cs =>
    if c = '"' then if cs = [] then some [] else none
    else if c = '\\' then
      match cs with
      | [] => none
      | e :: cs =>
        if e = 'u' then
          match cs with
          | h₁ :: h₂ :: h₃ :: h₄ :: cs =>
            (codeUnit? h₁ h₂ h₃ h₄).bind fun unit => (units? cs).map (unit :: ·)
          | _ => none
        else (escape? e).bind fun d => (units? cs).map (d.toNat :: ·)
    else if c.toNat < 0x20 then none
    else (units? cs).map (Utf16.units c ++ ·)

private theorem units?_escape {e d : Char} {cs : List Char} (hu : e ≠ 'u')
    (h : escape? e = some d) :
    units? ('\\' :: e :: cs) = (units? cs).map (d.toNat :: ·) := by
  rw [units?.eq_def]
  simp [hu, h]

private theorem units?_codeUnit {h₁ h₂ h₃ h₄ : Char} {cs : List Char} {unit : Nat}
    (h : codeUnit? h₁ h₂ h₃ h₄ = some unit) :
    units? ('\\' :: 'u' :: h₁ :: h₂ :: h₃ :: h₄ :: cs) = (units? cs).map (unit :: ·) := by
  rw [units?.eq_def]
  simp [h]

private theorem units?_plain {c : Char} {cs : List Char} (hq : c ≠ '"') (hb : c ≠ '\\')
    (hlow : 0x20 ≤ c.toNat) : units? (c :: cs) = (units? cs).map (Utf16.units c ++ ·) := by
  rw [units?.eq_def]
  simp [hq, hb, Nat.not_lt.mpr hlow]

/-- The characters of a text in valid UTF-8. -/
def chars? (s : Bytes) : Option (List Char) :=
  (glyphs s).mapM fun
    | .char c => some c
    | .stray _ => none

/-- The text that a literal stands for. -/
def decode? (literal : Bytes) : Option Bytes :=
  match chars? literal with
  | some (c :: cs) =>
    if c = '"' then ((units? cs).bind Utf16.chars?).map fun cs => cs.flatMap Bytes.ofChar
    else none
  | _ => none

private theorem chars?_flatMap_ofChar (cs : List Char) :
    chars? (cs.flatMap Bytes.ofChar) = some cs := by
  rw [chars?, glyphs_chars]
  induction cs with
  | nil => rfl
  | cons c cs ih =>
    rw [List.map_cons, List.mapM_cons, ih]
    rfl

/-- Without its quotes, a text in which no quote stands but behind a backslash. A backslash takes
the byte behind it along. -/
inductive Sealed : Bytes → Prop
  | nil : Sealed []
  | plain {b : UInt8} {s : Bytes} (hq : b ≠ '"') (hb : b ≠ '\\') (h : Sealed s) : Sealed (b :: s)
  | escaped {e : UInt8} {s : Bytes} (h : Sealed s) : Sealed ('\\'.toUInt8 :: e :: s)

theorem Sealed.plains {s t : Bytes} (ht : ∀ b ∈ t, b ≠ '"' ∧ b ≠ '\\') (h : Sealed s) :
    Sealed (t ++ s) := by
  induction t with
  | nil => exact h
  | cons b t ih =>
    rw [List.forall_mem_cons] at ht
    exact .plain ht.1.1 ht.1.2 (ih ht.2)

end Json

namespace Target

open Json (Sealed units?)

/-- How the characters `cs` are written in a literal: as the characters `ds`, of which `text` is the
encoding. -/
structure Writes (cs ds : List Char) (text : Bytes) : Prop where
  encoded : text = ds.flatMap Bytes.ofChar
  allowed : ∀ d ∈ ds, 0x20 ≤ d.toNat ∧ d.toNat ≠ 0x2028 ∧ d.toNat ≠ 0x2029
  isSealed : ∀ t, Sealed t → Sealed (text ++ t)
  read : ∀ rest, units? (ds ++ rest) = (units? rest).map (cs.flatMap Utf16.units ++ ·)

theorem Writes.nil : Writes [] [] [] :=
  ⟨rfl, nofun, fun _ h => h, fun rest => by simp⟩

theorem Writes.append {cs ds cs' ds' : List Char} {text text' : Bytes} (h : Writes cs ds text)
    (h' : Writes cs' ds' text') : Writes (cs ++ cs') (ds ++ ds') (text ++ text') := by
  refine ⟨?_, ?_, ?_, ?_⟩
  · rw [h.encoded, h'.encoded, List.flatMap_append]
  · exact List.forall_mem_append.mpr ⟨h.allowed, h'.allowed⟩
  · intro t ht
    rw [List.append_assoc]
    exact h.isSealed _ (h'.isSealed t ht)
  · intro rest
    rw [List.append_assoc, h.read, h'.read, Option.map_map]
    simp [Function.comp_def]

/-- The short escapes. -/
theorem mem_of_shortEscape? {c letter : Char} (h : shortEscape? c = some letter) :
    (c, letter) ∈ [('\x08', 'b'), ('\t', 't'), ('\n', 'n'), ('\x0C', 'f'), ('\r', 'r'), ('"', '"'),
      ('\\', '\\')] := by
  have hc := Char.ofNat_toNat c
  unfold shortEscape? at h
  split at h
  all_goals
    cases h
  all_goals
    rename_i hcode
    rw [hcode] at hc
    rw [← hc]
    decide

private theorem writes_short {c letter : Char} (h : shortEscape? c = some letter) :
    Writes [c] ['\\', letter] ['\\', letter] := by
  have hall : ∀ p ∈ [('\x08', 'b'), ('\t', 't'), ('\n', 'n'), ('\x0C', 'f'), ('\r', 'r'),
      ('"', '"'), ('\\', '\\')], Json.escape? p.2 = some p.1 ∧ p.2 ≠ 'u' ∧ 0x20 ≤ p.2.toNat ∧
        p.2.toNat < 0x80 ∧ p.1.toNat < 0x10000 := by
    decide
  obtain ⟨hescape, hu, hlow, hhigh, hsmall⟩ := hall _ (mem_of_shortEscape? h)
  dsimp only at hescape hu hlow hhigh hsmall
  have hunits : Utf16.units c = [c.toNat] := if_pos hsmall
  have hletter : Bytes.ofChar letter = [letter.toUInt8] := if_pos hhigh
  refine ⟨?_, ?_, fun t ht => .escaped ht, ?_⟩
  · rw [List.flatMap_cons, List.flatMap_singleton, hletter]
    rfl
  · intro d hd
    rcases List.mem_cons.mp hd with rfl | hd
    · decide
    · cases List.mem_singleton.mp hd
      exact ⟨hlow, by omega, by omega⟩
  · intro rest
    rw [List.cons_append, List.singleton_append, Json.units?_escape hu hescape,
      List.flatMap_singleton, hunits]
    rfl

/-- A hexadecimal digit as it is written. -/
theorem digitChar_spec {n : Nat} (h : n < 16) :
    Json.hexDigit? (Nat.digitChar n) = some n ∧
      0x30 ≤ (Nat.digitChar n).toNat ∧ (Nat.digitChar n).toNat < 0x80 := by
  have hall : ∀ n < 16, Json.hexDigit? (Nat.digitChar n) = some n ∧
      0x30 ≤ (Nat.digitChar n).toNat ∧ (Nat.digitChar n).toNat < 0x80 := by
    decide
  exact hall n h

private theorem writes_codeUnit {c : Char} (h : c.toNat < 0x10000) :
    ∃ ds, Writes [c] ds ("\\u" ++ Bytes.hex 4 c.toNat) := by
  have hdigit (n : Nat) := digitChar_spec (Nat.mod_lt n (by decide : 0 < 16))
  have hbyte (n : Nat) : Bytes.ofChar (Nat.digitChar (n % 16)) =
      [(Nat.digitChar (n % 16)).toUInt8] := if_pos (hdigit n).2.2
  refine ⟨['\\', 'u', Nat.digitChar (c.toNat / 16 / 16 / 16 % 16),
    Nat.digitChar (c.toNat / 16 / 16 % 16), Nat.digitChar (c.toNat / 16 % 16),
    Nat.digitChar (c.toNat % 16)], ?_, ?_, ?_, ?_⟩
  · simp only [List.flatMap_cons, List.flatMap_nil, hbyte]
    rfl
  · have hallowed (n : Nat) : 0x20 ≤ (Nat.digitChar (n % 16)).toNat ∧
        (Nat.digitChar (n % 16)).toNat ≠ 0x2028 ∧ (Nat.digitChar (n % 16)).toNat ≠ 0x2029 := by
      have hbounds := (hdigit n).2
      omega
    simp only [List.forall_mem_cons]
    exact ⟨by decide, by decide, hallowed _, hallowed _, hallowed _, hallowed _, nofun⟩
  · intro t ht
    exact .escaped (.plains (fun b hb => Bytes.mem_hex hb) ht)
  · intro rest
    have hunit : Json.codeUnit? (Nat.digitChar (c.toNat / 16 / 16 / 16 % 16))
        (Nat.digitChar (c.toNat / 16 / 16 % 16)) (Nat.digitChar (c.toNat / 16 % 16))
        (Nat.digitChar (c.toNat % 16)) = some c.toNat := by
      simp only [Json.codeUnit?, (hdigit _).1, Option.bind_eq_bind, Option.bind_some,
        Option.pure_def, Option.some.injEq]
      omega
    have hunits : Utf16.units c = [c.toNat] := if_pos h
    simp only [List.cons_append, List.nil_append]
    rw [Json.units?_codeUnit hunit, List.flatMap_singleton, hunits]
    rfl

private theorem writes_plain {c : Char} (hnone : shortEscape? c = none) (hlow : 0x20 ≤ c.toNat)
    (h₁ : c.toNat ≠ 0x2028) (h₂ : c.toNat ≠ 0x2029) : Writes [c] [c] (Bytes.ofChar c) := by
  obtain ⟨hq, hb⟩ := ne_of_shortEscape?_none hnone
  refine ⟨by simp, ?_, fun t ht => .plains (Bytes.plain_ofChar hq hb) ht, ?_⟩
  · intro d hd
    cases List.mem_singleton.mp hd
    exact ⟨hlow, h₁, h₂⟩
  · intro rest
    rw [List.singleton_append, Json.units?_plain hq hb hlow, List.flatMap_singleton]

private theorem exists_writes_stringChar (c : Char) : ∃ ds, Writes [c] ds (stringChar c) := by
  unfold stringChar
  split
  · rename_i letter hletter
    exact ⟨_, writes_short hletter⟩
  · rename_i hnone
    split
    · exact writes_codeUnit (by omega)
    · exact ⟨_, writes_plain hnone (by omega) (by omega) (by omega)⟩

private theorem exists_writes (gs : List Glyph) :
    ∃ ds, Writes (gs.map Glyph.toChar) ds (gs.flatMap fun g => stringChar g.toChar) := by
  induction gs with
  | nil => exact ⟨[], .nil⟩
  | cons g gs ih =>
    obtain ⟨ds, hds⟩ := ih
    obtain ⟨ds', hds'⟩ := exists_writes_stringChar g.toChar
    exact ⟨ds' ++ ds, hds'.append hds⟩

/-- The characters of a literal, quotes included. -/
theorem exists_writes_stringLiteral (s : Bytes) :
    ∃ ds text, Writes ((glyphs s).map Glyph.toChar) ds text ∧
      stringLiteral s = '"'.toUInt8 :: (text ++ ['"'.toUInt8]) ∧
      stringLiteral s = ('"' :: (ds ++ ['"'])).flatMap Bytes.ofChar := by
  obtain ⟨ds, hds⟩ := exists_writes (glyphs s)
  have hliteral : stringLiteral s = '"'.toUInt8 :: (_ ++ ['"'.toUInt8]) := rfl
  refine ⟨ds, _, hds, hliteral, ?_⟩
  rw [hliteral, hds.encoded, List.flatMap_cons, List.flatMap_append]
  rfl

private theorem decode?_stringLiteral (s : Bytes) :
    Json.decode? (stringLiteral s) = some s.mended := by
  obtain ⟨ds, text, hds, -, hliteral⟩ := exists_writes_stringLiteral s
  have hclose : units? ['"'] = some [] := rfl
  have hmended : s.mended = ((glyphs s).map Glyph.toChar).flatMap Bytes.ofChar := by
    rw [Bytes.mended, List.flatMap_map]
  rw [hliteral, Json.decode?, Json.chars?_flatMap_ofChar]
  dsimp only
  rw [if_pos rfl, hds.read, hclose, Option.map_some, List.append_nil, Option.bind_some,
    Utf16.chars?_flatMap_units, Option.map_some, hmended]

end Target

namespace Bytes

/-- A text with the replacement character in the place of each byte at which no encoded character
begins. -/
inductive Mends : Bytes → Bytes → Prop
  | nil : Mends [] []
  | char {c : Char} {s t : Bytes} (h : Mends s t) : Mends (ofChar c ++ s) (ofChar c ++ t)
  | stray {b : UInt8} {s t : Bytes} (hb : ∀ c rest, b :: s ≠ ofChar c ++ rest) (h : Mends s t) :
      Mends (b :: s) (ofChar '\uFFFD' ++ t)

private theorem mends_mended (s : Bytes) : Mends s s.mended := by
  unfold mended
  fun_induction glyphs s with
  | case1 => exact .nil
  | case2 b s c rest h ih =>
    rw [Utf8.ofChar_of_char? h]
    exact .char ih
  | case3 b s h ih =>
    refine .stray (fun c rest heq => ?_) ih
    rw [Utf8.char?_of_ofChar heq] at h
    cases h

private theorem mended_chars (cs : List Char) : mended (cs.flatMap ofChar) = cs.flatMap ofChar := by
  rw [mended, glyphs_chars, List.flatMap_map]
  rfl

theorem ofChar_printable {c : Char} (h : 0x20 ≤ c.toNat) : ∀ b ∈ ofChar c, 0x20 ≤ b := by
  intro b hb
  rw [UInt8.le_iff_toNat_le]
  rcases ofChar_ascii c with ⟨hlt, hc⟩ | hc
  · rw [hc, List.mem_singleton] at hb
    have hbyte : c.toUInt8.toNat = c.toNat := by
      rw [Char.toUInt8, UInt32.toNat_toUInt8]
      exact Nat.mod_eq_of_lt (Nat.lt_trans hlt (by decide))
    rw [hb, hbyte]
    exact h
  · have hhigh := UInt8.not_lt.mp (hc b hb)
    exact Nat.le_trans (by decide) (UInt8.le_iff_toNat_le.mp hhigh)

end Bytes

/-- The literal of a text stands between quotes, and no other quote in it is bare. It has neither
control characters nor line separators in it, and it stands for the text, mended where that is no
valid UTF-8. -/
theorem stringLiteral_denotes (s : Bytes) :
    ∃ body value, Target.stringLiteral s = '"'.toUInt8 :: (body ++ ['"'.toUInt8]) ∧
      Json.Sealed body ∧
      (∀ b ∈ Target.stringLiteral s, 0x20 ≤ b) ∧
      (∀ g ∈ glyphs (Target.stringLiteral s), ∃ c, g = .char c ∧
        c.toNat ≠ 0x2028 ∧ c.toNat ≠ 0x2029) ∧
      Json.decode? (Target.stringLiteral s) = some value ∧ Bytes.Mends s value ∧
      ((∃ cs : List Char, s = cs.flatMap Bytes.ofChar) → value = s) := by
  obtain ⟨ds, body, hds, hquotes, hliteral⟩ := Target.exists_writes_stringLiteral s
  have hallowed : ∀ d ∈ '"' :: (ds ++ ['"']),
      0x20 ≤ d.toNat ∧ d.toNat ≠ 0x2028 ∧ d.toNat ≠ 0x2029 := by
    rw [List.forall_mem_cons, List.forall_mem_append, List.forall_mem_singleton]
    exact ⟨by decide, hds.allowed, by decide⟩
  refine ⟨body, s.mended, hquotes, ?_, ?_, ?_, Target.decode?_stringLiteral s,
    Bytes.mends_mended s, ?_⟩
  · have hsealed := hds.isSealed [] .nil
    rwa [List.append_nil] at hsealed
  · rw [hliteral]
    intro b hb
    obtain ⟨d, hd, hb⟩ := List.mem_flatMap.mp hb
    exact Bytes.ofChar_printable (hallowed d hd).1 b hb
  · rw [hliteral, glyphs_chars]
    intro g hg
    obtain ⟨d, hd, rfl⟩ := List.mem_map.mp hg
    exact ⟨d, rfl, (hallowed d hd).2⟩
  · rintro ⟨cs, rfl⟩
    exact Bytes.mended_chars cs

end PipeCompiler
