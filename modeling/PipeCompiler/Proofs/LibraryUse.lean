import PipeCompiler.Proofs.NumberLiterals
import PipeCompiler.Proofs.StatementSequences
import PipeCompiler.Proofs.UniqueReadability

/-! The library functions that code uses.

In generated code a dot stands in a number, in the name of the library's file, or between the
namespace and the name of a library function that is called. So the calls can be read off the text,
as long as no string puts other dots into it: they are the library calls of the program. -/
namespace PipeCompiler

open Grammar
open Target (bindingName binaryOperator commaList indent)

/-- What stands behind the dot of a call. -/
def Library.opening (name : Bytes) : Bytes :=
  name ++ "("

/-- How a call of a library function begins. -/
def Library.callText (name : Bytes) : Bytes :=
  namespaceName ++ "." ++ opening name

/-- No call of a library function goes on like this behind its dot. -/
def Library.Misses (text : Bytes) : Prop :=
  ∀ name ∈ names, ¬text <+: opening name ∧ ¬opening name <+: text

instance (text : Bytes) : Decidable (Library.Misses text) :=
  inferInstanceAs (Decidable (∀ name ∈ Library.names, _ ∧ _))

open Library (callText opening Misses)

/-- The dots in the text belong to calls of the given functions or to no calls, and the library
functions among these are all called. -/
structure ShowsCalls (called : List Bytes) (text : Bytes) : Prop where
  dots : ∀ before after, text = before ++ '.'.toUInt8 :: after →
    (∃ name ∈ called, Library.isName name = true ∧ opening name <+: after) ∨
      ∃ part, part <+: after ∧ Misses part
  calls : ∀ name ∈ called, Library.isName name = true → callText name <:+: text

namespace ShowsCalls

variable {called called' : List Bytes} {text text' : Bytes}

theorem plain (h : '.'.toUInt8 ∉ text) : ShowsCalls [] text where
  dots before after heq := by
    rw [heq] at h
    simp at h
  calls name hname := by cases hname

theorem append (h : ShowsCalls called text) (h' : ShowsCalls called' text') :
    ShowsCalls (called ++ called') (text ++ text') where
  dots before after heq := by
    rcases List.append_eq_append_iff.mp heq with ⟨rest, -, hright⟩ | ⟨rest, hleft, hright⟩
    · rcases h'.dots rest after hright with ⟨name, hname, hstart⟩ | hmiss
      · exact .inl ⟨name, List.mem_append_right _ hname, hstart⟩
      · exact .inr hmiss
    · cases rest with
      | nil =>
        rcases h'.dots [] after hright.symm with ⟨name, hname, hstart⟩ | hmiss
        · exact .inl ⟨name, List.mem_append_right _ hname, hstart⟩
        · exact .inr hmiss
      | cons b rest =>
        obtain ⟨rfl, rfl⟩ := List.cons.inj hright
        rcases h.dots before rest hleft with ⟨name, hname, hstart⟩ | ⟨part, hpart, hmiss⟩
        · exact .inl ⟨name, List.mem_append_left _ hname, hstart.1,
            hstart.2.trans (List.prefix_append _ _)⟩
        · exact .inr ⟨part, hpart.trans (List.prefix_append _ _), hmiss⟩
  calls name hname hlibrary := by
    rcases List.mem_append.mp hname with hname | hname
    · exact (h.calls name hname hlibrary).trans (List.prefix_append _ _).isInfix
    · exact (h'.calls name hname hlibrary).trans (List.suffix_append _ _).isInfix

/-- Text without dots may stand before. -/
theorem after (h : ShowsCalls called text) (hplain : '.'.toUInt8 ∉ text') :
    ShowsCalls called (text' ++ text) :=
  (plain hplain).append h

/-- Text without dots may follow. -/
theorem before (h : ShowsCalls called text) (hplain : '.'.toUInt8 ∉ text') :
    ShowsCalls called (text ++ text') := by
  simpa using h.append (plain hplain)

theorem of_mem_iff (h : ShowsCalls called text) (hmem : ∀ name, name ∈ called ↔ name ∈ called') :
    ShowsCalls called' text where
  dots before after heq := by
    rcases h.dots before after heq with ⟨name, hname, hstart⟩ | hmiss
    · exact .inl ⟨name, (hmem name).mp hname, hstart⟩
    · exact .inr hmiss
  calls name hname := h.calls name ((hmem name).mpr hname)

/-- The only dot of a text is easy to find. -/
theorem eq_of_point {start before after : Bytes} (hstart : '.'.toUInt8 ∉ start)
    (hplain : '.'.toUInt8 ∉ text)
    (h : start ++ '.'.toUInt8 :: text = before ++ '.'.toUInt8 :: after) : after = text := by
  rcases List.append_eq_append_iff.mp h with ⟨rest, -, hright⟩ | ⟨rest, hleft, hright⟩
  · cases rest with
    | nil => exact (List.cons.inj hright).2.symm
    | cons b rest =>
      rw [(List.cons.inj hright).2] at hplain
      simp at hplain
  · cases rest with
    | nil => exact (List.cons.inj hright).2
    | cons b rest =>
      rw [hleft, ← (List.cons.inj hright).1] at hstart
      simp at hstart

/-- A dot that no call can have. -/
theorem point (hplain : '.'.toUInt8 ∉ text) (hmiss : Misses text) :
    ShowsCalls [] ('.'.toUInt8 :: text) where
  dots before after heq := by
    rw [eq_of_point List.not_mem_nil hplain heq]
    exact .inr ⟨text, List.prefix_refl text, hmiss⟩
  calls name hname := by cases hname

/-- A call of a library function. -/
theorem call {name : Bytes} (hlibrary : Library.isName name = true)
    (hplain : '.'.toUInt8 ∉ opening name) : ShowsCalls [name] (callText name) where
  dots before after heq := by
    have hname : '.'.toUInt8 ∉ Library.namespaceName := by decide
    have hafter : after = opening name := by
      apply eq_of_point hname hplain
      rw [← heq, callText, List.append_assoc]
      rfl
    rw [hafter]
    exact .inl ⟨name, List.mem_singleton_self name, hlibrary, List.prefix_refl _⟩
  calls name' hname _ := by
    cases List.mem_singleton.mp hname
    exact List.infix_refl _

end ShowsCalls

private theorem Library.misses_digits {b : UInt8} {s : Bytes} (hb : Lexeme.isDigit b = true) :
    Misses (b :: s) := by
  have hletters : ∀ name ∈ Library.names, ∃ c ∈ name.head?, Lexeme.isDigit c = false := by decide
  intro name hname
  obtain ⟨c, hc, hletter⟩ := hletters name hname
  obtain ⟨rest, rfl⟩ : ∃ rest, name = c :: rest := ⟨name.tail, List.eq_cons_of_mem_head? hc⟩
  have hne : b ≠ c := by
    rintro rfl
    simp [hb] at hletter
  constructor
  · intro h
    exact hne (List.cons_prefix_cons.mp h).1
  · intro h
    exact hne (List.cons_prefix_cons.mp h).1.symm

private theorem dot_notMem_digits {s : Bytes} (h : ∀ b ∈ s, Lexeme.isDigit b = true) :
    '.'.toUInt8 ∉ s := by
  intro hmem
  exact absurd (h _ hmem) (by decide)

private theorem showsCalls_isNumber {s : Bytes} (h : Lexeme.IsNumber s) : ShowsCalls [] s := by
  cases h with
  | whole hne hdigits => exact .plain (dot_notMem_digits hdigits)
  | @fraction whole shown hne hwhole hne' hshown =>
    cases shown with
    | nil => exact absurd rfl hne'
    | cons b shown =>
      have hb := hshown b List.mem_cons_self
      have hpoint := ShowsCalls.point (dot_notMem_digits hshown) (Library.misses_digits hb)
      exact hpoint.after (dot_notMem_digits hwhole)

private theorem showsCalls_numberLiteral (x : Double) : ShowsCalls [] (Target.numberLiteral x) := by
  have hsign : '.'.toUInt8 ∉ (if x.isNegative then Bytes.ofString "-" else []) := by
    split <;> decide
  simp only [Target.numberLiteral]
  split
  · exact .plain (by decide)
  · split
    · split <;> exact .plain (by decide)
    · exact (showsCalls_isNumber (Decimal.positional_read _).1).after hsign

private theorem dot_notMem_stringChar {c : Char} (h : c ≠ '.') :
    '.'.toUInt8 ∉ Target.stringChar c := by
  have hletters : ∀ n : Nat, ∀ letter ∈ Target.shortEscape? (Char.ofNat n),
      '.'.toUInt8 ≠ letter.toUInt8 := by
    intro n letter hletter
    unfold Target.shortEscape? at hletter
    split at hletter <;> cases hletter <;> decide
  have hdigits : ∀ n < 16, '.'.toUInt8 ≠ (Nat.digitChar n).toUInt8 := by decide
  have hdigit (n : Nat) := hdigits (n % 16) (Nat.mod_lt n (by decide))
  unfold Target.stringChar
  split
  · rename_i letter hletter
    rw [← Char.ofNat_toNat c] at hletter
    simpa using ⟨by decide, hletters _ _ hletter⟩
  · split
    · have hu : '.'.toUInt8 ∉ Bytes.ofString "\\u" := by decide
      simpa [Bytes.hex, hu] using
        ⟨hdigit _, hdigit _, hdigit _, hdigit _⟩
    · exact Bytes.notMem_ofChar (by decide) h

private theorem dot_notMem_stringLiteral {s : Bytes} (h : '.'.toUInt8 ∉ s) :
    '.'.toUInt8 ∉ Target.stringLiteral s := by
  have hchar : ∀ g ∈ glyphs s, g.toChar ≠ '.' := by
    intro g hg heq
    cases g with
    | char c =>
      cases heq
      apply h
      rw [← glyphs_bytes s]
      exact List.mem_flatMap.mpr ⟨_, hg, by decide⟩
    | stray b => exact absurd heq (by decide : '\uFFFD' ≠ '.')
  have hquote : '.'.toUInt8 ∉ Bytes.ofString "\"" := by decide
  intro hmem
  simp only [Target.stringLiteral, List.mem_append, hquote, false_or, or_false] at hmem
  obtain ⟨g, hg, hmem⟩ := List.mem_flatMap.mp hmem
  exact dot_notMem_stringChar (hchar g hg) hmem

/-- What the lexer guarantees of a token, and that no string has a dot in it. -/
structure Token.DotFree (tok : Token) : Prop where
  wellSpelled : tok.WellSpelled
  string : tok.kind = .string → '.'.toUInt8 ∉ tok.literal

theorem dot_notMem_bindingName {n : Name} (h : FormedName Token.DotFree n) :
    '.'.toUInt8 ∉ bindingName n.text := by
  intro hmem
  rw [h.text] at hmem
  have hname := Target.isName_bindingName (h.tok.wellSpelled.name h.kind).1
  exact absurd (hname.isNamePart _ hmem) (by decide)

private theorem dot_notMem_operator {level : Level} {op : Token} (h : op.DotFree)
    (hk : op.kind ∈ level.operators) : '.'.toUInt8 ∉ binaryOperator op.literal := by
  have hall : ∀ level : Level, ∀ kind ∈ level.operators, ∃ x ∈ Token.Kind.operators,
      x.2 = kind ∧ '.'.toUInt8 ∉ binaryOperator x.1 := by
    intro level
    cases level <;> decide
  obtain ⟨⟨text, kind⟩, hx, rfl, hplain⟩ := hall level _ hk
  rwa [h.wellSpelled.operator text hx]

private theorem dot_notMem_sign {op : Token} (h : op.DotFree)
    (hk : op.kind = .bang ∨ op.kind = .minus) :
    '.'.toUInt8 ∉ op.literal := by
  rcases hk with hk | hk
  · rw [h.wellSpelled.operator "!" (by rw [hk]; decide)]
    decide
  · rw [h.wellSpelled.operator "-" (by rw [hk]; decide)]
    decide

/-- A name in the place of a callee shows its call if it means a library function. -/
theorem showsCalls_name {n : Name} (h : FormedName Token.DotFree n) (depth : Nat) :
    ShowsCalls [n.text] (n.callee.print depth ++ Bytes.ofString "(") := by
  have hplain := dot_notMem_bindingName h
  unfold Name.callee
  split
  · rename_i hlibrary
    rw [Target.bindingName_library hlibrary] at hplain
    have hopening : '.'.toUInt8 ∉ opening n.text := by
      simpa [opening, hplain] using (by decide : '.'.toUInt8 ∉ Bytes.ofString "(")
    simpa [Target.Expr.print, callText, opening] using ShowsCalls.call hlibrary hopening
  · rename_i hother
    have htext := (ShowsCalls.plain hplain).before (by decide : '.'.toUInt8 ∉ Bytes.ofString "(")
    refine ⟨fun before after heq => ?_, fun name hname hlibrary => ?_⟩
    · rcases htext.dots before after heq with ⟨name, hname, -⟩ | hmiss
      · cases hname
      · exact .inr hmiss
    · rw [List.mem_singleton.mp hname] at hlibrary
      exact absurd hlibrary hother

section

variable {called called' called'' : List Bytes} {depth : Nat}

theorem dot_notMem_indent (depth : Nat) : '.'.toUInt8 ∉ indent depth := by
  intro hmem
  exact absurd (List.eq_of_mem_replicate hmem) (by decide)

theorem ShowsCalls.args_cons {e : Target.Expr} {es : List Target.Expr}
    (he : ShowsCalls called (e.print depth))
    (hes : ShowsCalls called' (commaList (Target.Expr.prints depth es))) :
    ShowsCalls (called ++ called') (commaList (Target.Expr.prints depth (e :: es))) := by
  cases es with
  | nil => simpa [commaList, Target.Expr.prints] using he.append hes
  | cons f es =>
    have hall := (he.before (by decide : '.'.toUInt8 ∉ Bytes.ofString ", ")).append hes
    simpa [commaList, List.intercalate, Target.Expr.prints] using hall

theorem showsCalls_undefined (depth : Nat) :
    ShowsCalls [] (Target.Expr.undefined.print depth) := by
  rw [Target.Expr.print]
  exact .plain (by decide)

private theorem dot_notMem_params {ps : List Name} (h : ∀ n ∈ ps, FormedName Token.DotFree n) :
    '.'.toUInt8 ∉ commaList (Name.params ps) := by
  have hcomma : '.'.toUInt8 ∉ Bytes.ofString ", " := by decide
  induction ps with
  | nil => exact List.not_mem_nil
  | cons n ps ih =>
    rw [List.forall_mem_cons] at h
    have hn := dot_notMem_bindingName h.1
    have hps := ih h.2
    cases ps with
    | nil => simpa [commaList, Name.params, List.intercalate] using hn
    | cons m ps => simp_all [commaList, Name.params, List.intercalate]

namespace ShowsCalls

variable {e f test : Target.Expr} {args : List Target.Expr} {body yes : List Target.Stmt}
  {no : Target.Else} {params : List Bytes} {name : Bytes}

theorem binary {op : Bytes} (h : ShowsCalls called (e.print depth)) (hop : '.'.toUInt8 ∉ op)
    (h' : ShowsCalls called' (f.print depth)) :
    ShowsCalls (called ++ called') ((Target.Expr.binary e op f).print depth) := by
  rw [Target.Expr.print]
  exact (((((h.after (by decide)).before (by decide)).before hop).before (by decide)).append
    h').before (by decide)

theorem unary {op : Bytes} (hop : '.'.toUInt8 ∉ op) (h : ShowsCalls called (e.print depth)) :
    ShowsCalls called ((Target.Expr.unary op e).print depth) := by
  rw [Target.Expr.print, List.append_assoc, List.append_assoc]
  exact ((h.before (by decide)).after hop).after (by decide)

theorem array (h : ShowsCalls called (commaList (Target.Expr.prints depth args))) :
    ShowsCalls called ((Target.Expr.array args).print depth) := by
  rw [Target.Expr.print]
  exact (h.after (by decide)).before (by decide)

theorem callExpr (h : ShowsCalls called (e.print depth ++ Bytes.ofString "("))
    (hargs : ShowsCalls called' (commaList (Target.Expr.prints depth args))) :
    ShowsCalls (called ++ called') ((Target.Expr.call e args).print depth) := by
  rw [Target.Expr.print]
  exact (h.append hargs).before (by decide)

theorem choose (ht : ShowsCalls called (test.print depth)) (h : ShowsCalls called' (e.print depth))
    (h' : ShowsCalls called'' (f.print depth)) :
    ShowsCalls (called ++ called' ++ called'') ((Target.Expr.choose test e f).print depth) := by
  rw [Target.Expr.print]
  exact (((((ht.after (by decide)).before (by decide)).append h).before (by decide)).append
    h').before (by decide)

theorem arrow (hps : '.'.toUInt8 ∉ commaList params) (h : ShowsCalls called (e.print depth)) :
    ShowsCalls called ((Target.Expr.arrow params e).print depth) := by
  have hstart := ((plain hps).after (by decide : '.'.toUInt8 ∉ Bytes.ofString "((")).before
    (by decide : '.'.toUInt8 ∉ Bytes.ofString ") => ")
  rw [Target.Expr.print]
  exact (hstart.append h).before (by decide)

theorem closure (hps : '.'.toUInt8 ∉ commaList params)
    (h : ShowsCalls called (Target.Stmt.prints (depth + 1) body)) :
    ShowsCalls called ((Target.Expr.closure params body).print depth) := by
  have hstart := ((plain hps).after (by decide : '.'.toUInt8 ∉ Bytes.ofString "((")).before
    (by decide : '.'.toUInt8 ∉ Bytes.ofString ") => \x7b\n")
  rw [Target.Expr.print]
  exact ((hstart.append h).before (dot_notMem_indent depth)).before (by decide)

/-- A line may be indented and begin with any word. -/
theorem line (depth : Nat) {word : Bytes} (hword : '.'.toUInt8 ∉ word)
    (h : ShowsCalls called text) :
    ShowsCalls called (indent depth ++ word ++ text) :=
  ((plain (dot_notMem_indent depth)).before hword).append h

/-- A body between braces, the first of which is the end of a line. -/
theorem braces {closing : Bytes} (h : ShowsCalls called text)
    (hbody : ShowsCalls called' (Target.Stmt.prints (depth + 1) body))
    (hclosing : '.'.toUInt8 ∉ closing) :
    ShowsCalls (called ++ called')
      (text ++ Target.Stmt.prints (depth + 1) body ++ indent depth ++ closing) :=
  ((h.append hbody).before (dot_notMem_indent depth)).before hclosing

theorem declare {constant : Bool} (hname : '.'.toUInt8 ∉ name)
    (h : ShowsCalls called (e.print depth)) :
    ShowsCalls called ((Target.Stmt.declare constant name e).print depth) := by
  have hword : '.'.toUInt8 ∉
      (if constant then Bytes.ofString "const " else Bytes.ofString "let ") := by
    cases constant <;> decide
  have hstart := (line depth hword (plain hname)).before
    (by decide : '.'.toUInt8 ∉ Bytes.ofString " = ")
  have hall := (hstart.append h).before (by decide : '.'.toUInt8 ∉ Bytes.ofString ";\n")
  rw [Target.Stmt.print]
  cases constant <;> exact hall

theorem function (hname : '.'.toUInt8 ∉ name) (hps : '.'.toUInt8 ∉ commaList params)
    (h : ShowsCalls called (Target.Stmt.prints (depth + 1) body)) :
    ShowsCalls called ((Target.Stmt.function name params body).print depth) := by
  have hstart := (((line depth (by decide : '.'.toUInt8 ∉ Bytes.ofString "function ")
    (plain hname)).before (by decide : '.'.toUInt8 ∉ Bytes.ofString "(")).before hps).before
    (by decide : '.'.toUInt8 ∉ Bytes.ofString ") \x7b\n")
  rw [Target.Stmt.print]
  exact hstart.braces h (by decide)

theorem assign (hname : '.'.toUInt8 ∉ name) (h : ShowsCalls called (e.print depth)) :
    ShowsCalls called ((Target.Stmt.assign name e).print depth) := by
  have hstart := line depth hname (plain (by decide : '.'.toUInt8 ∉ Bytes.ofString " = "))
  rw [Target.Stmt.print]
  exact (hstart.append h).before (by decide)

theorem ret (h : ShowsCalls called (e.print depth)) :
    ShowsCalls called ((Target.Stmt.ret e).print depth) := by
  rw [Target.Stmt.print]
  exact (line depth (by decide) h).before (by decide)

/-- A body may be a single statement. -/
theorem singleton {s : Target.Stmt} (h : ShowsCalls called (s.print depth)) :
    ShowsCalls called (Target.Stmt.prints depth [s]) := by
  simpa [Target.Stmt.prints] using h

theorem giving {returns : Bool} (h : ShowsCalls called (e.print depth)) :
    ShowsCalls called ((Target.Stmt.giving returns e).print depth) := by
  cases returns with
  | true => exact h.ret
  | false =>
    rw [Target.Stmt.giving, if_neg nofun, Target.Stmt.print]
    exact (h.after (dot_notMem_indent depth)).before (by decide)

theorem whileLoop (ht : ShowsCalls called (test.print depth))
    (h : ShowsCalls called' (Target.Stmt.prints (depth + 1) body)) :
    ShowsCalls (called ++ called') ((Target.Stmt.whileLoop test body).print depth) := by
  rw [Target.Stmt.print]
  exact ((line depth (by decide) ht).before (by decide)).braces h (by decide)

theorem forLoop (hname : '.'.toUInt8 ∉ name) (hx : ShowsCalls called (e.print depth))
    (h : ShowsCalls called' (Target.Stmt.prints (depth + 1) body)) :
    ShowsCalls (called ++ called') ((Target.Stmt.forLoop name e body).print depth) := by
  have hstart := (line depth (by decide : '.'.toUInt8 ∉ Bytes.ofString "for (const ")
    (plain hname)).before (by decide : '.'.toUInt8 ∉ Bytes.ofString " of ")
  rw [Target.Stmt.print]
  exact ((hstart.append hx).before (by decide)).braces h (by decide)

theorem block (h : ShowsCalls called (Target.Stmt.prints (depth + 1) body)) :
    ShowsCalls called ((Target.Stmt.block body).print depth) := by
  have hstart := (plain (dot_notMem_indent depth)).before
    (by decide : '.'.toUInt8 ∉ Bytes.ofString "\x7b\n")
  rw [Target.Stmt.print]
  exact hstart.braces h (by decide)

theorem branch (ht : ShowsCalls called (test.print depth))
    (hy : ShowsCalls called' (Target.Stmt.prints (depth + 1) yes))
    (hn : ShowsCalls called'' (no.print depth)) :
    ShowsCalls (called ++ called' ++ called'') ((Target.Stmt.branch test yes no).print depth) := by
  rw [Target.Stmt.print]
  exact (((line depth (by decide) ht).before (by decide)).braces hy (by decide)).append hn

theorem elseBody (h : ShowsCalls called (Target.Stmt.prints (depth + 1) body)) :
    ShowsCalls called ((Target.Else.body body).print depth) := by
  rw [Target.Else.print]
  exact (plain (by decide)).braces h (by decide)

theorem elseIf (ht : ShowsCalls called (test.print depth))
    (hy : ShowsCalls called' (Target.Stmt.prints (depth + 1) yes))
    (hn : ShowsCalls called'' (no.print depth)) :
    ShowsCalls (called ++ called' ++ called'') ((Target.Else.elseIf test yes no).print depth) := by
  rw [Target.Else.print]
  exact (((ht.after (by decide)).before (by decide)).braces hy (by decide)).append hn

end ShowsCalls

end

namespace ShowsCalls

variable {place : Place} {called called' called'' : List Bytes} {depth : Nat}

theorem give {e : Target.Expr} (h : ∀ depth, ShowsCalls called (e.print depth)) :
    ShowsCalls called ((place.part (place.give e)).print depth) := by
  cases place with
  | value => exact h depth
  | statement returns => exact (h depth).giving
  | branch returns => exact (h depth).giving.singleton
  | otherwise returns => exact (h (depth + 1)).giving.singleton.elseBody

theorem ofBody {body : List Target.Stmt}
    (h : ∀ depth, ShowsCalls called (Target.Stmt.prints depth body)) (depth : Nat) :
    ShowsCalls called ((place.part (place.ofBody body)).print depth) := by
  cases place with
  | value =>
    have hclosure : ShowsCalls called ((Target.Expr.closure [] body).print depth) :=
      .closure (by decide) (h (depth + 1))
    have hargs : ShowsCalls [] (commaList (Target.Expr.prints depth [])) := .plain List.not_mem_nil
    have hcall := (hclosure.before (by decide)).callExpr hargs
    rwa [List.append_nil] at hcall
  | statement returns => exact (h (depth + 1)).block
  | branch returns => exact h depth
  | otherwise returns => exact (h (depth + 1)).elseBody

theorem chooseAt {t : Target.Expr} {y : place.consequence.Form} {n : place.alternative.Form}
    (ht : ∀ depth, ShowsCalls called (t.print depth))
    (hy : ∀ depth, ShowsCalls called' ((place.consequence.part y).print depth))
    (hn : ∀ depth, ShowsCalls called'' ((place.alternative.part n).print depth)) (depth : Nat) :
    ShowsCalls (called ++ called' ++ called'') ((place.part (place.choose t y n)).print depth) := by
  cases place with
  | value => exact (ht depth).choose (hy depth) (hn depth)
  | statement returns => exact (ht depth).branch (hy (depth + 1)) (hn depth)
  | branch returns => exact ((ht depth).branch (hy (depth + 1)) (hn depth)).singleton
  | otherwise returns => exact (ht depth).elseIf (hy (depth + 1)) (hn depth)

theorem nothing : ShowsCalls [] ((place.alternative.part place.nothing).print depth) := by
  cases place with
  | value => exact showsCalls_undefined depth
  | _ => exact .plain (by decide : '.'.toUInt8 ∉ Bytes.ofString "\n")

end ShowsCalls

/-- The code shows the calls in the tree that it is made of. That of a callee does so with the
parenthesis behind it, and also shows the call of which it is the callee. -/
def Placed.ShowsCalls : Placed → Target.Part → Prop
  | .callee e, code => ∀ depth, PipeCompiler.ShowsCalls (e.name?.toList ++ calledIn e.outline)
      (code.print depth ++ Bytes.ofString "(")
  | placed, code => ∀ depth, PipeCompiler.ShowsCalls (calledIn placed.outline) (code.print depth)

theorem Becomes.showsCalls {placed : Placed} {part : Target.Part}
    (h : Becomes Token.DotFree placed part) : placed.ShowsCalls part := by
  induction h with
  | declare hn hv ih =>
    intro depth
    simpa [Placed.outline, Target.Part.print, Stmt.outline, Name.outline, Program.calledName?] using
      (ih depth).declare (dot_notMem_bindingName hn)
  | conciseFunction hn hps hb ih =>
    intro depth
    simpa [Placed.outline, Target.Part.print, Stmt.outline, Name.outline, Program.calledName?] using
      (ih (depth + 1)).ret.singleton.function (dot_notMem_bindingName hn) (dot_notMem_params hps)
  | blockFunction hn hps hb ih =>
    intro depth
    simpa [Placed.outline, Target.Part.print, Stmt.outline, Name.outline, Program.calledName?] using
      (ih (depth + 1)).function (dot_notMem_bindingName hn) (dot_notMem_params hps)
  | assign hn hv ih =>
    intro depth
    simpa [Placed.outline, Target.Part.print, Stmt.outline, Name.outline, Program.calledName?] using
      (ih depth).assign (dot_notMem_bindingName hn)
  | leave => exact fun depth => (ShowsCalls.plain (dot_notMem_indent depth)).before (by decide)
  | ret hv ih =>
    intro depth
    simpa [Placed.outline, Target.Part.print, Stmt.outline, Program.calledName?]
      using (ih depth).ret
  | whileLoop ht hb iht ihb =>
    intro depth
    simpa [Placed.outline, Target.Part.print, Stmt.outline, Body.outline, Expr.outline,
      Program.calledName?] using
      (iht depth).whileLoop (ihb (depth + 1))
  | forLoop hn hx hb ihx ihb =>
    intro depth
    simpa [Placed.outline, Target.Part.print, Stmt.outline, Body.outline, Expr.outline,
      Name.outline, Program.calledName?] using
      (ihx depth).forLoop (dot_notMem_bindingName hn) (ihb (depth + 1))
  | exprStatement hv ih =>
    intro depth
    simpa [Placed.outline, Target.Part.print, Stmt.outline, Program.calledName?] using ih depth
  | @noStatements returns =>
    intro depth
    cases returns with
    | true => exact (showsCalls_undefined depth).ret.singleton
    | false => exact .plain List.not_mem_nil
  | lastStatement hs ih =>
    intro depth
    simpa [Placed.outline, Target.Part.print, Stmt.outlines] using (ih depth).singleton
  | moreStatements hs hb ihs ihb =>
    intro depth
    rw [Placed.outline, Stmt.outlines, calledIn_append]
    exact (ihs depth).append (ihb depth)
  | ifThen ht hy iht ihy =>
    intro depth
    simpa [Placed.outline, Expr.outline, Program.calledName?] using
      ShowsCalls.chooseAt iht ihy (fun _ => .nothing) depth
  | ifThenElse ht hy hn iht ihy ihn =>
    intro depth
    simpa [Placed.outline, Expr.outline, Program.calledName?] using
      ShowsCalls.chooseAt iht ihy ihn depth
  | block hb ih =>
    intro depth
    simpa [Placed.outline, Expr.outline, Program.calledName?] using
      ShowsCalls.ofBody ih depth
  | binary level ht hk hl hr ihl ihr =>
    refine fun _ => .give fun depth => ?_
    simpa [Placed.outline, Expr.outline, Program.calledName?] using
      (ihl depth).binary (dot_notMem_operator ht hk) (ihr depth)
  | unary ht hk hx ih =>
    refine fun _ => .give fun depth => ?_
    simpa [Placed.outline, Expr.outline, Program.calledName?] using
      (ih depth).unary (dot_notMem_sign ht hk)
  | pipeName hl hn ih =>
    refine fun _ => .give fun depth => ?_
    have hargs := ShowsCalls.args_cons (ih depth)
      (.plain List.not_mem_nil : ShowsCalls [] (commaList (Target.Expr.prints depth [])))
    simpa [Placed.outline, Expr.outline, Program.calledName?] using
      (showsCalls_name hn depth).callExpr hargs
  | pipeCall hl hc ha ihl ihc iha =>
    refine fun _ => .give fun depth => ?_
    have hcall := ShowsCalls.callExpr (ihc depth) (.args_cons (ihl depth) (iha depth))
    -- The callee comes before the value that is piped into it.
    rw [ha.pipedArgs_eq fun _ h => h.wellSpelled.named]
    apply hcall.of_mem_iff
    intro name
    simp only [Placed.outline, calledIn_pipe_call, calledIn_call, List.mem_append]
    rw [or_left_comm, or_assoc]
  | call hc ha ihc iha =>
    refine fun _ => .give fun depth => ?_
    rw [Placed.outline, calledIn_call, ← List.append_assoc]
    exact (ihc depth).callExpr (iha depth)
  | closure hps hb ih =>
    refine fun _ => .give fun depth => ?_
    simpa [Placed.outline, Expr.outline, Program.calledName?] using
      (ih (depth + 1)).closure (dot_notMem_params hps)
  | arrow hps hb ih =>
    refine fun _ => .give fun depth => ?_
    simpa [Placed.outline, Expr.outline, Program.calledName?] using
      (ih depth).arrow (dot_notMem_params hps)
  | name hn =>
    refine fun _ => .give fun depth => ?_
    simpa [Placed.outline, Expr.outline, Program.calledName?, Target.Expr.print] using
      ShowsCalls.plain (dot_notMem_bindingName hn)
  | @number place tok value => exact fun _ => .give fun _ => showsCalls_numberLiteral value
  | string ht hk => exact fun _ => .give fun _ => .plain (dot_notMem_stringLiteral (ht.string hk))
  | @bool place tok value =>
    refine fun _ => .give fun depth => ?_
    cases value
    · exact .plain (by decide : '.'.toUInt8 ∉ Bytes.ofString "false")
    · exact .plain (by decide : '.'.toUInt8 ∉ Bytes.ofString "true")
  | null => exact fun _ => .give fun _ => .plain (by decide : '.'.toUInt8 ∉ Bytes.ofString "null")
  | array hx ih =>
    refine fun _ => .give fun depth => ?_
    simpa [Placed.outline, Expr.outline, Program.calledName?] using (ih depth).array
  | calleeName hn =>
    intro depth
    simpa [Target.Part.print, Expr.name?, Expr.outline, Program.calledName?] using
      showsCalls_name hn depth
  | @callee e f hne he ih =>
    intro depth
    have hnone : e.name? = none := by
      cases e with
      | name n => exact absurd rfl (hne n)
      | _ => rfl
    rw [hnone]
    exact (ih depth).before (by decide)
  | noExprs => exact fun _ => .plain List.not_mem_nil
  | moreExprs he hes ihe ihes =>
    intro depth
    rw [Placed.outline, Expr.outlines, calledIn_append]
    exact .args_cons (ihe depth) (ihes depth)

private theorem showsCalls_preamble : ShowsCalls [] Target.preamble := by
  have hdirectory : ShowsCalls [] ('.'.toUInt8 :: Bytes.ofString "/runtime") :=
    .point (by decide) (by decide)
  have hfile : ShowsCalls [] ('.'.toUInt8 :: Bytes.ofString "mjs';\n\n") :=
    .point (by decide) (by decide)
  exact (hdirectory.append hfile).after
    (by decide : '.'.toUInt8 ∉ Bytes.ofString "import * as runtime from '")

/-- The library functions that a text shows are those that it calls. -/
theorem ShowsCalls.mem_iff {called : List Bytes} {text name : Bytes} (h : ShowsCalls called text)
    (hname : name ∈ Library.names) : name ∈ called ↔ callText name <:+: text := by
  have hapart : ∀ n ∈ Library.names, ∀ m ∈ Library.names,
      opening n <+: opening m → n = m := by decide
  constructor
  · intro hmem
    exact h.calls name hmem (by simpa [Library.isName] using hname)
  · rintro ⟨before, after, htext⟩
    have hdot : text =
        before ++ Library.namespaceName ++ '.'.toUInt8 :: (opening name ++ after) := by
      rw [← htext, callText]
      simp only [List.append_assoc]
      rfl
    rcases h.dots _ _ hdot with ⟨n, hn, hlibrary, hstart⟩ | ⟨part, hpart, hmiss⟩
    · have hn' : n ∈ Library.names := by simpa [Library.isName] using hlibrary
      have heq : n = name := by
        rcases List.prefix_or_prefix_of_prefix hstart (List.prefix_append _ _) with hp | hp
        · exact hapart n hn' name hname hp
        · exact (hapart name hname n hn' hp).symm
      exact heq ▸ hn
    · obtain ⟨hleft, hright⟩ := hmiss name hname
      rcases List.prefix_or_prefix_of_prefix hpart (List.prefix_append _ _) with hp | hp
      · exact absurd hp hleft
      · exact absurd hp hright

/-- The contents of the string literals in a source text. -/
def stringsIn (source : Bytes) : List Bytes :=
  match tokenize source with
  | .ok toks => (toks.filter (·.kind = .string)).map Token.literal
  | .error _ => []

private theorem dotFree_of_stringsIn {source : Bytes} {toks : List Token}
    (h : tokenize source = .ok toks)
    (hplain : ∀ s ∈ stringsIn source, '.'.toUInt8 ∉ s) : ∀ tok ∈ toks, tok.DotFree := by
  intro tok htok
  refine ⟨Cursor.tokens_wellSpelled h tok htok, fun hk => hplain tok.literal ?_⟩
  simp only [stringsIn, h]
  exact List.mem_map_of_mem (List.mem_filter.mpr ⟨htok, by simpa using hk⟩)

/-- If no string of a source text has a dot in it, its library calls can be read off the text of its
code. They are listed in order, each once. -/
theorem libraryCalls_shown_in_code {source : Bytes} {r : Compiled} (h : compile source = .ok r)
    (hplain : ∀ s ∈ stringsIn source, '.'.toUInt8 ∉ s) :
    r.program.libraryCalls.Pairwise (· < ·) ∧
      ∀ name ∈ Library.names,
        (name ∈ r.program.libraryCalls ↔ Library.callText name <:+: r.code) := by
  obtain ⟨hparse, hcode⟩ := compile_eq_ok.mp h
  obtain ⟨toks, htoks, hp⟩ := Program.parse_eq_ok.mp hparse
  obtain ⟨body, hbody, hcode⟩ := Program.code_eq_ok.mp hcode
  have hformed := Tokens.parse_formed hp (dotFree_of_stringsIn htoks hplain)
  have hshows := showsCalls_preamble.append ((hformed.becomes hbody).showsCalls 0)
  rw [Target.Part.print, ← hcode] at hshows
  constructor
  · have hsorted : Library.names.Pairwise (· < ·) := by decide
    rw [Program.libraryCalls_eq]
    exact hsorted.filter _
  · intro name hname
    rw [Program.libraryCalls_eq, List.mem_filter, List.contains_iff_mem, and_iff_right hname]
    exact hshows.mem_iff hname

/-- Functions of the library that are called and piped into, beside one that is only a value, a
number with a dot, and a string that looks like a call. -/
def Grammar.borrowedFunctions : Bytes :=
  "let runtime = \"runtime,len(\"\nmap([0.5], |x| x) |> print\nsum |> f"

theorem libraryCalls_shown_in_code_borrowedFunctions :
    ∃ r, compile borrowedFunctions = .ok r ∧ Library.callText "print" <:+: r.code ∧
      Library.callText "map" <:+: r.code ∧ ¬Library.callText "sum" <:+: r.code ∧
      ¬Library.callText "len" <:+: r.code := by
  have hcalls : (compile borrowedFunctions).toOption.map (·.program.libraryCalls) =
      some (["map", "print"].map Bytes.ofString) := by
    simp only [Program.libraryCalls_eq]
    decide +kernel
  have hplain : ∀ s ∈ stringsIn borrowedFunctions, '.'.toUInt8 ∉ s := by decide +kernel
  cases h : compile borrowedFunctions with
  | error e => simp [h, Except.toOption] at hcalls
  | ok r =>
    simp only [h, Except.toOption, Option.map_some, Option.some.injEq] at hcalls
    have hshown := (libraryCalls_shown_in_code h hplain).2
    rw [hcalls] at hshown
    refine ⟨r, rfl, ?_, ?_, ?_, ?_⟩
    · exact (hshown "print" (by decide)).mp (by decide)
    · exact (hshown "map" (by decide)).mp (by decide)
    · exact fun hsum => absurd ((hshown "sum" (by decide)).mpr hsum) (by decide)
    · exact fun hlen => absurd ((hshown "len" (by decide)).mpr hlen) (by decide)

end PipeCompiler
