import PipeCompiler.Proofs.LexicalText
import PipeCompiler.Proofs.PipeDesugaring

/-! The tokens and the nodes of a source text.

A token that the lexer makes has the text that its kind asks for, and so the trees of a source text
are formed over such tokens, down to every expression that occurs in them. -/
namespace PipeCompiler

open Grammar

/-- What the lexer guarantees of a token: identifiers are names and no reserved words, numbers are
written with digits, and operators and reserved words as they are spelled. -/
structure Token.WellSpelled (tok : Token) : Prop where
  name : tok.kind = .ident → Lexeme.IsName tok.literal ∧ Kind.ofName tok.literal = .ident
  number : tok.kind = .number → Lexeme.IsNumber tok.literal
  operator : ∀ op, (op, tok.kind) ∈ Kind.operators → tok.literal = op
  word : ∀ word, (word, tok.kind) ∈ Kind.words → tok.literal = word

theorem Token.WellSpelled.named {tok : Token} (h : tok.WellSpelled) : tok.Named := by
  intro hk hnil
  obtain ⟨⟨b, hb, -⟩, -⟩ := (h.name hk).1
  rw [hnil] at hb
  cases hb

namespace Lexeme

/-- Reserved words and names are neither numbers nor operators. -/
theorem ofName_distinct (s : Bytes) :
    Token.Kind.ofName s ≠ .number ∧ ∀ op, (op, Token.Kind.ofName s) ∉ Token.Kind.operators := by
  have hwords : ∀ w ∈ ("", Token.Kind.ident) :: Token.Kind.words,
      w.2 ≠ .number ∧ ∀ x ∈ Token.Kind.operators, x.2 ≠ w.2 := by decide
  unfold Token.Kind.ofName
  split
  · rename_i hfind
    obtain ⟨hnumber, hop⟩ := hwords _ (List.mem_cons_of_mem _ (List.mem_of_find?_eq_some hfind))
    exact ⟨hnumber, fun op hmem => hop _ hmem rfl⟩
  · obtain ⟨hnumber, hop⟩ := hwords _ List.mem_cons_self
    exact ⟨hnumber, fun op hmem => hop _ hmem rfl⟩

/-- Only the reserved word itself is of its kind. -/
theorem eq_of_ofName {s : Bytes} {word : String}
    (h : (word, Token.Kind.ofName s) ∈ Token.Kind.words) :
    s = word := by
  have hwords : ∀ x ∈ Token.Kind.words, x.2 ≠ .ident ∧
      ∀ y ∈ Token.Kind.words, x.2 = y.2 → x.1 = y.1 := by decide
  revert h
  unfold Token.Kind.ofName
  split
  · rename_i hfind
    intro h
    have hsame : word = _ := (hwords _ h).2 _ (List.mem_of_find?_eq_some hfind) rfl
    have hs := List.find?_some hfind
    rw [hsame]
    exact (beq_iff_eq.mp hs).symm
  · intro h
    exact absurd rfl (hwords _ h).1

/-- No two operators are of the same kind. -/
theorem operators_functional {op op' : String} {kind : Token.Kind}
    (h : (op, kind) ∈ Token.Kind.operators) (h' : (op', kind) ∈ Token.Kind.operators) :
    op = op' := by
  have hall : ∀ x ∈ Token.Kind.operators, ∀ y ∈ Token.Kind.operators, x.2 = y.2 → x.1 = y.1 := by
    decide
  exact hall _ h _ h' rfl

theorem operator?_mem {s text rest : Bytes} {kind : Token.Kind}
    (h : Token.Kind.operator? s = some (text, kind, rest)) :
    ∃ op : String, (op, kind) ∈ Token.Kind.operators ∧ text = op := by
  obtain ⟨⟨op, k⟩, hmem, hop⟩ := List.exists_of_findSome?_eq_some h
  simp only [Option.map_eq_some_iff, Prod.mk.injEq] at hop
  obtain ⟨r, -, rfl, rfl, -⟩ := hop
  exact ⟨op, hmem, rfl⟩

private theorem scan_wellSpelled {b : UInt8} {s : Bytes} {x : Lexeme} {rest : Bytes}
    (h : scan b s = .ok (x, rest)) (pos : Position) : (x.token pos).WellSpelled := by
  have hnone : ∀ y ∈ Token.Kind.operators,
      y.2 ≠ .newline ∧ y.2 ≠ .string ∧ y.2 ≠ .number ∧ y.2 ≠ .ident := by decide
  have hword : ∀ w ∈ Token.Kind.words, w.2 ≠ .newline ∧ w.2 ≠ .string ∧ w.2 ≠ .number ∧
      ∀ y ∈ Token.Kind.operators, y.2 ≠ w.2 := by decide
  unfold scan at h
  split at h
  · cases h
    exact ⟨by simp [token], by simp [token], fun op hmem => absurd rfl (hnone _ hmem).1,
      fun word hmem => absurd rfl (hword _ hmem).1⟩
  split at h
  · split at h
    · cases h
      exact ⟨by simp [token], by simp [token], fun op hmem => absurd rfl (hnone _ hmem).2.1,
        fun word hmem => absurd rfl (hword _ hmem).2.1⟩
    · cases h
  split at h
  · rename_i hletter
    cases h
    refine ⟨fun hk => ⟨⟨⟨b, rfl, hletter⟩, ?_⟩, hk⟩, fun hk => ?_, fun op hmem => ?_,
      fun word hmem => eq_of_ofName hmem⟩
    · intro c hc
      exact List.all_eq_true.mp List.all_takeWhile c hc
    · exact absurd hk (ofName_distinct _).1
    · exact absurd hmem ((ofName_distinct _).2 op)
  split at h
  · rename_i hdigit
    cases h
    exact ⟨by simp [token], fun _ => isNumber_number hdigit s,
      fun op hmem => absurd rfl (hnone _ hmem).2.2.1,
      fun word hmem => absurd rfl (hword _ hmem).2.2.1⟩
  · split at h
    · rename_i text kind tail hop
      cases h
      obtain ⟨op, hmem, rfl⟩ := operator?_mem hop
      have hkinds := hnone _ hmem
      refine ⟨fun hk => absurd hk hkinds.2.2.2, fun hk => absurd hk hkinds.2.2.1, ?_, ?_⟩
      · intro op' hmem'
        exact congrArg Bytes.ofString (operators_functional hmem hmem')
      · intro word hmem'
        exact absurd rfl ((hword _ hmem').2.2.2 (op, kind) hmem)
    · cases h

end Lexeme

namespace Cursor

/-- The end of input has no text that its kind would ask for. -/
theorem step_done_wellSpelled {c after : Cursor} {stop : Token} (h : c.step = .done stop after) :
    stop.WellSpelled := by
  have hnone : ∀ y ∈ Token.Kind.operators ++ Token.Kind.words, y.2 ≠ .eof := by decide
  have hk := (step_done h).1
  constructor
  · simp [hk]
  · simp [hk]
  · intro op hmem
    exact absurd hk (hnone _ (List.mem_append_left _ hmem))
  · intro word hmem
    exact absurd hk (hnone _ (List.mem_append_right _ hmem))

private theorem step_wellSpelled {c after : Cursor} {tok : Token} (h : c.step = .token tok after) :
    tok.WellSpelled := by
  obtain ⟨b, s, x, rest, -, hx, rfl, -⟩ := step_token_cases h
  exact Lexeme.scan_wellSpelled hx _

theorem tokens_wellSpelled {c : Cursor} {toks : List Token} (h : c.tokens = .ok toks) :
    ∀ tok ∈ toks, tok.WellSpelled := by
  fun_induction tokens c generalizing toks with
  | case1 c stop after hstep =>
    cases h
    simpa using step_done_wellSpelled hstep
  | case2 c error after hstep => cases h
  | case3 c tok after hstep ih =>
    cases hrest : after.tokens with
    | error e => simp [hrest, Except.map] at h
    | ok rest =>
      simp only [hrest, Except.map, Except.ok.injEq] at h
      subst h
      exact List.forall_mem_cons.mpr ⟨step_wellSpelled hstep, ih hrest⟩

end Cursor

variable {P : Token → Prop}

/-- The node is formed over tokens of which `P` holds. -/
def Node.Formed (P : Token → Prop) : Node → Prop
  | .program p => Grammar.Formed P (.body p.body)
  | .stmt s => Grammar.Formed P (.stmt s)
  | .expr e => Grammar.Formed P (.expr e)
  | .missingBody => False

private theorem formed_names {params : List Name} (h : ∀ n ∈ params, FormedName P n) :
    ∀ node ∈ Outline.labelsAll (params.map Name.outline), node.Formed P := by
  rw [labelsAll_names, List.forall_mem_map]
  exact fun n hn => .name (h n hn)

/-- All nodes of a formed tree are formed. -/
theorem Grammar.Formed.nodes {t : Tree} (h : Formed P t) :
    ∀ node ∈ Outline.labelsAll t.outline, node.Formed P := by
  induction h with
  | noStatements | noExprs => exact List.forall_mem_nil _
  | _ =>
    -- Any other tree has a node of its own and those of its parts.
    simp only [Tree.outline, Stmt.outline, Stmt.outlines, Body.outline, Expr.outline, Expr.outlines,
      Name.outline, Outline.labelsAll_cons, Outline.labelsAll_append, Outline.labelsAll_nil,
      List.forall_mem_cons, List.forall_mem_append, List.append_nil, List.cons_append,
      List.nil_append] at *
    grind [Formed, Node.Formed, formed_names]

/-- The nodes of a program are formed over the tokens of its source text. -/
theorem Program.parse_nodes {source : Bytes} {p : Program} (h : Program.parse source = .ok p) :
    ∀ node ∈ p.outline.labels, node.Formed Token.WellSpelled := by
  obtain ⟨toks, htoks, hp⟩ := Program.parse_eq_ok.mp h
  have hformed := Tokens.parse_formed hp (Cursor.tokens_wellSpelled htoks)
  rw [Program.labels_outline, List.forall_mem_cons]
  exact ⟨hformed, hformed.nodes⟩

/-- The expressions that occur in a program are formed over the tokens of its source text. -/
theorem Program.parse_wellSpelled {source : Bytes} {p : Program} {e : Expr}
    (h : Program.parse source = .ok p) (he : Node.expr e ∈ p.outline.labels) :
    Formed Token.WellSpelled (.expr e) :=
  Program.parse_nodes h (.expr e) he

end PipeCompiler
