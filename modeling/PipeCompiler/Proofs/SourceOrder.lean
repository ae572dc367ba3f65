import Mathlib.Data.List.Forall2
import PipeCompiler.Proofs.Outcomes
import PipeCompiler.Proofs.Outlines

/-! The walk follows the source text.

A derivation reads its tokens from left to right, and the walk through the tree that it makes meets
the nodes in the same order. Each name and each literal stands for one token, no other token of
these kinds is left over, and a node never begins before one that was visited earlier. -/
namespace PipeCompiler

open Grammar

/-- Names and literals. -/
def Node.isAtom : Node → Bool
  | .expr (.name _) | .expr (.number ..) | .expr (.string ..) | .expr (.bool ..)
  | .expr (.null _) => true
  | _ => false

/-- The kinds of the tokens that names and literals are made from. -/
def Token.Kind.isAtom : Kind → Bool
  | ident | number | string | trueWord | falseWord | nullWord => true
  | _ => false

/-- A name or a literal keeps the token that it is made from and means what the token stands for. -/
inductive Node.IsMadeFrom : Node → Token → Prop
  | name {id : Token} (hi : id.kind = .ident) : IsMadeFrom (.expr (.name (.mk id id.literal))) id
  | number {tok : Token} {value : Double} (ht : tok.kind = .number)
      (hv : Double.read? tok.literal = some value) : IsMadeFrom (.expr (.number tok value)) tok
  | string {tok : Token} (ht : tok.kind = .string) :
      IsMadeFrom (.expr (.string tok tok.literal)) tok
  | bool {tok : Token} (ht : tok.kind = .trueWord ∨ tok.kind = .falseWord) :
      IsMadeFrom (.expr (.bool tok (tok.kind = .trueWord))) tok
  | null {tok : Token} (ht : tok.kind = .nullWord) : IsMadeFrom (.expr (.null tok)) tok

theorem Node.IsMadeFrom.isAtom {node : Node} {tok : Token} (h : node.IsMadeFrom tok) :
    node.isAtom = true ∧ tok.kind.isAtom = true := by
  cases h with
  | name hk | number hk | string hk | null hk => simp [Node.isAtom, Token.Kind.isAtom, hk]
  | bool hk => rcases hk with hk | hk <;> simp [Node.isAtom, Token.Kind.isAtom, hk]

/-- The names and literals in some trees are made from the tokens of these kinds, one from each, in
the same order. -/
def AtomsOf (ts : List (Outline Node)) (toks : List Token) : Prop :=
  List.Forall₂ Node.IsMadeFrom ((Outline.labelsAll ts).filter Node.isAtom)
    (toks.filter (·.kind.isAtom))

namespace AtomsOf

variable {ts us : List (Outline Node)} {toks others : List Token} {tok : Token} {label : Node}

theorem nil : AtomsOf [] [] := List.Forall₂.nil

theorem append (h : AtomsOf ts toks) (h' : AtomsOf us others) :
    AtomsOf (ts ++ us) (toks ++ others) := by
  unfold AtomsOf
  rw [Outline.labelsAll_append, List.filter_append, List.filter_append]
  exact List.rel_append h h'

/-- A token that no name or literal is made from. -/
theorem other (hk : tok.kind.isAtom = false) (h : AtomsOf ts toks) : AtomsOf ts (tok :: toks) := by
  unfold AtomsOf
  rwa [List.filter_cons_of_neg (by simp [hk])]

theorem trailing (h : AtomsOf ts toks) (hk : tok.kind.isAtom = false) :
    AtomsOf ts (toks ++ [tok]) := by
  simpa using h.append (.other hk .nil)

theorem node (hl : label.isAtom = false) (h : AtomsOf ts toks) :
    AtomsOf [.node label ts] toks := by
  unfold AtomsOf
  rw [Outline.labelsAll_cons, List.filter_cons_of_neg (by simp [hl]), Outline.labelsAll_nil,
    List.append_nil]
  exact h

end AtomsOf

/-- Names and literals, empty lists and blocks, bare returns, and a program without statements. -/
def Node.isLeaf : Node → Bool
  | .program p => p.body.isEmpty
  | .stmt (.ret _ .missing) => true
  | .expr (.array _ items) => items.isEmpty
  | .expr (.block _ body) => body.isEmpty
  | node => node.isAtom

/-- Of all nodes in some trees, exactly the leaves have no children. -/
def LeavesOnly (ts : List (Outline Node)) : Prop :=
  ∀ visited ∈ Outline.visitAll (fun _ => true) ts,
    visited.2 = 0 ↔ visited.1.isLeaf = true

namespace LeavesOnly

variable {ts us : List (Outline Node)} {label : Node}

theorem nil : LeavesOnly [] := by
  intro visited hvisited
  cases hvisited

theorem append (h : LeavesOnly ts) (h' : LeavesOnly us) : LeavesOnly (ts ++ us) := by
  intro visited hvisited
  rw [Outline.visitAll_append, List.mem_append] at hvisited
  exact hvisited.elim (h visited) (h' visited)

theorem node (hl : ts = [] ↔ label.isLeaf = true) (h : LeavesOnly ts) :
    LeavesOnly [.node label ts] := by
  intro visited hvisited
  simp only [Outline.visitAll, Outline.visit, if_true, List.append_nil, List.mem_cons] at hvisited
  rcases hvisited with rfl | hvisited
  · rw [List.length_eq_zero_iff]
    exact hl
  · exact h visited hvisited

/-- A node that has a child. -/
theorem inner (hts : ts ≠ []) (hl : label.isLeaf = false) (h : LeavesOnly ts) :
    LeavesOnly [.node label ts] :=
  node (iff_of_false hts (by simp [hl])) h

theorem leaf (hl : label.isLeaf = true) : LeavesOnly [.node label []] :=
  node (iff_of_true rfl hl) nil

theorem names (ns : List Name) : LeavesOnly (ns.map Name.outline) := by
  induction ns with
  | nil => exact nil
  | cons n ns ih => exact append (leaf rfl) ih

end LeavesOnly

section

variable {P : Token → Prop}

end

/-- Line by line, and in a line column by column. -/
instance : LE Position :=
  ⟨fun p q => p.line < q.line ∨ p.line = q.line ∧ p.column ≤ q.column⟩

namespace Position

theorem le_iff {p q : Position} :
    p ≤ q ↔ p.line < q.line ∨ p.line = q.line ∧ p.column ≤ q.column := Iff.rfl

theorem le_refl (p : Position) : p ≤ p := by
  simp [le_iff]

theorem le_trans {p q r : Position} (h : p ≤ q) (h' : q ≤ r) : p ≤ r := by
  rw [le_iff] at h h' ⊢
  omega

private theorem le_step (p : Position) (g : Glyph) : p ≤ p.step g := by
  rw [le_iff]
  unfold step
  split
  · exact .inl (Int.lt_succ p.line)
  · exact .inr ⟨rfl, Int.le_add_one (Int.le_refl p.column)⟩

theorem le_advance (p : Position) (text : Bytes) : p ≤ p.advance text := by
  unfold advance
  induction glyphs text generalizing p with
  | nil => exact le_refl p
  | cons g gs ih => exact le_trans (le_step p g) (ih (p.step g))

end Position

namespace Cursor

/-- A token is neither before the place that it is read at nor behind the one that is reached. -/
theorem step_token_pos {c after : Cursor} {tok : Token} (h : c.step = .token tok after) :
    c.pos ≤ tok.pos ∧ tok.pos ≤ after.pos := by
  obtain ⟨b, s, x, rest, -, -, rfl, rfl⟩ := step_token_cases h
  exact ⟨Position.le_advance _ _, Position.le_advance _ _⟩

private theorem step_done_pos {c after : Cursor} {stop : Token} (h : c.step = .done stop after) :
    c.pos ≤ stop.pos := by
  obtain ⟨-, rfl⟩ := step_done_cases h
  exact Position.le_advance _ _

/-- The tokens from a place on stand behind it, in order. -/
theorem tokens_inOrder {c : Cursor} {toks : List Token} (h : c.tokens = .ok toks) :
    (∀ tok ∈ toks, c.pos ≤ tok.pos) ∧ toks.Pairwise fun a b => a.pos ≤ b.pos := by
  fun_induction tokens c generalizing toks with
  | case1 c stop after hstep =>
    cases h
    simpa using step_done_pos hstep
  | case2 c error after hstep => cases h
  | case3 c tok after hstep ih =>
    cases hrest : after.tokens with
    | error e => simp [hrest, Except.map] at h
    | ok rest =>
      simp only [hrest, Except.map, Except.ok.injEq] at h
      subst h
      obtain ⟨hbefore, hbehind⟩ := step_token_pos hstep
      obtain ⟨hall, hordered⟩ := ih hrest
      have hlater : ∀ x ∈ rest, tok.pos ≤ x.pos := fun x hx =>
        Position.le_trans hbehind (hall x hx)
      rw [List.forall_mem_cons, List.pairwise_cons]
      exact ⟨⟨hbefore, fun x hx => Position.le_trans hbefore (hlater x hx)⟩, hlater, hordered⟩

end Cursor

/-- The positions are those of tokens in the list, taken in order; several in a row may be those of
one token, and tokens may be left out. -/
inductive Follows : List Position → List Token → Prop
  | nil {toks : List Token} : Follows [] toks
  | skip {tok : Token} {ps : List Position} {toks : List Token} (h : Follows ps toks) :
      Follows ps (tok :: toks)
  | stay {tok : Token} {ps : List Position} {toks : List Token} (h : Follows ps (tok :: toks)) :
      Follows (tok.pos :: ps) (tok :: toks)

namespace Follows

variable {ps qs : List Position} {toks others : List Token}

theorem skips (h : Follows qs others) (toks : List Token) : Follows qs (toks ++ others) := by
  induction toks with
  | nil => exact h
  | cons tok toks ih => exact .skip ih

theorem append (h : Follows ps toks) (h' : Follows qs others) :
    Follows (ps ++ qs) (toks ++ others) := by
  induction h with
  | nil => exact h'.skips _
  | skip h ih => exact .skip ih
  | stay h ih => exact .stay ih

/-- Nothing need follow the last tokens. -/
theorem trailing (h : Follows ps toks) (others : List Token) : Follows ps (toks ++ others) := by
  simpa using h.append (.nil : Follows [] others)

/-- What begins where its first part begins. -/
theorem again {p : Position} (h : Follows (p :: ps) toks) : Follows (p :: p :: ps) toks := by
  generalize hqs : p :: ps = qs at h
  induction h with
  | nil => cases hqs
  | skip h ih => exact .skip (ih hqs)
  | stay h ih =>
    cases hqs
    exact .stay (.stay h)

theorem mem (h : Follows ps toks) {p : Position} (hp : p ∈ ps) : ∃ tok ∈ toks, p = tok.pos := by
  induction h with
  | nil => cases hp
  | skip h ih =>
    obtain ⟨tok, htok, hpos⟩ := ih hp
    exact ⟨tok, List.mem_cons_of_mem _ htok, hpos⟩
  | @stay tok ps toks h ih =>
    rcases List.mem_cons.mp hp with rfl | hp
    · exact ⟨tok, List.mem_cons_self, rfl⟩
    · exact ih hp

theorem inOrder (h : Follows ps toks) (hordered : toks.Pairwise fun a b => a.pos ≤ b.pos) :
    ps.Pairwise (· ≤ ·) := by
  induction h with
  | nil => exact .nil
  | skip h ih => exact ih hordered.tail
  | @stay tok ps toks h ih =>
    refine .cons (fun p hp => ?_) (ih hordered)
    obtain ⟨x, hx, rfl⟩ := h.mem hp
    rcases List.mem_cons.mp hx with rfl | hx
    · exact Position.le_refl _
    · exact (List.pairwise_cons.mp hordered).1 x hx

end Follows

/-- Where the nodes of some trees begin, in the order of the walk. -/
def positionsIn (ts : List (Outline Node)) : List Position :=
  (Outline.labelsAll ts).map Node.pos

/-- The walk through some trees goes along the tokens. -/
def WalksAlong (ts : List (Outline Node)) (toks : List Token) : Prop :=
  Follows (positionsIn ts) toks

private theorem Expr.positionsIn_outline {e : Expr} (h : e ≠ .missing) :
    ∃ ps, positionsIn e.outline = e.pos :: ps := by
  cases e with
  | missing => exact absurd rfl h
  | _ => simp [Expr.outline, positionsIn, Node.pos]

namespace WalksAlong

variable {ts us : List (Outline Node)} {toks others : List Token} {tok : Token} {label : Node}

theorem nil (toks : List Token) : WalksAlong [] toks := Follows.nil

theorem skip (h : WalksAlong ts toks) : WalksAlong ts (tok :: toks) := Follows.skip h

theorem append (h : WalksAlong ts toks) (h' : WalksAlong us others) :
    WalksAlong (ts ++ us) (toks ++ others) := by
  unfold WalksAlong positionsIn
  rw [Outline.labelsAll_append, List.map_append]
  exact Follows.append h h'

theorem trailing (h : WalksAlong ts toks) (others : List Token) : WalksAlong ts (toks ++ others) :=
  Follows.trailing h others

/-- A node that begins with a token of its own. -/
theorem node (hpos : label.pos = tok.pos) (h : WalksAlong ts (tok :: toks)) :
    WalksAlong [.node label ts] (tok :: toks) := by
  unfold WalksAlong positionsIn
  rw [Outline.labelsAll_cons, Outline.labelsAll_nil, List.append_nil, List.map_cons, hpos]
  exact .stay h

/-- A node that is a token. -/
theorem leaf (hpos : label.pos = tok.pos) (h : WalksAlong ts toks) :
    WalksAlong (.node label [] :: ts) (tok :: toks) :=
  (node hpos (nil [tok])).append h

/-- A node that begins where its first part begins. -/
theorem around {e : Expr} (hpos : label.pos = e.pos) (he : e ≠ .missing)
    (h : WalksAlong (e.outline ++ ts) toks) : WalksAlong [.node label (e.outline ++ ts)] toks := by
  obtain ⟨ps, hps⟩ := Expr.positionsIn_outline he
  unfold WalksAlong positionsIn at h ⊢
  rw [Outline.labelsAll_append, List.map_append, ← positionsIn, hps] at h
  rw [Outline.labelsAll_cons, Outline.labelsAll_nil, List.append_nil, Outline.labelsAll_append,
    List.map_cons, List.map_append, ← positionsIn, hps, hpos]
  exact h.again

end WalksAlong

theorem Grammar.Listed.walksAlong {closing : Token.Kind} {toks : List Token} {ns : List Name}
    (h : Listed IsName closing toks ns) : WalksAlong (ns.map Name.outline) toks := by
  induction h with
  | empty hclose => exact .nil _
  | last hx hclose =>
    obtain ⟨id, hi, rfl, rfl⟩ := hx
    exact .leaf rfl (.nil _)
  | more hx hcomma hys ih =>
    obtain ⟨id, hi, rfl, rfl⟩ := hx
    exact .leaf rfl (.skip ih)

theorem Grammar.Derives.ne_missing {level : Level} {e : Expr} {toks : List Token}
    (h : Derives (.expr level e) toks) : e ≠ .missing :=
  (h.formed (P := fun _ => True) fun _ _ => trivial).ne_missing

/-- The walk through a tree goes along the tokens that the tree is made from. -/
theorem Grammar.Derives.walksAlong {phrase : Phrase} {toks : List Token} (h : Derives phrase toks) :
    WalksAlong phrase.tree.outline toks := by
  induction h with
  | declare ht hi hs hv ih => exact .node rfl (.skip (.leaf rfl (.skip ih)))
  | conciseFunction ht hi hp hps hs hb ih =>
    exact .node rfl (.skip (.leaf rfl (.skip (hps.walksAlong.append (.skip ih)))))
  | blockFunction ht hi hp hps hb ih =>
    exact .node rfl (.skip (.leaf rfl (.skip (hps.walksAlong.append ih))))
  | leave ht => exact .node rfl (.nil _)
  | ret ht hv ih => exact .node rfl (.skip ih)
  | whileLoop ht hc hb ihc ihb => exact .node rfl (.skip (ihc.append ihb))
  | forLoop ht hi hw hx hb ihx ihb =>
    exact .node rfl (.skip (.leaf rfl (.skip (ihx.append ihb))))
  | assign hi hs hv ih => exact .node rfl (.leaf rfl (.skip ih))
  | exprStatement hv ih => exact .node rfl ih
  | noStatements => exact .nil _
  | moreStatements hs he hb ihs ihb => exact (ihs.trailing _).append ihb
  | block ht hb hc ih => exact .node rfl (.skip (ih.trailing _))
  | tighter he ih => exact ih
  | pipe hl ht hr hp ihl ihr => exact .around rfl hl.ne_missing (ihl.append (.skip ihr))
  | binary hl ho hr ihl ihr => exact .around rfl hl.ne_missing (ihl.append (.skip ihr))
  | unary ho he ih => exact .node rfl (.skip ih)
  | call hl ht hr ihl ihr => exact .around rfl hl.ne_missing (ihl.append (.skip ihr))
  | choicePrimary he ih => exact ih
  | blockPrimary hb ih => exact ih
  | lambda ht hps hb ih => exact .node rfl (.skip (hps.walksAlong.append ih))
  | thunk ht hb ih => exact .node rfl (.skip ih)
  | array ht hx ih => exact .node rfl (.skip ih)
  | parens hp he hc ih => exact .skip (ih.trailing _)
  | number ht hv => exact .leaf rfl (.nil _)
  | string ht => exact .leaf rfl (.nil _)
  | bool ht => exact .leaf rfl (.nil _)
  | null ht => exact .leaf rfl (.nil _)
  | name hi => exact .leaf rfl (.nil _)
  | ifThen ht hc hy ihc ihy =>
    have hparts := ihc.append ihy
    exact .node rfl (.skip (by simpa [Phrase.tree, Tree.outline, Expr.outline] using hparts))
  | ifThenElse ht hc hy hw hn ihc ihy ihn =>
    exact .node rfl (.skip ((ihc.append ihy).append (.skip ihn)))
  | blockConsequence hb ih => exact ih
  | thenConsequence hw he ih => exact .skip ih
  | elseIf he ih => exact ih
  | elseBranch he ih => exact ih
  | blockBranch hb ih => exact ih
  | exprBranch he ih => exact ih
  | noExprs hc => exact .nil _
  | lastExpr he hc ih => exact ih.append (.nil _)
  | moreExprs he hc hx ihe ihx => exact ihe.append (.skip ihx)

private theorem Tokens.ofList_ahead_sublist (toks : List Token) :
    (ofList toks).ahead.Sublist toks := by
  rw [ofList_ahead]
  exact List.filter_sublist.trans (List.takeWhile_sublist _)

/-- A program begins where its first statement begins, if it has one. -/
theorem Program.pos_outline {P : Token → Prop} {p : Program} (h : Formed P (.body p.body)) :
    Stmt.outlines p.body = [] ∨
      ∃ ps, positionsIn (Stmt.outlines p.body) = (Node.program p).pos :: ps := by
  obtain ⟨body⟩ := p
  cases h with
  | noStatements => exact .inl rfl
  | moreStatements hs hb =>
    refine .inr ?_
    cases hs <;> simp [Stmt.outlines, Stmt.outline, positionsIn, Node.pos]

/-- The nodes that the walk through a program meets begin one behind the other, or at the same
place. -/
theorem walk_in_source_order {source : Bytes} {p : Program} (h : Program.parse source = .ok p) :
    (p.outline.labels.map Node.pos).Pairwise (· ≤ ·) := by
  obtain ⟨toks, htoks, hp⟩ := Program.parse_eq_ok.mp h
  have hordered := (Cursor.tokens_inOrder htoks).2.sublist (Tokens.ofList_ahead_sublist toks)
  have hderives := Tokens.parse_derives hp
  have hstart := Program.pos_outline (hderives.formed (P := fun _ => True) fun _ _ => trivial)
  rw [Program.labels_outline, List.map_cons]
  rcases hstart with hnone | ⟨ps, hps⟩
  · rw [hnone]
    exact List.pairwise_singleton _ _
  · have hwalk : Follows (positionsIn (Stmt.outlines p.body)) _ := hderives.walksAlong
    rw [hps] at hwalk
    rw [← positionsIn, hps]
    exact hwalk.again.inOrder hordered

/-- Names, literals of every kind, empty lists and blocks, a bare return, and parentheses around a
callee and a left operand, on several lines. -/
def Grammar.scatteredAtoms : Bytes :=
  "fn f(a, b) \x7b return \x7d // none\nlet x = (-1 + 'p\nq') |> f([], true)\n" ++
    "x = (|y|\n \x7b\x7d)(null); if x then 2.5 else \"\\n\""

theorem walk_in_source_order_scatteredAtoms :
    ∃ p, Program.parse scatteredAtoms = .ok p ∧
      (p.outline.labels.map Node.pos).Pairwise (· ≤ ·) := by
  obtain ⟨p, hp⟩ := eq_ok_of_isSome (x := Program.parse scatteredAtoms) (by decide +kernel)
  exact ⟨p, hp, walk_in_source_order hp⟩

end PipeCompiler
