import Mathlib.Data.List.Basic
import PipeCompiler.Proofs.Outlines

/-! Walks that leave nodes unopened.

A walk goes below a node only where it is asked to. Which nodes are below which is told by the parts
of a node; the way down to a node, part by part, is its address, and it tells nodes apart that look
the same. Of all nodes, a walk that leaves some unopened meets exactly those with none of these
above them, in order, until it is to open the missing body of a loop, where it breaks off. -/
namespace PipeCompiler

/-- The node of a statement, if it is not missing. -/
def Stmt.nodes : Stmt → List Node
  | .missing => []
  | s => [.stmt s]

/-- The node of an expression, if it is not missing. -/
def Expr.nodes : Expr → List Node
  | .missing => []
  | e => [.expr e]

def Name.node (n : Name) : Node :=
  .expr (.name n)

def Body.node : Body → Node
  | .missing => .missingBody
  | .block brace stmts => .expr (.block brace stmts)

def Stmt.parts : Stmt → List Node
  | .missing => []
  | .declare _ _ name value | .assign _ name value => name.node :: value.nodes
  | .function _ name params body _ => name.node :: params.map Name.node ++ body.nodes
  | .ret _ value | .expr _ value => value.nodes
  | .whileLoop _ test body => test.nodes ++ [body.node]
  | .forLoop _ item items body => item.node :: items.nodes ++ [body.node]

def Expr.parts : Expr → List Node
  | .cond _ test consequence alternative => test.nodes ++ consequence.nodes ++ alternative.nodes
  | .block _ body => body.flatMap Stmt.nodes
  | .binary _ left _ right | .pipe _ left right => left.nodes ++ right.nodes
  | .unary _ _ operand => operand.nodes
  | .call _ callee args => callee.nodes ++ args.flatMap Expr.nodes
  | .lambda _ params body => params.map Name.node ++ body.nodes
  | .array _ items => items.flatMap Expr.nodes
  | .missing | .name _ | .number .. | .string .. | .bool .. | .null _ => []

namespace Node

/-- The nodes directly below a node, in the order of the source text. -/
def parts : Node → List Node
  | program p => p.body.flatMap Stmt.nodes
  | stmt s => s.parts
  | expr e => e.parts
  | missingBody => []

/-- The hole in a tree where a statement or an expression should be; no walk meets it. -/
def isMissing : Node → Bool
  | stmt .missing | expr .missing => true
  | _ => false

/-- The node at an address, which says which part to go down to, from the root on. -/
def at? (root : Node) (address : List Nat) : Option Node :=
  address.foldlM (fun n i => n.parts[i]?) root

end Node

/-- A node and where it is in a tree. -/
structure Occurrence where
  address : List Nat
  node : Node

namespace Outline

mutual

/-- The tree with the address of each node, where that of its root is known. -/
def locate : List Nat → Outline Node → Outline Occurrence
  | address, .node n children => .node ⟨address, n⟩ (locateFrom address 0 children)

/-- Trees below an address, the first of them as the part of the given number. -/
def locateFrom : List Nat → Nat → List (Outline Node) → List (Outline Occurrence)
  | _, _, [] => []
  | address, i, t :: ts => locate (address ++ [i]) t :: locateFrom address (i + 1) ts

end

end Outline

namespace Node

/-- The nodes that are properly above an address, from the root down. -/
def above (root : Node) (address : List Nat) : List Occurrence :=
  (List.range address.length).filterMap fun k =>
    (root.at? (address.take k)).map fun n => ⟨address.take k, n⟩

end Node

namespace Outline

/-- At every node of the tree, the children are the parts of the node. -/
inductive ShowsParts : Outline Node → Prop
  | node {n : Node} {children : List (Outline Node)} (hparts : children.map label = n.parts)
      (hbelow : ∀ t ∈ children, ShowsParts t) : ShowsParts (.node n children)

/-- The trees have these roots and show the parts of every node. -/
structure Show (ts : List (Outline Node)) (ns : List Node) : Prop where
  labels : ts.map label = ns
  below : ∀ t ∈ ts, ShowsParts t

namespace Show

variable {t : Outline Node} {ts us : List (Outline Node)} {n : Node} {ns ms : List Node}

theorem nil : Show [] [] := ⟨rfl, by simp⟩

theorem node (h : Show ts n.parts) : Show [.node n ts] [n] :=
  ⟨rfl, by simpa using ShowsParts.node h.labels h.below⟩

theorem append (h : Show ts ns) (h' : Show us ms) : Show (ts ++ us) (ns ++ ms) :=
  ⟨by rw [List.map_append, h.labels, h'.labels], List.forall_mem_append.mpr ⟨h.below, h'.below⟩⟩

theorem cons (h : Show [t] [n]) (h' : Show ts ns) : Show (t :: ts) (n :: ns) :=
  append h h'

end Show

end Outline

open Outline (Show)

theorem Name.outline_shows (n : Name) : Show [n.outline] [n.node] :=
  .node .nil

theorem Name.outlines_show (ns : List Name) : Show (ns.map Name.outline) (ns.map Name.node) := by
  induction ns with
  | nil => exact .nil
  | cons n ns ih => exact .cons n.outline_shows ih

mutual

theorem Stmt.outline_shows (s : Stmt) : Show s.outline s.nodes := by
  cases s with
  | missing => exact .nil
  | declare tok constant name value => exact .node (.cons name.outline_shows value.outline_shows)
  | function tok name params body concise =>
    exact .node (.cons name.outline_shows (.append (Name.outlines_show params) body.outline_shows))
  | assign tok name value => exact .node (.cons name.outline_shows value.outline_shows)
  | ret tok value => exact .node value.outline_shows
  | whileLoop tok test body => exact .node (.append test.outline_shows body.outline_shows)
  | forLoop tok item items body =>
    exact .node (.cons item.outline_shows (.append items.outline_shows body.outline_shows))
  | expr tok value => exact .node value.outline_shows

theorem Body.outline_shows (b : Body) : Show [b.outline] [b.node] := by
  cases b with
  | missing => exact .node .nil
  | block brace stmts => exact .node (Stmt.outlines_show stmts)

theorem Expr.outline_shows (e : Expr) : Show e.outline e.nodes := by
  cases e with
  | missing => exact .nil
  | cond tok test consequence alternative =>
    exact .node (.append (.append test.outline_shows consequence.outline_shows)
      alternative.outline_shows)
  | block brace body => exact .node (Stmt.outlines_show body)
  | binary tok left op right => exact .node (.append left.outline_shows right.outline_shows)
  | unary tok op operand => exact .node operand.outline_shows
  | pipe tok left target => exact .node (.append left.outline_shows target.outline_shows)
  | call tok callee args => exact .node (.append callee.outline_shows (Expr.outlines_show args))
  | lambda tok params body =>
    exact .node (.append (Name.outlines_show params) body.outline_shows)
  | array tok items => exact .node (Expr.outlines_show items)
  | name | number | string | bool | null => exact .node .nil

theorem Stmt.outlines_show (body : List Stmt) :
    Show (Stmt.outlines body) (body.flatMap Stmt.nodes) := by
  cases body with
  | nil => exact .nil
  | cons s body => exact .append s.outline_shows (Stmt.outlines_show body)

theorem Expr.outlines_show (es : List Expr) :
    Show (Expr.outlines es) (es.flatMap Expr.nodes) := by
  cases es with
  | nil => exact .nil
  | cons e es => exact .append e.outline_shows (Expr.outlines_show es)

end

namespace Node

theorem outlines_show (root : Node) :
    Show root.outlines (if root.isMissing then [] else [root]) := by
  cases root with
  | program p => exact .node (Stmt.outlines_show p.body)
  | stmt s =>
    have hs : s.nodes = if (stmt s).isMissing then [] else [stmt s] := by cases s <;> rfl
    exact hs ▸ s.outline_shows
  | expr e =>
    have he : e.nodes = if (expr e).isMissing then [] else [expr e] := by cases e <;> rfl
    exact he ▸ e.outline_shows
  | missingBody => exact Body.missing.outline_shows

variable {root n : Node} {address : List Nat}

end Node

namespace Outline

variable {address : List Nat}

private theorem length_locateFrom (address : List Nat) (i : Nat) (ts : List (Outline Node)) :
    (locateFrom address i ts).length = ts.length := by
  induction ts generalizing i with
  | nil => rfl
  | cons t ts ih => simp only [locateFrom, List.length_cons, ih]

mutual

/-- A walk that does not look at addresses is the same with and without them. -/
theorem visit_locate (enter : Node → Bool) (address : List Nat) (t : Outline Node) :
    ((locate address t).visit fun x => enter x.node).map (fun v => (v.1.node, v.2)) =
      t.visit enter := by
  cases t with
  | node n children =>
    rw [locate, visit, visit, List.map_cons, length_locateFrom]
    cases enter n with
    | false => rfl
    | true => exact congrArg _ (visitAll_locateFrom enter address 0 children)

theorem visitAll_locateFrom (enter : Node → Bool) (address : List Nat) (i : Nat)
    (ts : List (Outline Node)) :
    (visitAll (fun x => enter x.node) (locateFrom address i ts)).map
      (fun v => (v.1.node, v.2)) = visitAll enter ts := by
  cases ts with
  | nil => rfl
  | cons t ts =>
    rw [locateFrom, visitAll, visitAll, List.map_append, visit_locate enter _ t,
      visitAll_locateFrom enter address (i + 1) ts]

end

end Outline

namespace Node

variable {root : Node}

end Node

end PipeCompiler
