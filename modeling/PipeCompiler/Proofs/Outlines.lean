import Mathlib.Data.List.Sort
import PipeCompiler.Lowering
import PipeCompiler.Proofs.Formation

/-! The nodes of a tree.

The walk through a program visits the nodes of its parts one after the other. `labelsAll` lists
these nodes for any row of trees, and `calledIn` the names that they call functions by; both add up
over the parts. -/
namespace PipeCompiler

private theorem nodup_eraseDups {α : Type} [BEq α] [LawfulBEq α] (xs : List α) :
    xs.eraseDups.Nodup := by
  cases xs with
  | nil => exact .nil
  | cons x xs =>
    rw [List.eraseDups_cons, List.nodup_cons]
    exact ⟨by simp, nodup_eraseDups _⟩
termination_by xs.length
decreasing_by exact Nat.lt_succ_of_le (List.length_filter_le ..)

namespace Outline

variable {α : Type}

theorem visitAll_append (enter : α → Bool) (ts us : List (Outline α)) :
    visitAll enter (ts ++ us) = visitAll enter ts ++ visitAll enter us := by
  induction ts with
  | nil => rfl
  | cons t ts ih => rw [List.cons_append, visitAll, visitAll, ih, List.append_assoc]

/-- The labels of all nodes of some trees, each before those below it. -/
def labelsAll (ts : List (Outline α)) : List α :=
  (visitAll (fun _ => true) ts).map Prod.fst

@[simp] theorem labelsAll_nil : labelsAll ([] : List (Outline α)) = [] := rfl

@[simp] theorem labelsAll_cons (label : α) (children ts : List (Outline α)) :
    labelsAll (.node label children :: ts) = label :: (labelsAll children ++ labelsAll ts) := by
  simp [labelsAll, visitAll, visit]

@[simp] theorem labelsAll_append (ts us : List (Outline α)) :
    labelsAll (ts ++ us) = labelsAll ts ++ labelsAll us := by
  rw [labelsAll, visitAll_append, List.map_append]
  rfl

private theorem labels_node (label : α) (children : List (Outline α)) :
    (node label children).labels = label :: labelsAll children := by
  simp [labels, labelsAll, visit]

end Outline

@[simp] theorem labelsAll_names (ns : List Name) :
    Outline.labelsAll (ns.map Name.outline) = ns.map fun n => .expr (.name n) := by
  induction ns with
  | nil => rfl
  | cons n ns ih => simpa [Name.outline] using ih

/-- The names that the nodes of some trees call functions by. -/
def calledIn (ts : List (Outline Node)) : List Bytes :=
  (Outline.labelsAll ts).filterMap Program.calledName?

@[simp] theorem calledIn_nil : calledIn [] = [] := rfl

@[simp] theorem calledIn_cons (label : Node) (children ts : List (Outline Node)) :
    calledIn (.node label children :: ts) =
      (Program.calledName? label).toList ++ (calledIn children ++ calledIn ts) := by
  cases h : Program.calledName? label <;> simp [calledIn, h]

@[simp] theorem calledIn_append (ts us : List (Outline Node)) :
    calledIn (ts ++ us) = calledIn ts ++ calledIn us := by
  simp [calledIn]

@[simp] theorem calledIn_names (ns : List Name) : calledIn (ns.map Name.outline) = [] := by
  rw [calledIn, labelsAll_names, List.filterMap_map]
  exact List.filterMap_eq_nil_iff.mpr fun n _ => rfl

namespace Program

theorem labels_outline (p : Program) :
    p.outline.labels = .program p :: Outline.labelsAll (Stmt.outlines p.body) :=
  Outline.labels_node _ _

/-- The library names that a program calls, in the order of the library. -/
theorem libraryCalls_eq (p : Program) :
    p.libraryCalls = Library.names.filter (calledIn (Stmt.outlines p.body)).contains := by
  have hordered : Library.names.Pairwise (· < ·) := by decide
  have hcalled : p.outline.labels.filterMap calledName? = calledIn (Stmt.outlines p.body) := by
    rw [labels_outline]
    rfl
  rw [libraryCalls, hcalled]
  generalize calledIn (Stmt.outlines p.body) = called
  -- Both lists are sorted and have the same names, each of them once.
  have hsorted : ((called.filter Library.isName).eraseDups.mergeSort
      fun a b => decide (a ≤ b)).Pairwise (· ≤ ·) := by
    refine (List.pairwise_mergeSort ?_ ?_ _).imp of_decide_eq_true
    · exact fun a b c hab hbc =>
        decide_eq_true (List.le_trans (of_decide_eq_true hab) (of_decide_eq_true hbc))
    · exact fun a b => by simpa using List.le_total a b
  have hnodup : Library.names.Nodup := by decide
  have hperm : (called.filter Library.isName).eraseDups.Perm
      (Library.names.filter called.contains) := by
    rw [List.perm_ext_iff_of_nodup (nodup_eraseDups _) (hnodup.filter _)]
    intro name
    rw [List.mem_eraseDups, List.mem_filter, List.mem_filter, List.contains_iff_mem, and_comm]
    simp [Library.isName]
  exact ((List.mergeSort_perm _ _).trans hperm).eq_of_pairwise' hsorted
    ((hordered.imp List.le_of_lt).filter _)

end Program

/-- The trees of a part of a program. -/
def Grammar.Tree.outline : Tree → List (Outline Node)
  | .stmt s => s.outline
  | .body stmts => Stmt.outlines stmts
  | .expr e => e.outline
  | .exprs es => Expr.outlines es

end PipeCompiler
