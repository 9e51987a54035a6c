import Std.Data.TreeMap
import KnowledgeCompiler.Literal

/-! Classes of variables that are linked pair by pair.

Each class is a tree of a forest, and its root, which stands for it, is its smallest variable. A variable enters
the forest when its root is looked up, and the root becomes its parent.
-/

namespace KnowledgeCompiler

/-- A forest over the variables that have been looked up, with the parent of each. A root is its own parent, and
no parent is above its child.
-/
structure VariableForest where
  /-- The parent of each variable. -/
  parents : Std.TreeMap Var Var
  /-- No parent is above its child. -/
  descending : ∀ v, parents.getD v v ≤ v

namespace VariableForest

/-- The parent of a variable. A variable that has not been looked up is its own parent. -/
def parent (forest : VariableForest) (v : Var) : Var := forest.parents.getD v v

/-- The forest without variables. -/
def empty : VariableForest where
  parents := ∅
  descending _ := Nat.le_of_eq Std.TreeMap.getD_emptyc

/-- Gives a variable another parent that is not above it. -/
def redirect (forest : VariableForest) (v target : Var) (below : target ≤ v) : VariableForest where
  parents := forest.parents.insert v target
  descending other := by
    rw [Std.TreeMap.getD_insert]
    split
    · rename_i same
      exact Nat.compare_eq_eq.mp same ▸ below
    · exact forest.descending other

/-- The root above a variable. -/
def root (forest : VariableForest) (v : Var) : Var :=
  if stays : forest.parent v = v then v
  else
    have : forest.parent v < v := Nat.lt_of_le_of_ne (forest.descending v) stays
    forest.root (forest.parent v)
termination_by v

/-- No root is above a variable of its class; induction along the search. -/
theorem root_le (forest : VariableForest) (v : Var) : forest.root v ≤ v := by
  fun_induction root forest v with
  | case1 v stays => exact Nat.le_refl v
  | case2 v stays lower ih => exact Nat.le_trans ih (Nat.le_of_lt lower)

/-- The root above a variable, and the forest in which it is the parent of the variable. -/
def find (forest : VariableForest) (v : Var) : Var × VariableForest :=
  (forest.root v, forest.redirect v (forest.root v) (forest.root_le v))

/-- Links two variables: the larger one of their roots goes below the smaller one. -/
def link (forest : VariableForest) (a b : Var) : VariableForest :=
  let (first, forest) := forest.find a
  let (second, forest) := forest.find b
  if first = second then forest
  else
    forest.redirect (max first second) (min first second)
      (Nat.le_trans (Nat.min_le_left first second) (Nat.le_max_left first second))

/-- The forest in which the variables of some pairs are linked, pair by pair. -/
def ofPairs (pairs : List (Var × Var)) : VariableForest :=
  pairs.foldl (fun forest pair => forest.link pair.1 pair.2) empty

/-- Enters a variable with its root into a table. -/
def enterRoot (state : VariableForest × Std.TreeMap Var Var) (v : Var)
    : VariableForest × Std.TreeMap Var Var :=
  let (root, forest) := state.1.find v
  (forest, state.2.insert v root)

/-- The roots of some variables, which are looked up one after the other. -/
def rootTable (forest : VariableForest) (vars : List Var) : Std.TreeMap Var Var :=
  (vars.foldl enterRoot (forest, ∅)).2

end VariableForest

end KnowledgeCompiler
