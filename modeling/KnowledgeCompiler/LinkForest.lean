import Std.Data.TreeMap
import KnowledgeCompiler.Literal
import KnowledgeCompiler.SortedSet

/-! Disjoint classes of numbers that are linked step by step.

Each class is a tree of a forest, and its root, which stands for it, is its smallest number. A search for
a root halves the path that it takes.
-/

namespace KnowledgeCompiler

/-- A forest over the numbers below a size, with the parent of each number. A root is its own parent,
and no parent is above its child.
-/
structure LinkForest where
  /-- The parent of each number. -/
  parents : Array Nat
  /-- No parent is above its child. -/
  descending : ∀ node, parents.getD node node ≤ node

namespace LinkForest

/-- The parent of a number. A number outside of the forest is its own parent. -/
def parent (forest : LinkForest) (node : Nat) : Nat := forest.parents.getD node node

/-- The forest in which no two numbers are linked. -/
def singletons (size : Nat) : LinkForest where
  parents := Array.range size
  descending node := by
    rw [Array.getD_eq_getD_getElem?, Array.getElem?_range]
    split <;> simp

/-- Gives a number another parent that is not above it. -/
def redirect (forest : LinkForest) (node target : Nat) (below : target ≤ node) : LinkForest where
  parents := forest.parents.setIfInBounds node target
  descending other := by
    have kept := forest.descending other
    rw [Array.getD_eq_getD_getElem?] at kept ⊢
    rw [Array.getElem?_setIfInBounds]
    split
    · rename_i same
      split
      · exact same ▸ below
      · exact Nat.le_refl other
    · exact kept

/-- The root above a number, and the forest after the search: every second number on the way has its
grandparent as its parent.
-/
def find (forest : LinkForest) (node : Nat) : Nat × LinkForest :=
  if stays : forest.parent node = node then (node, forest)
  else
    let grandparent := forest.parent (forest.parent node)
    have lower : grandparent < node :=
      Nat.lt_of_le_of_lt (forest.descending _)
        (Nat.lt_of_le_of_ne (forest.descending node) stays)
    (forest.redirect node grandparent (Nat.le_of_lt lower)).find grandparent
termination_by node

/-- Links two numbers: the larger one of their roots goes below the smaller one. -/
def link (forest : LinkForest) (a b : Nat) : LinkForest :=
  let (first, forest) := forest.find a
  let (second, forest) := forest.find b
  if first = second then forest
  else
    forest.redirect (max first second) (min first second)
      (Nat.le_trans (Nat.min_le_left first second) (Nat.le_max_left first second))

/-- Links the first number with each of the others. -/
def linkAll (forest : LinkForest) : List Nat → LinkForest
  | [] => forest
  | first :: others => others.foldl (fun forest other => forest.link first other) forest

/-- Adds the name of a number to the group of its root. -/
def group (state : LinkForest × Std.TreeMap Nat (SortedSet Var)) (entry : Var × Nat)
    : LinkForest × Std.TreeMap Nat (SortedSet Var) :=
  let (root, forest) := state.1.find entry.2
  (forest, state.2.alter root fun found => some ((found.getD ∅).insert entry.1))

/-- The classes of the numbers, by ascending root, with the names of their members. -/
def groups (forest : LinkForest) (names : List Var) : List (SortedSet Var) :=
  (names.zipIdx.foldl group (forest, ∅)).2.toList.map Prod.snd

end LinkForest

end KnowledgeCompiler
