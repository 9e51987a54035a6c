import Mathlib.Order.Lattice
import Mathlib.Order.MinMax

/-! Roots above numbers, and what another parent does to them.

What a forest says is the root above each number. It stays as it is when a search gives numbers other parents within
their class, and a root that goes below a smaller root takes its class along. So two numbers have the same root
exactly if they are tied by the links made so far: each equivalence that has the links holds between a number and
its root, and linked numbers stay together.
-/

namespace KnowledgeCompiler

-----------------------------------------------------------------------------------------
-- Roots
-----------------------------------------------------------------------------------------

/-- What leads from each number to its root: parents, none of which is above its child. -/
structure Roots (parent root : Nat → Nat) : Prop where
  below : ∀ node, parent node ≤ node
  top : ∀ {node}, parent node = node → root node = node
  climb : ∀ node, root (parent node) = root node

namespace Roots

variable {parent root parent' root' : Nat → Nat} {a b : Nat}

/-- Induction from the roots down: what holds of the roots, and of a number if it holds of its parent. -/
theorem induction {holds : Nat → Prop} (roots : Roots parent root)
    (start : ∀ node, parent node = node → holds node)
    (step : ∀ node, parent node < node → holds (parent node) → holds node) (node : Nat)
    : holds node := by
  induction node using Nat.strongRecOn with
  | ind node ih =>
      by_cases stays : parent node = node
      · exact start node stays
      · have lower : parent node < node := Nat.lt_of_le_of_ne (roots.below node) stays
        exact step node lower (ih _ lower)

/-- No root is above a number of its class. -/
theorem le (roots : Roots parent root) (node : Nat) : root node ≤ node := by
  induction node using roots.induction with
  | start node stays => exact Nat.le_of_eq (roots.top stays)
  | step node lower ih =>
      rw [← roots.climb]
      exact Nat.le_trans ih (Nat.le_of_lt lower)

/-- A root is its own parent. -/
theorem parent_root (roots : Roots parent root) (node : Nat) : parent (root node) = root node := by
  induction node using roots.induction with
  | start node stays => rwa [roots.top stays]
  | step node lower ih => rwa [← roots.climb]

theorem root_root (roots : Roots parent root) (node : Nat) : root (root node) = root node :=
  roots.top (roots.parent_root node)

/-- Parents within the classes lead to the same roots, if they make no other number a root. -/
theorem eq_of_within (roots : Roots parent root) (roots' : Roots parent' root')
    (tops : ∀ node, parent' node = node → parent node = node)
    (within : ∀ node, root (parent' node) = root node)
    : root' = root := by
  funext node
  induction node using roots'.induction with
  | start node stays => rw [roots'.top stays, roots.top (tops node stays)]
  | step node lower ih => rw [← roots'.climb, ih, within]

/-- A root that goes below a smaller root takes its class along. -/
theorem root_of_lowered (roots : Roots parent root) (roots' : Roots parent' root') {old new : Nat}
    (lower : new < old) (top : parent old = old) (top' : parent new = new)
    (moved : ∀ node, parent' node = if node = old then new else parent node) (node : Nat)
    : root' node = if root node = old then new else root node := by
  induction node using roots'.induction with
  | start node stays =>
      have kept : node ≠ old := by
        rintro rfl
        rw [moved, if_pos rfl] at stays
        omega
      have stays' : parent node = node := by rwa [moved, if_neg kept] at stays
      rw [roots'.top stays, roots.top stays', if_neg kept]
  | step node _ ih =>
      rw [← roots'.climb, ih, moved]
      by_cases here : node = old
      · subst here
        rw [if_pos rfl, roots.top top', roots.top top, if_neg (Nat.ne_of_lt lower), if_pos rfl]
      · rw [if_neg here, roots.climb]

end Roots

-----------------------------------------------------------------------------------------
-- Joined classes
-----------------------------------------------------------------------------------------

variable {parent root parent' root' : Nat → Nat} {a b : Nat}

/-- The classes of two numbers get the smaller one of their roots, and no other root changes. -/
def Joins (a b : Nat) (before after : Nat → Nat) : Prop :=
  ∀ node, after node
    = if before node = before a ∨ before node = before b then min (before a) (before b) else before node

/-- Numbers of one class are joined already. -/
theorem Joins.refl (same : root a = root b) : Joins a b root root := by
  intro node
  simp only [same, or_self, Nat.min_self]
  split
  · assumption
  · rfl

/-- The larger one of two roots goes below the smaller one. -/
theorem Roots.joins (roots : Roots parent root) (roots' : Roots parent' root') (apart : root a ≠ root b)
    (moved : ∀ node, parent' node
      = if node = max (root a) (root b) then min (root a) (root b) else parent node)
    : Joins a b root root' := by
  have top := roots.parent_root a
  have top' := roots.parent_root b
  intro node
  rcases Nat.lt_or_gt_of_ne apart with below | above
  · rw [max_eq_right (Nat.le_of_lt below), min_eq_left (Nat.le_of_lt below)] at moved
    rw [min_eq_left (Nat.le_of_lt below), roots.root_of_lowered roots' below top' top moved]
    grind
  · rw [max_eq_left (Nat.le_of_lt above), min_eq_right (Nat.le_of_lt above)] at moved
    rw [min_eq_right (Nat.le_of_lt above), roots.root_of_lowered roots' above top top' moved]
    grind

-----------------------------------------------------------------------------------------
-- Ties
-----------------------------------------------------------------------------------------

/-- What linking some pairs does: they are together then, those that were together stay so, and an equivalence of
the pairs that held between numbers and their roots still does.
-/
structure Ties (pairs : Nat → Nat → Prop) (before after : Nat → Nat) : Prop where
  together : ∀ {a b}, before a = before b → after a = after b
  joined : ∀ {a b}, pairs a b → after a = after b
  respects
    : ∀ {tied : Nat → Nat → Prop}, Equivalence tied → (∀ node, tied node (before node))
      → (∀ {a b}, pairs a b → tied a b) → ∀ node, tied node (after node)

namespace Ties

variable {first second : Nat → Nat → Prop} {before middle after : Nat → Nat}

theorem refl (root : Nat → Nat) : Ties (fun _ _ => False) root root :=
  ⟨id, False.elim, fun _ holds _ => holds⟩

theorem trans (left : Ties first before middle) (right : Ties second middle after)
    : Ties (fun x y => first x y ∨ second x y) before after where
  together := right.together ∘ left.together
  joined := by
    rintro x y (early | late)
    · exact right.together (left.joined early)
    · exact right.joined late
  respects equivalence holds links :=
    right.respects equivalence (left.respects equivalence holds (links ∘ .inl)) (links ∘ .inr)

/-- The same ties under another description of the pairs. -/
theorem congr (ties : Ties first before after) (same : ∀ {x y}, first x y ↔ second x y)
    : Ties second before after where
  together := ties.together
  joined := ties.joined ∘ same.mpr
  respects equivalence holds links := ties.respects equivalence holds (links ∘ same.mp)

/-- Numbers that have the same root since pairs have been linked are related by every equivalence of the pairs. -/
theorem related {pairs tied : Nat → Nat → Prop} (ties : Ties pairs id root) (equivalence : Equivalence tied)
    (links : ∀ {x y}, pairs x y → tied x y) (same : root a = root b)
    : tied a b := by
  have holds := ties.respects equivalence equivalence.refl links
  exact equivalence.trans (holds a) (equivalence.symm (same ▸ holds b))

end Ties

/-- Joining the classes of two numbers ties them. -/
theorem Joins.ties (joins : Joins a b root root') : Ties (fun x y => x = a ∧ y = b) root root' := by
  refine ⟨fun {x y} same => ?_, ?_, fun {tied} equivalence holds links node => ?_⟩
  · rw [joins, joins, same]
  · rintro x y ⟨rfl, rfl⟩
    rw [joins, joins, if_pos (.inl rfl), if_pos (.inr rfl)]
  · have linked : tied a b := links ⟨rfl, rfl⟩
    rw [joins]
    split
    · rename_i either
      have start : tied node a := by
        rcases either with same | same
        · exact equivalence.trans (same ▸ holds node) (equivalence.symm (holds a))
        · exact equivalence.trans (equivalence.trans (same ▸ holds node)
            (equivalence.symm (holds b))) (equivalence.symm linked)
      rcases min_choice (root a) (root b) with least | least
      · rw [least]
        exact equivalence.trans start (holds a)
      · rw [least]
        exact equivalence.trans start (equivalence.trans linked (holds b))
    · exact holds node

end KnowledgeCompiler
