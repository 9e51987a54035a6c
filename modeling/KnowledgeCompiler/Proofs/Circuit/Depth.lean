import Mathlib.Data.Finset.Card
import Mathlib.Data.Finset.Range
import Mathlib.Logic.Relation
import Mathlib.Order.WellFounded
import KnowledgeCompiler.Proofs.Circuit.Meaning

/-! Circuits without cycles, and how deep they are.

In an acyclic circuit no node is below itself. A path from a node then visits each node once at most, so
the number of nodes bounds its length, and a walk down the circuit needs no more fuel.
-/

namespace KnowledgeCompiler.Circuit

open Relation

variable {c d : Circuit} {id : NodeId} {gate : Gate}

/-- A node is a child of another one. -/
def IsChild (c : Circuit) (child parent : NodeId) : Prop :=
  ∃ gate, c.gate? parent = some gate ∧ child ∈ gate.children

/-- No descending path is endless. -/
def Acyclic (c : Circuit) : Prop := WellFounded c.IsChild

theorem isChild_iff {child : NodeId} (found : c.gate? id = some gate)
    : c.IsChild child id ↔ child ∈ gate.children := by
  constructor
  · intro link
    obtain ⟨other, there, member⟩ := link
    obtain rfl := Option.some.inj (found.symm.trans there)
    exact member
  · exact fun member => ⟨gate, found, member⟩

theorem Acyclic.not_properlyBelow (acyclic : c.Acyclic) (id : NodeId)
    : ¬ TransGen c.IsChild id id :=
  acyclic.transGen.irrefl.irrefl id

theorem Acyclic.not_below (acyclic : c.Acyclic) {child : NodeId} (link : c.IsChild child id)
    : ¬ ReflTransGen c.IsChild id child := by
  intro back
  exact acyclic.not_properlyBelow id (TransGen.tail' back link)

/-- New children of one node close no cycle if the node is not below any of them. The nodes above it keep
their children, and those that are not above it never lead to it.
-/
theorem Acyclic.redirect (acyclic : c.Acyclic) (target : NodeId)
    (kept : ∀ child parent, parent ≠ target → d.IsChild child parent → c.IsChild child parent)
    (safe : ∀ child, d.IsChild child target → ¬ ReflTransGen c.IsChild target child)
    : d.Acyclic := by
  have apart : ∀ id, ¬ ReflTransGen c.IsChild target id → Acc d.IsChild id := by
    intro id
    induction id using acyclic.induction with
    | _ id ih =>
        intro away
        refine ⟨id, fun child link => ?_⟩
        have differ : id ≠ target := fun same => away (same ▸ .refl)
        have old := kept child id differ link
        exact ih child old fun path => away (path.tail old)
  have here : Acc d.IsChild target := ⟨target, fun child link => apart child (safe child link)⟩
  refine ⟨fun id => ?_⟩
  induction id using acyclic.induction with
  | _ id ih =>
      by_cases same : id = target
      · exact same ▸ here
      · exact ⟨id, fun child link => ih child (kept child id same link)⟩

-----------------------------------------------------------------------------------------
-- Depth
-----------------------------------------------------------------------------------------

/-- A path down from a node visits fewer nodes than the bound, the node itself not counted. -/
def Within (c : Circuit) : Nat → NodeId → Prop
  | 0, _ => False
  | bound + 1, id => ∀ child, c.IsChild child id → c.Within bound child

theorem Within.mono {few more : Nat} (within : c.Within few id) (le : few ≤ more)
    : c.Within more id := by
  induction more generalizing few id with
  | zero => exact Nat.le_zero.mp le ▸ within
  | succ more ih =>
      cases few with
      | zero => exact within.elim
      | succ few => exact fun child link => ih (within child link) (Nat.le_of_succ_le_succ le)

theorem Extends.isChild_iff (grown : c.Extends d) (present : id < c.nodes.size) {child : NodeId}
    : d.IsChild child id ↔ c.IsChild child id := by
  unfold IsChild
  rw [grown.gate?_eq present]

/-- What lies below a node does not change while the circuit grows. -/
theorem Within.grow {bound : Nat} (within : c.Within bound id) (grown : c.Extends d)
    (closed : c.Closed) (present : id < c.nodes.size)
    : d.Within bound id := by
  induction bound generalizing id with
  | zero => exact within
  | succ bound ih =>
      intro child link
      rw [grown.isChild_iff present] at link
      obtain ⟨gate, found, member⟩ := link
      exact ih (within child ⟨gate, found, member⟩) (closed found child member)

open Classical in
/-- The nodes properly below a node. -/
noncomputable def properlyBelow (c : Circuit) (id : NodeId) : Finset NodeId :=
  (Finset.range c.nodes.size).filter fun other => TransGen c.IsChild other id

theorem mem_properlyBelow {other : NodeId}
    : other ∈ c.properlyBelow id ↔ other < c.nodes.size ∧ TransGen c.IsChild other id := by
  simp [properlyBelow]

/-- A child has fewer nodes below it than its parent: the child itself is not one of them. -/
theorem Acyclic.card_lt (acyclic : c.Acyclic) (closed : c.Closed) {child : NodeId}
    (link : c.IsChild child id)
    : (c.properlyBelow child).card < (c.properlyBelow id).card := by
  refine Finset.card_lt_card (Finset.ssubset_iff_of_subset ?_ |>.mpr ⟨child, ?_, ?_⟩)
  · intro other inside
    rw [mem_properlyBelow] at inside ⊢
    exact ⟨inside.1, inside.2.tail link⟩
  · obtain ⟨gate, found, member⟩ := link
    rw [mem_properlyBelow]
    exact ⟨closed found child member, .single ⟨gate, found, member⟩⟩
  · rw [mem_properlyBelow]
    exact fun below => acyclic.not_properlyBelow child below.2

/-- The number of nodes bounds the depth of an acyclic circuit. -/
theorem Acyclic.within (acyclic : c.Acyclic) (closed : c.Closed) (present : id < c.nodes.size)
    : c.Within c.nodes.size id := by
  have bounded : ∀ (bound : Nat) (id : NodeId), (c.properlyBelow id).card < bound
      → c.Within bound id := by
    intro bound
    induction bound with
    | zero => exact fun id none_ => absurd none_ (Nat.not_lt_zero _)
    | succ bound ih =>
        intro id few child link
        exact ih child (Nat.lt_of_lt_of_le (acyclic.card_lt closed link) (Nat.le_of_lt_succ few))
  refine bounded _ id ?_
  have proper : c.properlyBelow id ⊂ Finset.range c.nodes.size := by
    refine Finset.ssubset_iff_of_subset (fun other inside => ?_) |>.mpr ⟨id, ?_, ?_⟩
    · exact Finset.mem_range.mpr (mem_properlyBelow.mp inside).1
    · exact Finset.mem_range.mpr present
    · rw [mem_properlyBelow]
      exact fun below => acyclic.not_properlyBelow id below.2
  simpa using Finset.card_lt_card proper

end KnowledgeCompiler.Circuit
