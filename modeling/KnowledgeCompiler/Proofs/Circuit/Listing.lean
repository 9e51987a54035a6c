import KnowledgeCompiler.Proofs.Circuit.Closure
import KnowledgeCompiler.Proofs.Circuit.Stages

/-! The nodes below a root in bottom-up order, and their positions.

Each node below the root has one position, that of a child is smaller than that of its parents, and the root is last.
A node whose children have small positions does not come after a node whose children do not.
-/

namespace KnowledgeCompiler.Circuit

open Relation

variable {c : Circuit} {root id child : NodeId} {order : List NodeId} {i j : Nat}

/-- The node at the position of a node. -/
theorem getElem?_idxOf (member : id ∈ order) : order[order.idxOf id]? = some id := by
  have bound := List.idxOf_lt_length_iff.mpr member
  rw [List.getElem?_eq_getElem bound, List.getElem_idxOf]

/-- The first ones of a list are those with small positions. -/
theorem mem_take_iff (member : id ∈ order) : id ∈ order.take i ↔ order.idxOf id < i := by
  constructor
  · intro early
    have whole := List.take_append_drop i order
    calc
      order.idxOf id
      _ = (order.take i).idxOf id := by
        conv => lhs; rw [← whole]
        exact List.idxOf_append_of_mem early
      _ < (order.take i).length := List.idxOf_lt_length_iff.mpr early
      _ ≤ i := List.length_take_le i order
  · intro early
    have there := getElem?_idxOf member
    rw [← List.getElem?_take_of_lt early] at there
    exact List.mem_of_getElem? there

/-- The list holds the nodes below a root, each once, and children before their parents. -/
structure Lists (c : Circuit) (root : NodeId) (order : List NodeId) : Prop where
  members : ∀ {id}, id ∈ order ↔ ReflTransGen c.IsChild id root
  nodup : order.Nodup
  earlier : ∀ {i id child}, order[i]? = some id → c.IsChild child id → child ∈ order.take i

/-- Children that come first are among what comes before a node; induction on the list. -/
theorem ChildrenFirst.mem_take {ids : SortedSet NodeId} {done : List NodeId} (first : c.ChildrenFirst ids done order)
    (there : order[i]? = some id) (link : c.IsChild child id) (inside : child ∈ ids)
    : child ∈ done ∨ child ∈ order.take i := by
  induction order generalizing done i with
  | nil => cases there
  | cons head rest ih =>
      cases i with
      | zero =>
          obtain rfl := Option.some.inj there
          exact .inl (first.1 child link inside)
      | succ i =>
          rw [List.take_succ_cons, List.mem_cons]
          have before := ih first.2 there
          rw [List.mem_cons] at before
          tauto

/-- The bottom-up order of the nodes below a root. -/
theorem Wired.lists (wired : c.Wired) (present : root < c.nodes.size)
    : c.Lists root (c.bottomUp (c.dominated root)) := by
  have below {id : NodeId} : id ∈ c.dominated root ↔ ReflTransGen c.IsChild id root := wired.mem_dominated_iff present
  have inside : ∀ id, id ∈ c.dominated root → id < c.nodes.size := (@closure_spec c root Node.children present).2.1
  obtain ⟨members, nodup, first⟩ := wired.bottomUp inside
  refine ⟨fun {id} => (members id).trans below, nodup, fun {i id child} there link => ?_⟩
  have listed : id ∈ c.bottomUp (c.dominated root) := List.mem_of_getElem? there
  have under : child ∈ c.dominated root := below.mpr (.head link (below.mp ((members id).mp listed)))
  exact (first.mem_take there link under).resolve_left List.not_mem_nil

namespace Lists

variable (lists : c.Lists root order)

include lists

theorem child_mem (member : id ∈ order) (link : c.IsChild child id) : child ∈ order :=
  lists.members.mpr (.head link (lists.members.mp member))

theorem present (closed : c.Closed) (present : root < c.nodes.size) (member : id ∈ order) : id < c.nodes.size := by
  rcases ReflTransGen.cases_head (lists.members.mp member) with same | ⟨parent, ⟨gate, found, listed⟩, _⟩
  · exact same ▸ present
  · exact closed found id listed

/-- The position of a node. -/
theorem idxOf_eq (there : order[i]? = some id) : order.idxOf id = i := by
  obtain ⟨bound, rfl⟩ := List.getElem?_eq_some_iff.mp there
  exact lists.nodup.idxOf_getElem i bound

/-- A child has a smaller position. -/
theorem idxOf_child_lt (there : order[i]? = some id) (link : c.IsChild child id) : order.idxOf child < i :=
  (mem_take_iff (lists.child_mem (List.mem_of_getElem? there) link)).mp (lists.earlier there link)

/-- The root is the last node, since each other one comes before a parent. -/
theorem last : order.getLast? = some root := by
  have some_ : order ≠ [] := List.ne_nil_of_mem (lists.members.mpr .refl)
  have there : order[order.length - 1]? = some (order.getLast some_) := by
    rw [← List.getLast?_eq_getElem?, List.getLast?_eq_some_getLast some_]
  rw [List.getLast?_eq_some_getLast some_]
  rcases ReflTransGen.cases_head (lists.members.mp (List.getLast_mem some_)) with same | ⟨parent, link, above⟩
  · rw [same]
  · have member := lists.members.mpr above
    have later := lists.idxOf_child_lt (getElem?_idxOf member) link
    have bound := List.idxOf_lt_length_iff.mpr member
    rw [lists.idxOf_eq there] at later
    omega

theorem idxOf_root : order.idxOf root = order.length - 1 := by
  have last := lists.last
  rw [List.getLast?_eq_getElem?] at last
  exact lists.idxOf_eq last

end Lists

/-- Different nodes have different positions. -/
theorem nodup_positions {children : List NodeId} (nodup : children.Nodup) (members : ∀ child ∈ children, child ∈ order)
    : (children.map (order.idxOf ·)).Nodup :=
  nodup.map_on fun a inside _ _ same => (List.idxOf_inj (members a inside)).mp same

/-- In the bottom-up order, a node whose children have positions below some bound does not come after one whose
children have not.
-/
theorem Wired.positions_staged (wired : c.Wired) (present : root < c.nodes.size) {first second : NodeId} {reach : Nat}
    (same : order = c.bottomUp (c.dominated root)) (here : order[i]? = some first) (there : order[j]? = some second)
    (le : i ≤ j) (early : ∀ child, c.IsChild child second → order.idxOf child < reach)
    : ∀ child, c.IsChild child first → order.idxOf child < reach := by
  have lists : c.Lists root order := same ▸ wired.lists present
  have below {id : NodeId} : id ∈ c.dominated root ↔ id ∈ order :=
    (wired.mem_dominated_iff present).trans lists.members.symm
  have inside : ∀ id, id ∈ c.dominated root → id < c.nodes.size := (@closure_spec c root Node.children present).2.1
  have layered := wired.bottomUp_layered inside
  rw [← same] at layered
  obtain ⟨count, _, layer⟩ := layered (min reach order.length) (Nat.min_le_right ..)
  have stage : ∀ {id}, id ∈ order
      → (order.idxOf id < count ↔ ∀ child, c.IsChild child id → order.idxOf child < reach) := by
    intro id member
    rw [← mem_take_iff member, layer id (below.mpr member), List.eq_nil_iff_forall_not_mem]
    refine forall_congr' fun child => ?_
    rw [mem_awaited, not_and, not_and, not_not]
    refine forall_congr' fun link => ?_
    have listed := lists.child_mem member link
    have bound := List.idxOf_lt_length_iff.mpr listed
    rw [mem_take_iff listed, Nat.lt_min, and_iff_left bound]
    exact forall_prop_of_true (below.mpr listed)
  have position := lists.idxOf_eq here
  have position' := lists.idxOf_eq there
  apply (stage (List.mem_of_getElem? here)).mp
  have before := (stage (List.mem_of_getElem? there)).mpr early
  omega

end KnowledgeCompiler.Circuit
