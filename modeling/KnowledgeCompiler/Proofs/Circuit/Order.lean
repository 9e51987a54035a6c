import Mathlib.Data.List.Nodup
import KnowledgeCompiler.Circuit.Order
import KnowledgeCompiler.Proofs.Circuit.Wiring

/-! The bottom-up order of a set of nodes lists each of them once, and children before their parents.

While the order is made, every node of the set waits for those of its children in the set that have not
been followed. It enters the order when it waits for none, so children come first; and since the circuit
has no cycle, a node that waits for none is there as long as the order is not complete.
-/

namespace KnowledgeCompiler.Circuit

variable {c : Circuit} {ids : SortedSet NodeId} {id : NodeId}

/-- Each node of a list comes after its children in the set; `done` comes before the list. -/
def ChildrenFirst (c : Circuit) (ids : SortedSet NodeId) : List NodeId → List NodeId → Prop
  | _, [] => True
  | done, id :: rest =>
      (∀ child, c.IsChild child id → child ∈ ids → child ∈ done) ∧ c.ChildrenFirst ids (id :: done) rest

/-- Nodes whose children are all done may follow. -/
theorem ChildrenFirst.append {done order new : List NodeId} (first : c.ChildrenFirst ids done order)
    (ready : ∀ id ∈ new, ∀ child, c.IsChild child id → child ∈ ids → child ∈ done ∨ child ∈ order)
    : c.ChildrenFirst ids done (order ++ new) := by
  induction order generalizing done with
  | nil =>
      induction new generalizing done with
      | nil => trivial
      | cons id rest ih =>
          obtain ⟨here, later⟩ := List.forall_mem_cons.mp ready
          refine ⟨fun child link inside => by simpa using here child link inside, ?_⟩
          refine ih trivial fun other member child link inside => ?_
          exact (later other member child link inside).imp_left (List.mem_cons_of_mem _)
  | cons id rest ih =>
      refine ⟨first.1, ih first.2 fun other member child link inside => ?_⟩
      have found := ready other member child link inside
      simp only [List.mem_cons] at found ⊢
      tauto

-----------------------------------------------------------------------------------------
-- Waiting
-----------------------------------------------------------------------------------------

/-- The children of a node in the set that have not been followed. -/
def awaited (c : Circuit) (ids : SortedSet NodeId) (followed : List NodeId) (id : NodeId) : List NodeId :=
  ((c.node? id).elim [] Node.children).filter fun child => decide (child ∈ ids ∧ ¬ child ∈ followed)

theorem mem_children_iff {child : NodeId}
    : child ∈ (c.node? id).elim [] Node.children ↔ c.IsChild child id := by
  cases found : c.node? id with
  | none => simp [IsChild, gate?, found]
  | some node => exact (isChild_iff (gate?_of_node? found)).symm

theorem mem_awaited {followed : List NodeId} {child : NodeId}
    : child ∈ c.awaited ids followed id ↔ c.IsChild child id ∧ child ∈ ids ∧ ¬ child ∈ followed := by
  rw [awaited, List.mem_filter, mem_children_iff]
  simp

theorem Wired.nodup_awaited (wired : c.Wired) (followed : List NodeId) (id : NodeId)
    : (c.awaited ids followed id).Nodup := by
  refine List.Nodup.filter _ ?_
  cases found : c.node? id with
  | none => exact List.nodup_nil
  | some node => exact wired.nodup (gate?_of_node? found)

/-- Following a child of a node leaves one less to wait for. -/
theorem Wired.length_awaited (wired : c.Wired) {followed : List NodeId} {child : NodeId}
    (inside : child ∈ ids) (open_ : ¬ child ∈ followed) (id : NodeId) [Decidable (c.IsChild child id)]
    : (c.awaited ids (followed ++ [child]) id).length
      = if c.IsChild child id then (c.awaited ids followed id).length - 1
        else (c.awaited ids followed id).length := by
  have less : c.awaited ids (followed ++ [child]) id
      = (c.awaited ids followed id).filter (· != child) := by
    simp only [awaited, List.filter_filter]
    refine List.filter_congr (fun other _ => ?_)
    simp only [List.mem_append, List.mem_singleton]
    grind
  rw [less, ← (wired.nodup_awaited followed id).erase_eq_filter]
  split
  · rename_i link
    rw [List.length_erase_of_mem (mem_awaited.mpr ⟨link, inside, open_⟩)]
  · rename_i none_
    rw [List.erase_of_not_mem fun member => none_ (mem_awaited.mp member).1]

-----------------------------------------------------------------------------------------
-- Arrays of marks
-----------------------------------------------------------------------------------------

/-- Setting several entries of an array; induction on the positions. -/
theorem getD_foldl_setIfInBounds {α : Type} (positions : List Nat) (value : Nat → α) (array : Array α)
    {position : Nat} (inside : position < array.size) (default : α)
    : (positions.foldl (fun array position => array.setIfInBounds position (value position)) array).getD
        position default
      = if position ∈ positions then value position else array.getD position default := by
  induction positions generalizing array with
  | nil => simp
  | cons first rest ih =>
      rw [List.foldl_cons, ih _ (by simpa using inside)]
      by_cases listed : position ∈ rest
      · simp [listed]
      · by_cases same : first = position
        · subst same
          simp [listed, Array.getD_eq_getD_getElem?, inside]
        · have differ : position ≠ first := Ne.symm same
          simp [listed, differ, Array.getD_eq_getD_getElem?, Array.getElem?_setIfInBounds_ne same]

theorem size_foldl_setIfInBounds {α : Type} (positions : List Nat) (value : Nat → α) (array : Array α)
    : (positions.foldl (fun array position => array.setIfInBounds position (value position)) array).size
      = array.size := by
  induction positions generalizing array with
  | nil => rfl
  | cons first rest ih => rw [List.foldl_cons, ih, Array.size_setIfInBounds]

-----------------------------------------------------------------------------------------
-- Following a node
-----------------------------------------------------------------------------------------

namespace Ordering

theorem childDone_spec (state : Ordering) (parent : NodeId)
    : (state.childDone parent).order.toList
        = (if state.waiting.getD parent none = some 1 then state.order.toList ++ [parent]
            else state.order.toList)
      ∧ ∀ id, (state.childDone parent).waiting.getD id none
          = if id = parent then (state.waiting.getD id none).map (· - 1)
            else state.waiting.getD id none := by
  unfold childDone
  split
  · rename_i none_
    refine ⟨by simp [none_], fun id => ?_⟩
    split
    · rename_i same
      rw [same, none_]
      rfl
    · rfl
  · rename_i count found
    have inside : parent < state.waiting.size := by
      by_contra outside
      rw [Array.getD_eq_getD_getElem?, Array.getElem?_eq_none (Nat.not_lt.mp outside)] at found
      simp at found
    refine ⟨?_, fun id => ?_⟩
    · rw [found]
      by_cases one : count = 1 <;> simp [one]
    · by_cases same : id = parent
      · subst same
        rw [if_pos rfl, found]
        simp [Array.getD_eq_getD_getElem?, inside]
      · rw [if_neg same, Array.getD_eq_getD_getElem?, Array.getD_eq_getD_getElem?,
          Array.getElem?_setIfInBounds_ne (Ne.symm same)]

/-- All parents of a node count it as done; those that waited for it alone come next. -/
theorem foldl_childDone_spec {parents : List NodeId} (distinct : parents.Nodup) (state : Ordering)
    : (parents.foldl childDone state).order.toList
        = state.order.toList ++ parents.filter (fun p => state.waiting.getD p none == some 1)
      ∧ ∀ id, (parents.foldl childDone state).waiting.getD id none
          = if id ∈ parents then (state.waiting.getD id none).map (· - 1)
            else state.waiting.getD id none := by
  induction parents generalizing state with
  | nil => simp
  | cons parent rest ih =>
      obtain ⟨new, distinctRest⟩ := List.nodup_cons.mp distinct
      obtain ⟨order, waiting⟩ := ih distinctRest (state.childDone parent)
      obtain ⟨order', waiting'⟩ := state.childDone_spec parent
      have other : ∀ p ∈ rest, p ≠ parent := fun p member same => new (same ▸ member)
      refine ⟨?_, fun id => ?_⟩
      · have same : rest.filter (fun p => (state.childDone parent).waiting.getD p none == some 1)
            = rest.filter (fun p => state.waiting.getD p none == some 1) :=
          List.filter_congr fun p member => by rw [waiting', if_neg (other p member)]
        rw [List.foldl_cons, order, same, order', List.filter_cons]
        by_cases one : state.waiting.getD parent none = some 1
        · rw [if_pos one, if_pos (beq_iff_eq.mpr one), List.append_assoc, List.singleton_append]
        · rw [if_neg one, if_neg fun equal => one (beq_iff_eq.mp equal)]
      · rw [List.foldl_cons, waiting, waiting']
        by_cases same : id = parent
        · subst same
          simp [new]
        · simp [same]

end Ordering

-----------------------------------------------------------------------------------------
-- The order
-----------------------------------------------------------------------------------------

/-- How far the order has come: the nodes before `head` have been followed. -/
structure Progress (c : Circuit) (ids : SortedSet NodeId) (head : Nat) (state : Ordering) : Prop where
  head_le : head ≤ state.order.toList.length
  nodup : state.order.toList.Nodup
  members : ∀ id ∈ state.order.toList, id ∈ ids
  childrenFirst : c.ChildrenFirst ids [] state.order.toList
  waiting
    : ∀ id, state.waiting.getD id none
        = if id ∈ ids then some (c.awaited ids (state.order.toList.take head) id).length else none
  ready : ∀ id, id ∈ ids → (id ∈ state.order.toList ↔ c.awaited ids (state.order.toList.take head) id = [])

open Classical in
/-- Following the next node. Only its parents wait for less than before, and none of them is in the order
yet.
-/
theorem Progress.step {head : Nat} {state : Ordering} (progress : c.Progress ids head state)
    (wired : c.Wired) (next : state.order[head]? = some id) {parents : List NodeId}
    (distinct : parents.Nodup) (above : ∀ p, p ∈ parents ↔ c.IsChild id p)
    : c.Progress ids (head + 1) (parents.foldl Ordering.childDone state) := by
  obtain ⟨order, waiting⟩ := Ordering.foldl_childDone_spec distinct state
  generalize parents.foldl Ordering.childDone state = after at order waiting
  have next : state.order.toList[head]? = some id := by simpa using next
  obtain ⟨bound, here⟩ := List.getElem?_eq_some_iff.mp next
  have inside : id ∈ ids := progress.members id (List.mem_of_getElem? next)
  have taken : after.order.toList.take (head + 1) = state.order.toList.take head ++ [id] := by
    rw [order, List.take_append_of_le_length bound, List.take_succ_eq_append_getElem bound, here]
  have open_ : ¬ id ∈ state.order.toList.take head := by
    intro early
    have split := List.take_append_drop head state.order.toList
    have nodup := progress.nodup
    rw [← split, List.nodup_append] at nodup
    have late : id ∈ state.order.toList.drop head := by
      rw [List.drop_eq_getElem_cons bound, here]
      exact List.mem_cons_self
    exact nodup.2.2 id early id late rfl
  have length := fun p => wired.length_awaited inside open_ p
  -- A parent of the node has been waiting for it.
  have waited : ∀ p, c.IsChild id p → id ∈ c.awaited ids (state.order.toList.take head) p :=
    fun p link => mem_awaited.mpr ⟨link, inside, open_⟩
  have new : ∀ p, p ∈ parents.filter (fun p => state.waiting.getD p none == some 1)
      ↔ p ∈ ids ∧ c.IsChild id p ∧ (c.awaited ids (state.order.toList.take head) p).length = 1 := by
    intro p
    rw [List.mem_filter, above, progress.waiting, beq_iff_eq]
    by_cases member : p ∈ ids <;> simp [member]
  have done : ∀ p, p ∈ parents.filter (fun p => state.waiting.getD p none == some 1)
      → c.awaited ids (state.order.toList.take head ++ [id]) p = [] := by
    intro p listed
    obtain ⟨_, link, one⟩ := (new p).mp listed
    rw [← List.length_eq_zero_iff, length, if_pos link, one]
  refine ⟨?_, ?_, ?_, ?_, fun p => ?_, fun p member => ?_⟩
  · rw [order, List.length_append]
    exact Nat.le_add_right_of_le bound
  · rw [order, List.nodup_append]
    refine ⟨progress.nodup, distinct.filter _, fun p old q listed same => ?_⟩
    subst same
    obtain ⟨member, _, one⟩ := (new p).mp listed
    rw [(progress.ready p member).mp old] at one
    simp at one
  · intro p listed
    rw [order, List.mem_append] at listed
    exact listed.elim (progress.members p) fun fresh => ((new p).mp fresh).1
  · rw [order]
    refine progress.childrenFirst.append fun p listed child link member => .inr ?_
    have followed : child ∈ state.order.toList.take head ++ [id] := by
      by_contra missing
      have waits := mem_awaited.mpr ⟨link, member, missing⟩
      rw [done p listed] at waits
      exact List.not_mem_nil waits
    rw [← here, List.take_append_getElem bound] at followed
    exact List.mem_of_mem_take followed
  · rw [waiting, progress.waiting, taken, length]
    by_cases member : p ∈ ids
    · by_cases link : c.IsChild id p <;> simp [member, link, above]
    · simp [member]
  · rw [taken, order, List.mem_append, new, progress.ready p member, ← List.length_eq_zero_iff,
      ← List.length_eq_zero_iff, length]
    by_cases link : c.IsChild id p
    · have some_ := List.length_pos_of_mem (waited p link)
      simp only [link, member, if_true, true_and]
      omega
    · simp [link]

/-- One more node has been followed, and its parents that waited for it alone have come next, ascending. -/
structure Follows (c : Circuit) (ids : SortedSet NodeId) (head : Nat) (before after : Ordering) : Prop where
  progress : c.Progress ids head before
  next : head < before.order.toList.length
  later : c.Progress ids (head + 1) after
  appended : ∃ new, after.order.toList = before.order.toList ++ new ∧ new.Pairwise (· < ·)

/-- The order is completed: at the end all of it has been followed, and what each step keeps holds. A node of the
order takes a unit of fuel, and there are no more of them than nodes; induction on the fuel.
-/
theorem Progress.complete {P : Nat → List NodeId → Prop} {fuel head : Nat} {state : Ordering}
    (progress : c.Progress ids head state) (holds : P head state.order.toList) (wired : c.Wired)
    (present : ∀ id, id ∈ ids → id < c.nodes.size)
    (kept : ∀ {head before after}, c.Follows ids head before after → P head before.order.toList
      → P (head + 1) after.order.toList)
    (enough : head + fuel = c.nodes.size)
    : ∃ last, c.Progress ids last.order.toList.length last ∧ P last.order.toList.length last.order.toList
      ∧ c.completeOrder fuel head state = last := by
  induction fuel generalizing head state with
  | zero =>
      have few : state.order.toList.length ≤ c.nodes.size := by
        have subset : state.order.toList ⊆ List.range c.nodes.size := fun id member =>
          List.mem_range.mpr (present id (progress.members id member))
        simpa using (List.subperm_of_subset progress.nodup subset).length_le
      have all : head = state.order.toList.length := by
        have := progress.head_le
        omega
      exact ⟨state, all ▸ progress, all ▸ holds, rfl⟩
  | succ fuel ih =>
      unfold completeOrder
      cases next : state.order[head]? with
      | none =>
          have beyond : state.order.toList.length ≤ head := by simpa using next
          have all : head = state.order.toList.length := Nat.le_antisymm progress.head_le beyond
          exact ⟨state, all ▸ progress, all ▸ holds, rfl⟩
      | some id =>
          have inside : id ∈ ids := progress.members id (by simpa using Array.mem_of_getElem? next)
          obtain ⟨node, found⟩ := c.exists_node (present id inside)
          have parents : (c.node? id).elim [] (·.parents.toList) = node.parents.toList := by rw [found]; rfl
          dsimp only
          rw [parents]
          have distinct := node.parents.nodup
          have later := progress.step wired next distinct fun p => wired.linked found
          have appended := (Ordering.foldl_childDone_spec distinct state).1
          have bound : head < state.order.toList.length := by simpa using (Array.getElem?_eq_some_iff.mp next).1
          have follows : c.Follows ids head state (node.parents.toList.foldl Ordering.childDone state) :=
            ⟨progress, bound, later, _, appended, node.parents.ascending.filter _⟩
          exact ih later (kept follows holds) (by omega)

/-- Ordering a set bottom-up: what holds of the nodes without children in the set, ascending, and is kept when a
node is followed, holds at the end.
-/
theorem Wired.bottomUp_run {P : Nat → List NodeId → Prop} (wired : c.Wired)
    (present : ∀ id, id ∈ ids → id < c.nodes.size)
    (start : ∀ {first}, c.Progress ids 0 first → first.order.toList.Pairwise (· < ·) → P 0 first.order.toList)
    (kept : ∀ {head before after}, c.Follows ids head before after → P head before.order.toList
      → P (head + 1) after.order.toList)
    : ∃ last, c.Progress ids last.order.toList.length last ∧ P last.order.toList.length last.order.toList
      ∧ c.bottomUp ids = last.order.toList := by
  have counted : ∀ id, ((c.node? id).elim [] Node.children).countP
        (fun child => (ids.toList.foldl (fun marks id => marks.setIfInBounds id true)
          (Array.replicate c.nodes.size false)).getD child false)
      = (c.awaited ids [] id).length := by
    intro id
    rw [awaited, List.countP_eq_length_filter]
    congr 1
    refine List.filter_congr (fun child member => ?_)
    obtain ⟨gate, found, listed⟩ := mem_children_iff.mp member
    have there := wired.closed found child listed
    rw [getD_foldl_setIfInBounds ids.toList (fun _ => true) (Array.replicate c.nodes.size false)
      (by simpa using there)]
    by_cases inside : child ∈ ids <;> simp [inside, there]
  have first : c.Progress ids 0
      { order := (ids.toList.filter fun id => (c.awaited ids [] id).length == 0).toArray
        waiting := ids.toList.foldl
          (fun counts id => counts.setIfInBounds id (some (c.awaited ids [] id).length))
          (Array.replicate c.nodes.size none) } := by
    refine ⟨Nat.zero_le _, ?_, ?_, ?_, fun id => ?_, fun id member => ?_⟩
    · exact ids.nodup.filter _
    · intro id member
      have listed : id ∈ ids ∧ c.awaited ids [] id = [] := by simpa using member
      exact listed.1
    · rw [← List.nil_append (List.toArray _).toList]
      refine ChildrenFirst.append trivial fun id member child link inside => ?_
      have none_ : c.awaited ids [] id = [] := by simpa using (List.mem_filter.mp member).2
      have waits : child ∈ c.awaited ids [] id := mem_awaited.mpr ⟨link, inside, List.not_mem_nil⟩
      rw [none_] at waits
      exact absurd waits List.not_mem_nil
    · by_cases there : id < c.nodes.size
      · rw [getD_foldl_setIfInBounds ids.toList (fun id => some (c.awaited ids [] id).length)
          (Array.replicate c.nodes.size none) (by simpa using there)]
        by_cases inside : id ∈ ids <;> simp [inside, there]
      · have outside : ¬ id ∈ ids := fun inside => there (present id inside)
        rw [if_neg outside, Array.getD_eq_getD_getElem?, Array.getElem?_eq_none]
        · rfl
        · rw [size_foldl_setIfInBounds ids.toList fun id => some (c.awaited ids [] id).length]
          simpa using Nat.not_lt.mp there
    · simp [member]
  obtain ⟨last, progress, holds, done⟩ := first.complete (start first (ids.ascending.filter _)) wired present kept
    (Nat.zero_add _)
  refine ⟨last, progress, holds, ?_⟩
  unfold Circuit.bottomUp
  simp only [counted]
  rw [done]

/-- At the end the nodes of the set are in the order. -/
theorem Wired.mem_order_iff (wired : c.Wired) {last : Ordering}
    (progress : c.Progress ids last.order.toList.length last)
    : id ∈ last.order.toList ↔ id ∈ ids := by
  refine ⟨progress.members id, fun inside => ?_⟩
  -- The children of a node are in the order and have been followed, so it waits for nothing.
  induction id using wired.acyclic.induction with
  | _ id ih =>
      rw [progress.ready id inside, List.eq_nil_iff_forall_not_mem]
      intro child waits
      obtain ⟨link, member, open_⟩ := mem_awaited.mp waits
      rw [List.take_length] at open_
      exact open_ (ih child link member)

/-- The bottom-up order lists the nodes of the set, each once, and children before their parents. -/
theorem Wired.bottomUp (wired : c.Wired) (present : ∀ id, id ∈ ids → id < c.nodes.size)
    : (∀ id, id ∈ c.bottomUp ids ↔ id ∈ ids) ∧ (c.bottomUp ids).Nodup
      ∧ c.ChildrenFirst ids [] (c.bottomUp ids) := by
  obtain ⟨last, progress, _, same⟩ := wired.bottomUp_run present (P := fun _ _ => True) (fun _ _ => trivial)
    fun _ _ => trivial
  rw [same]
  exact ⟨fun id => wired.mem_order_iff progress, progress.nodup, progress.childrenFirst⟩

end KnowledgeCompiler.Circuit
