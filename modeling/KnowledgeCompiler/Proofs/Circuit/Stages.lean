import KnowledgeCompiler.Proofs.Circuit.Order

/-! The stages of a bottom-up order, and when it is the order by number.

At any time the nodes in the order are those whose children have been followed. So the nodes whose children are
among the first ones of the order come before all others, and of nodes that come together the smaller one is first. If
the numbers of nodes already are as such an order makes them, ordering the nodes again changes nothing.
-/

namespace KnowledgeCompiler.Circuit

variable {c : Circuit} {ids : SortedSet NodeId}

/-- As far as an order has been followed, the nodes whose children are among its first ones are first ones as well. -/
def Layered (c : Circuit) (ids : SortedSet NodeId) (head : Nat) (order : List NodeId) : Prop :=
  ∀ reach ≤ head, ∃ count ≤ order.length, ∀ id, id ∈ ids
    → (id ∈ order.take count ↔ c.awaited ids (order.take reach) id = [])

theorem Progress.layered {first : Ordering} (progress : c.Progress ids 0 first)
    : c.Layered ids 0 first.order.toList := by
  intro reach le
  obtain rfl := Nat.le_zero.mp le
  refine ⟨first.order.toList.length, Nat.le_refl _, fun id inside => ?_⟩
  rw [List.take_length]
  exact progress.ready id inside

theorem Follows.layered {head : Nat} {before after : Ordering} (follows : c.Follows ids head before after)
    (layered : c.Layered ids head before.order.toList)
    : c.Layered ids (head + 1) after.order.toList := by
  intro reach le
  obtain ⟨new, appended, _⟩ := follows.appended
  rcases Nat.lt_or_ge head reach with later | old
  · obtain rfl : reach = head + 1 := Nat.le_antisymm le later
    refine ⟨after.order.toList.length, Nat.le_refl _, fun id inside => ?_⟩
    rw [List.take_length]
    exact follows.later.ready id inside
  · obtain ⟨count, bound, layer⟩ := layered reach old
    refine ⟨count, ?_, fun id inside => ?_⟩
    · rw [appended, List.length_append]
      exact Nat.le_add_right_of_le bound
    · rw [appended, List.take_append_of_le_length bound,
        List.take_append_of_le_length (Nat.le_trans old (Nat.le_of_lt follows.next))]
      exact layer id inside

/-- The whole bottom-up order is layered. -/
theorem Wired.bottomUp_layered (wired : c.Wired) (present : ∀ id, id ∈ ids → id < c.nodes.size)
    : c.Layered ids (c.bottomUp ids).length (c.bottomUp ids) := by
  obtain ⟨last, _, layered, same⟩ := wired.bottomUp_run present (fun progress _ => progress.layered)
    fun follows => follows.layered
  exact same ▸ layered

-----------------------------------------------------------------------------------------
-- The order by number
-----------------------------------------------------------------------------------------

/-- Ascending numbers with all smaller ones among them are the first numbers; induction from the last one. -/
theorem eq_range_of_ascending {order : List Nat} (ascending : order.Pairwise (· < ·))
    (closed : ∀ p ∈ order, ∀ q < p, q ∈ order)
    : ∃ count, order = List.range count := by
  induction order using List.reverseRecOn with
  | nil => exact ⟨0, rfl⟩
  | append_singleton before last ih =>
      obtain ⟨ascending, _, below⟩ := List.pairwise_append.mp ascending
      have below : ∀ p ∈ before, p < last := fun p member => below p member last (List.mem_singleton_self last)
      have among : ∀ q < last, q ∈ before := by
        intro q less
        have member := closed last (List.mem_append_right before (List.mem_singleton_self last)) q less
        exact (List.mem_append.mp member).resolve_right fun same =>
          Nat.ne_of_lt less (List.mem_singleton.mp same)
      obtain ⟨count, rfl⟩ := ih ascending fun p member q less => among q (Nat.lt_trans less (below p member))
      obtain rfl : last = count := by
        apply Nat.le_antisymm
        · exact Nat.not_lt.mp fun less => absurd (List.mem_range.mp (among count less)) (Nat.lt_irrefl count)
        · exact Nat.not_lt.mp fun less => absurd (below last (List.mem_range.mpr less)) (Nat.lt_irrefl last)
      exact ⟨last + 1, List.range_succ.symm⟩

/-- A smaller node comes when a larger one comes, at the latest. -/
def Staged (c : Circuit) : Prop :=
  ∀ {reach i j}, i ≤ j → j < c.nodes.size → (∀ child, c.IsChild child j → child < reach)
    → ∀ child, c.IsChild child i → child < reach

theorem awaited_range_eq_nil_iff {reach id : Nat} (all : ∀ id, id ∈ ids ↔ id < c.nodes.size) (closed : c.Closed)
    : c.awaited ids (List.range reach) id = [] ↔ ∀ child, c.IsChild child id → child < reach := by
  rw [List.eq_nil_iff_forall_not_mem]
  refine forall_congr' fun child => ?_
  rw [mem_awaited, List.mem_range, not_and, not_and, not_not]
  refine forall_congr' fun link => ?_
  obtain ⟨gate, found, member⟩ := link
  exact ⟨fun early => early ((all child).mpr (closed found child member)), fun less _ => less⟩

/-- What is in the order once its first ones have been followed, if these are the first numbers, is closed under
smaller numbers.
-/
theorem Progress.closed_of_staged {head : Nat} {state : Ordering} (progress : c.Progress ids head state)
    (staged : c.Staged) (closed : c.Closed) (all : ∀ id, id ∈ ids ↔ id < c.nodes.size)
    (followed : state.order.toList.take head = List.range head)
    : ∀ p ∈ state.order.toList, ∀ q < p, q ∈ state.order.toList := by
  intro p member q less
  have inside := progress.members p member
  have smaller : q ∈ ids := (all q).mpr (Nat.lt_trans less ((all p).mp inside))
  rw [progress.ready p inside, followed, awaited_range_eq_nil_iff all closed] at member
  rw [progress.ready q smaller, followed, awaited_range_eq_nil_iff all closed]
  exact staged (Nat.le_of_lt less) ((all p).mp inside) member

/-- If the order is made of the first numbers, it still is after one more step. -/
theorem Follows.range {head count : Nat} {before after : Ordering} (follows : c.Follows ids head before after)
    (staged : c.Staged) (closed : c.Closed) (all : ∀ id, id ∈ ids ↔ id < c.nodes.size)
    (numbered : before.order.toList = List.range count)
    : ∃ count, after.order.toList = List.range count := by
  obtain ⟨new, appended, ascending⟩ := follows.appended
  have next := follows.next
  have nodup := follows.later.nodup
  rw [appended, List.nodup_append, numbered] at nodup
  rw [numbered, List.length_range] at next
  apply eq_range_of_ascending
  · rw [appended, numbered]
    refine List.pairwise_append.mpr ⟨List.pairwise_lt_range, ascending, fun p old q fresh => ?_⟩
    have outside : ¬ q < count := fun inside => nodup.2.2 q (List.mem_range.mpr inside) q fresh rfl
    exact Nat.lt_of_lt_of_le (List.mem_range.mp old) (Nat.not_lt.mp outside)
  · apply follows.later.closed_of_staged staged closed all
    rw [appended, numbered, List.take_append_of_le_length (by rw [List.length_range]; exact next), List.take_range,
      Nat.min_eq_left next]

/-- The order of all nodes is the one by number if smaller nodes never come later. -/
theorem Wired.bottomUp_eq_range (wired : c.Wired) (staged : c.Staged) (all : ∀ id, id ∈ ids ↔ id < c.nodes.size)
    : c.bottomUp ids = List.range c.nodes.size := by
  obtain ⟨last, progress, numbered, same⟩ := wired.bottomUp_run (fun id => (all id).mp)
    (P := fun _ order => ∃ count, order = List.range count)
    (fun progress ascending => eq_range_of_ascending ascending
      (progress.closed_of_staged staged wired.closed all List.take_zero))
    fun follows numbered => numbered.elim fun _ numbered => follows.range staged wired.closed all numbered
  obtain ⟨count, last_eq⟩ := numbered
  have members : ∀ id, id < count ↔ id < c.nodes.size := by
    intro id
    rw [← all, ← wired.mem_order_iff progress, last_eq, List.mem_range]
  obtain rfl : count = c.nodes.size := by
    apply Nat.le_antisymm
    · exact Nat.not_lt.mp fun less => Nat.lt_irrefl _ ((members _).mp less)
    · exact Nat.not_lt.mp fun less => Nat.lt_irrefl _ ((members _).mpr less)
  rw [same, last_eq]

end KnowledgeCompiler.Circuit
