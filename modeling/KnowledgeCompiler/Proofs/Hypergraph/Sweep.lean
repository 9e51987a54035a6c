import KnowledgeCompiler.Proofs.Hypergraph.Cut
import KnowledgeCompiler.Proofs.Marking

/-! A breadth-first sweep lists every node once, so the first division has one half of the nodes on each side. -/

namespace KnowledgeCompiler.Hypergraph

variable {h : Hypergraph} {sweep : Sweep}

/-- The nodes in the order are those that have been reached, once each. -/
structure Sweep.Listed (h : Hypergraph) (sweep : Sweep) : Prop where
  size : sweep.reached.size = h.nodeCount
  distinct : sweep.order.toList.Nodup
  reached : ∀ {node}, Marked sweep.reached node ↔ node ∈ sweep.order.toList

/-- A later moment of a sweep that lists what it has reached. -/
structure Sweep.Goes (h : Hypergraph) (before after : Sweep) : Prop extends Sweep.Listed h after where
  stays : ∀ {node}, Marked before.reached node → Marked after.reached node

theorem Sweep.Listed.refl (listed : Sweep.Listed h sweep) : Sweep.Goes h sweep sweep := ⟨listed, id⟩

theorem Sweep.Goes.trans {a b c : Sweep} (first : Sweep.Goes h a b) (second : Sweep.Goes h b c)
    : Sweep.Goes h a c :=
  ⟨second.toListed, second.stays ∘ first.stays⟩

/-- Reaching a node. -/
theorem Sweep.Listed.reach (listed : Sweep.Listed h sweep) (node : Nat)
    : Sweep.Goes h sweep (sweep.reach node)
      ∧ (node < h.nodeCount → Marked (sweep.reach node).reached node) := by
  unfold Sweep.reach
  split
  · rename_i known
    rw [getD_eq_true_iff, listed.size] at known
    exact ⟨listed.refl, fun below => known.resolve_left (Nat.not_le_of_lt below)⟩
  · rename_i unknown
    rw [getD_eq_true_iff, not_or, Nat.not_le] at unknown
    obtain ⟨inside, unmarked⟩ := unknown
    have fresh : ¬ node ∈ sweep.order.toList := fun member => unmarked (listed.reached.mpr member)
    refine ⟨⟨⟨?_, ?_, fun {other} => ?_⟩, fun before => ?_⟩, fun _ => ?_⟩
    · simp [listed.size]
    · rw [Array.toList_push]
      exact List.nodup_append.mpr ⟨listed.distinct, List.nodup_singleton node, by
        rintro a member b single rfl
        exact fresh (List.mem_singleton.mp single ▸ member)⟩
    · rw [Array.toList_push, List.mem_append, List.mem_singleton, ← listed.reached]
      exact marked_setIfInBounds inside
    · exact (marked_setIfInBounds inside).mpr (.inl before)
    · exact (marked_setIfInBounds inside).mpr (.inr rfl)

/-- Steps that keep the list of a sweep do so in turn; induction on the items. -/
theorem Sweep.Listed.foldl {step : Sweep → Nat → Sweep}
    (goes : ∀ {sweep}, Sweep.Listed h sweep → ∀ node, Sweep.Goes h sweep (step sweep node))
    (items : List Nat) (listed : Sweep.Listed h sweep)
    : Sweep.Goes h sweep (items.foldl step sweep) := by
  induction items generalizing sweep with
  | nil => exact listed.refl
  | cons node rest ih => exact (goes listed node).trans (ih (goes listed node).toListed)

/-- Reaching neighbours until nothing is left of the order; induction on the fuel. -/
theorem Sweep.Listed.continueFrom (listed : Sweep.Listed h sweep) (fuel head : Nat)
    : Sweep.Goes h sweep (Sweep.continueFrom h fuel head sweep) := by
  induction fuel generalizing head sweep with
  | zero => exact listed.refl
  | succ fuel ih =>
      rw [Sweep.continueFrom]
      split
      · exact listed.refl
      · rename_i node _
        have further := listed.foldl (fun listed node => (listed.reach node).1) (h.neighbours node)
        exact further.trans (ih further.toListed _)

/-- A sweep from an origin reaches the origin. -/
theorem Sweep.Listed.start (listed : Sweep.Listed h sweep) (origin : Nat)
    : Sweep.Goes h sweep (Sweep.start h sweep origin)
      ∧ (origin < h.nodeCount → Marked (Sweep.start h sweep origin).reached origin) := by
  obtain ⟨first, here⟩ := listed.reach origin
  have rest := first.toListed.continueFrom (h.nodeCount + 1) sweep.order.size
  exact ⟨first.trans rest, fun below => rest.stays (here below)⟩

/-- All origins are reached; induction on the origins. -/
theorem Sweep.Listed.foldl_start (origins : List Nat) (listed : Sweep.Listed h sweep)
    : ∀ origin ∈ origins, origin < h.nodeCount
        → Marked (origins.foldl (Sweep.start h) sweep).reached origin := by
  induction origins generalizing sweep with
  | nil => simp
  | cons first rest ih =>
      obtain ⟨goes, here⟩ := listed.start first
      have later := Sweep.Listed.foldl (fun listed node => (listed.start node).1) rest goes.toListed
      exact List.forall_mem_cons.mpr ⟨fun below => later.stays (here below), ih goes.toListed⟩

/-- A breadth-first order has every node once. -/
theorem breadthFirst_perm (h : Hypergraph) (start : Nat)
    : (h.breadthFirst start).Perm (List.range h.nodeCount) := by
  have nowhere : Sweep.Listed h { reached := Array.replicate h.nodeCount false } :=
    ⟨by simp, List.nodup_nil, by simp [Marked, Array.getElem?_replicate]⟩
  have listed := (nowhere.foldl (fun listed node => (listed.start node).1)
    (start :: List.range h.nodeCount)).toListed
  refine (List.perm_ext_iff_of_nodup listed.distinct List.nodup_range).mpr fun node => ?_
  rw [List.mem_range]
  constructor
  · intro member
    exact listed.size ▸ (listed.reached.mpr member).lt
  · intro below
    exact listed.reached.mp (nowhere.foldl_start _ node
      (List.mem_cons_of_mem _ (List.mem_range.mpr below)) below)

/-- Nodes that go to the side `true` count there, if none is there yet; induction on the nodes. -/
theorem count_foldl_setIfInBounds (nodes : List Nat) (distinct : nodes.Nodup) (sides : Array Bool)
    (inside : ∀ node ∈ nodes, sides[node]? = some false)
    : (nodes.foldl (fun sides node => sides.setIfInBounds node true) sides).count true
      = sides.count true + nodes.length := by
  induction nodes generalizing sides with
  | nil => rfl
  | cons node rest ih =>
      obtain ⟨fresh, later⟩ := List.nodup_cons.mp distinct
      obtain ⟨here, others⟩ := List.forall_mem_cons.mp inside
      obtain ⟨below, value⟩ := Array.getElem?_eq_some_iff.mp here
      have moved : (sides.setIfInBounds node true).count true = sides.count true + 1 := by
        simp [Array.setIfInBounds, below, Array.count_set, value]
      rw [List.foldl_cons, ih later _ fun other member => ?_, moved, List.length_cons]
      · omega
      · have differ : node ≠ other := fun same => fresh (same ▸ member)
        rw [Array.getElem?_setIfInBounds_ne differ]
        exact others other member

/-- The first division has one half of the nodes on the side `true`. -/
theorem count_firstDivision (h : Hypergraph) : h.firstDivision.count true = h.nodeCount / 2 := by
  have perm := h.breadthFirst_perm ((h.breadthFirst 0).getLast?.getD 0)
  rw [firstDivision, count_foldl_setIfInBounds]
  · rw [List.length_take, perm.length_eq, List.length_range, Array.count_replicate]
    simp
    omega
  · exact ((perm.nodup_iff.mpr List.nodup_range).sublist (List.take_sublist _ _))
  · intro node member
    have below := List.mem_range.mp (perm.mem_iff.mp (List.mem_of_mem_take member))
    simp [below]

end KnowledgeCompiler.Hypergraph
