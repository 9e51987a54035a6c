import KnowledgeCompiler.Circuit.Order
import KnowledgeCompiler.Proofs.Circuit.Wiring
import KnowledgeCompiler.Proofs.Marking

/-! What a search of a circuit marks.

The nodes that a search marks hold its start and all that can be reached from there. So everything below a
node is among its dominated nodes, and everything above it among its ancestors.
-/

namespace KnowledgeCompiler.Circuit

open Relation

variable {c : Circuit} {id start : NodeId} {marks : Array Bool} {pending : List NodeId}
variable {next : NodeId → List NodeId}

theorem mem_marked : id ∈ marked marks ↔ Marked marks id := by
  simp only [marked, SortedSet.mem_mk, List.mem_filter, List.mem_range, Array.getD, Marked]
  constructor
  · rintro ⟨inside, value⟩
    simpa [inside] using value
  · intro value
    have inside : id < marks.size := Marked.lt value
    simpa [inside] using value

/-- How a search stands: what waits is marked, and from the other marked nodes it has gone on. -/
structure Searched (next : NodeId → List NodeId) (marks : Array Bool) (pending : List NodeId) : Prop where
  waiting : ∀ p ∈ pending, Marked marks p
  followed : ∀ p, Marked marks p → p ∈ pending ∨ ∀ q ∈ next p, q < marks.size → Marked marks q

/-- The search goes on from a node that waits. -/
theorem Searched.step (searched : Searched next marks (id :: pending))
    {after : Array Bool × List NodeId} (onto : MarksOnto (next id) (marks, pending) after)
    : Searched next after.1 after.2 where
  waiting p member := by
    rcases onto.waiting.mp member with before | ⟨reached, inside, _⟩
    · exact onto.marked.mpr (.inl (searched.waiting p (List.mem_cons_of_mem id before)))
    · exact onto.marked.mpr (.inr ⟨reached, inside⟩)
  followed p marked := by
    by_cases before : Marked marks p
    · rcases searched.followed p before with waits | done
      · rcases List.mem_cons.mp waits with rfl | waits
        · exact .inr fun q reached inside => onto.marked.mpr (.inr ⟨reached, onto.size ▸ inside⟩)
        · exact .inl (onto.waiting.mpr (.inl waits))
      · exact .inr fun q reached inside => onto.marked.mpr (.inl (done q reached (onto.size ▸ inside)))
    · obtain ⟨reached, inside⟩ := (onto.marked.mp marked).resolve_left before
      exact .inl (onto.waiting.mpr (.inr ⟨reached, inside, before⟩))

/-- A search with enough fuel marks all that can be reached; induction on the fuel. -/
theorem markReachable_spec {fuel : Nat} (searched : Searched next marks pending)
    (enough : ahead (marks, pending) ≤ fuel)
    : (markReachable next fuel pending marks).size = marks.size
      ∧ (∀ p, Marked marks p → Marked (markReachable next fuel pending marks) p)
      ∧ Searched next (markReachable next fuel pending marks) [] := by
  induction fuel generalizing marks pending with
  | zero =>
      dsimp only [ahead] at enough
      obtain rfl : pending = [] := List.eq_nil_of_length_eq_zero (by omega)
      exact ⟨rfl, fun _ marked => marked, searched⟩
  | succ fuel ih =>
      cases pending with
      | nil => exact ⟨rfl, fun _ marked => marked, searched⟩
      | cons id rest =>
          have onto := marksOnto_foldl (next id) (marks, rest)
          have fewer : ahead (List.foldl markOnto (marks, rest) (next id)) ≤ fuel := by
            rw [onto.ahead]
            simp only [ahead, List.length_cons] at enough ⊢
            omega
          obtain ⟨size, kept, done⟩ := ih (searched.step onto) fewer
          refine ⟨size.trans onto.size, fun p marked => kept p (onto.marked.mpr (.inl marked)), done⟩

/-- A search marks nothing but what can be reached; induction on the fuel. -/
theorem markReachable_only {fuel : Nat} {reached : NodeId → Prop}
    (onwards : ∀ p, reached p → ∀ q ∈ next p, reached q) (waiting : ∀ p ∈ pending, reached p)
    (before : ∀ p, Marked marks p → reached p)
    : ∀ p, Marked (markReachable next fuel pending marks) p → reached p := by
  induction fuel generalizing marks pending with
  | zero => exact before
  | succ fuel ih =>
      cases pending with
      | nil => exact before
      | cons id rest =>
          have onto := marksOnto_foldl (next id) (marks, rest)
          have here := onwards id (waiting id List.mem_cons_self)
          refine ih (fun p member => ?_) fun p marked => ?_
          · rcases onto.waiting.mp member with old | ⟨found, _⟩
            · exact waiting p (List.mem_cons_of_mem id old)
            · exact here p found
          · rcases onto.marked.mp marked with old | ⟨found, _⟩
            · exact before p old
            · exact here p found

/-- The closure of a node holds nothing but what can be reached from there. -/
theorem closure_only {next : Node → List NodeId} {reached : NodeId → Prop} (started : reached start)
    (onwards : ∀ p node, reached p → c.node? p = some node → ∀ q ∈ next node, reached q)
    (member : id ∈ c.closure next start)
    : reached id := by
  refine markReachable_only (fun p holds q found => ?_) (by simpa using started) (fun p marked => ?_) id
    (mem_marked.mp member)
  · cases there : c.node? p with
    | none => simp [there] at found
    | some node => exact onwards p node holds there q (by simpa [there] using found)
  · by_cases same : start = p
    · exact same ▸ started
    · have nothing : ¬ Marked (Array.replicate c.nodes.size false) p := by
        intro value
        have inside : p < c.nodes.size := by simpa using Marked.lt value
        simp [Marked, inside] at value
      rw [Marked, Array.getElem?_setIfInBounds, if_neg same] at marked
      exact absurd marked nothing

/-- The closure of a node holds the node and, with each node, what comes next. -/
theorem closure_spec {next : Node → List NodeId} (present : start < c.nodes.size)
    : start ∈ c.closure next start
      ∧ (∀ p, p ∈ c.closure next start → p < c.nodes.size)
      ∧ ∀ p node, p ∈ c.closure next start → c.node? p = some node
          → ∀ q ∈ next node, q < c.nodes.size → q ∈ c.closure next start := by
  let successors : NodeId → List NodeId := fun id => (c.node? id).elim [] next
  let none_ : Array Bool × List NodeId := (Array.replicate c.nodes.size false, [])
  have unmarked (p : NodeId) : ¬ Marked none_.1 p := by
    intro value
    have inside : p < c.nodes.size := by simpa [none_] using Marked.lt value
    simp [Marked, none_, inside] at value
  have size : none_.1.size = c.nodes.size := by simp [none_]
  have onto := marksOnto_markOnto none_ start
  have first : markOnto none_ start = (none_.1.setIfInBounds start true, [start]) := by
    unfold markOnto
    rw [if_neg]
    rw [getD_eq_true_iff, size, not_or]
    exact ⟨Nat.not_le_of_lt present, unmarked start⟩
  rw [first] at onto
  have started : Marked (none_.1.setIfInBounds start true) start :=
    onto.marked.mpr (.inr ⟨List.mem_singleton_self start, size ▸ present⟩)
  have searched : Searched successors (none_.1.setIfInBounds start true) [start] := by
    refine ⟨by simpa using started, fun p value => .inl ?_⟩
    exact ((onto.marked.mp value).resolve_left (unmarked p)).1
  have enough : ahead (none_.1.setIfInBounds start true, [start]) ≤ c.nodes.size := by
    rw [onto.ahead]
    simp [ahead, none_]
  obtain ⟨sameSize, kept, done⟩ := markReachable_spec searched enough
  have total : (none_.1.setIfInBounds start true).size = c.nodes.size := onto.size.trans size
  refine ⟨mem_marked.mpr (kept start started), fun p member => ?_, fun p node member found q reached inside => ?_⟩
  · have inside := Marked.lt (mem_marked.mp member)
    rwa [sameSize, total] at inside
  · rcases done.followed p (mem_marked.mp member) with waits | followed
    · exact absurd waits List.not_mem_nil
    · refine mem_marked.mpr (followed q ?_ (by rwa [sameSize, total]))
      simpa only [successors, found, Option.elim_some] using reached

/-- What is below a node is among its dominated nodes. -/
theorem Wired.mem_dominated (wired : c.Wired) (present : start < c.nodes.size)
    (below : ReflTransGen c.IsChild id start)
    : id ∈ c.dominated start := by
  obtain ⟨started, _, closed⟩ := @closure_spec c start Node.children present
  induction below using ReflTransGen.head_induction_on with
  | refl => exact started
  | head link _ ih =>
      obtain ⟨gate, found, member⟩ := link
      obtain ⟨node, there, rfl⟩ := Option.map_eq_some_iff.mp found
      exact closed _ node ih there _ member (wired.closed found _ member)

/-- The dominated nodes of a node are those below it. -/
theorem Wired.mem_dominated_iff (wired : c.Wired) (present : start < c.nodes.size)
    : id ∈ c.dominated start ↔ ReflTransGen c.IsChild id start := by
  refine ⟨fun member => ?_, wired.mem_dominated present⟩
  refine @closure_only c id start Node.children (fun p => ReflTransGen c.IsChild p start) .refl
    (fun p node below found q listed => ?_) member
  exact .head ⟨node.gate, gate?_of_node? found, listed⟩ below

/-- The ancestors of a node are closed under going up. -/
theorem Wired.ancestors_spec (wired : c.Wired) (present : start < c.nodes.size)
    : start ∈ c.ancestors start
      ∧ (∀ p, p ∈ c.ancestors start → p < c.nodes.size)
      ∧ ∀ child parent, c.IsChild child parent → child ∈ c.ancestors start → parent ∈ c.ancestors start := by
  obtain ⟨started, inside, closed⟩ := @closure_spec c start (·.parents.toList) present
  refine ⟨started, inside, fun child parent link member => ?_⟩
  obtain ⟨node, found⟩ := c.exists_node (inside child member)
  refine closed child node member found parent ?_ ?_
  · exact SortedSet.mem_toList.mpr ((wired.linked found).mpr link)
  · obtain ⟨gate, there, _⟩ := link
    exact lt_of_gate? there

end KnowledgeCompiler.Circuit
