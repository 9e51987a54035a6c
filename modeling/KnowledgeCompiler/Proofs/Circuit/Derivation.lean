import KnowledgeCompiler.Proofs.Circuit.Wiring

/-! Derived data, and when they are up to date.

What is derived for a gate depends on the gates and the derived data of its children, not on their parents
and remembered answers. So the derived data of a node are up to date as long as its gate and what is known
of its children stay the same.
-/

namespace KnowledgeCompiler

/-- A node without its parents and remembered answers. -/
def Node.bare (node : Node) : Node := { node with parents := ∅, memo := {} }

theorem Node.bare_eq_iff {a b : Node} : a.bare = b.bare ↔ a.gate = b.gate ∧ a.summary = b.summary := by
  simp [Node.bare]

namespace Summary

variable {nodes : List Node}

theorem innerSize_bare : innerSize (nodes.map Node.bare) = innerSize nodes := by
  simp [innerSize, List.foldl_map, Node.size, Node.bare]

theorem propertiesThroughout_bare {own : Properties}
    : propertiesThroughout own (nodes.map Node.bare) = propertiesThroughout own nodes := by
  simp [propertiesThroughout, List.foldl_map, Node.throughout, Node.bare]

theorem ofConjunction_bare : ofConjunction (nodes.map Node.bare) = ofConjunction nodes := by
  simp only [ofConjunction, List.map_map, List.foldl_map, innerSize_bare, propertiesThroughout_bare]
  rfl

theorem pairwiseChecked_bare
    : pairwiseChecked contradict (nodes.map Node.bare) = pairwiseChecked contradict nodes := by
  have first : ∀ (node : Node) (others : List Node),
      List.allM (contradict node.bare) (others.map Node.bare) = List.allM (contradict node) others := by
    intro node others
    induction others with
    | nil => rfl
    | cons other rest ih =>
        simp only [List.map_cons, List.allM, ih]
        rfl
  induction nodes with
  | nil => rfl
  | cons node rest ih => simp only [List.map_cons, pairwiseChecked, first, ih]

theorem commonConjuncts_bare : commonConjuncts (nodes.map Node.bare) = commonConjuncts nodes := by
  cases nodes with
  | nil => rfl
  | cons node rest => simp [commonConjuncts, List.foldl_map, Node.conjuncts, Node.bare]

theorem ofDisjunction_bare : ofDisjunction (nodes.map Node.bare) = ofDisjunction nodes := by
  have alive : (nodes.map Node.bare).filter (!·.isFalse) = (nodes.filter (!·.isFalse)).map Node.bare := by
    rw [List.filter_map]
    rfl
  simp only [ofDisjunction, alive, List.map_map, List.all_map, pairwiseChecked_bare, commonConjuncts_bare,
    innerSize_bare, propertiesThroughout_bare]
  rfl

end Summary

namespace Circuit

variable {c d : Circuit} {id : NodeId} {node : Node} {gate : Gate}

/-- The node with an identifier, without its parents and remembered answers. -/
def bare? (c : Circuit) (id : NodeId) : Option Node := (c.node? id).map Node.bare

theorem bare?_of_node? (found : c.node? id = some node) : c.bare? id = some node.bare := by
  simp [bare?, found]

/-- The same gates and derived data, in terms of nodes. -/
theorem bare?_eq_of_node? {other : Node} (found : c.node? id = some node)
    (there : d.node? id = some other) (gate : other.gate = node.gate)
    (summary : other.summary = node.summary)
    : d.bare? id = c.bare? id := by
  rw [bare?_of_node? found, bare?_of_node? there, Node.bare_eq_iff.mpr ⟨gate, summary⟩]

/-- Where nothing changed there is a node with the same gate and derived data. -/
theorem node?_of_bare? (same : d.bare? id = c.bare? id) (found : c.node? id = some node)
    : ∃ other, d.node? id = some other ∧ other.gate = node.gate ∧ other.summary = node.summary := by
  rw [bare?_of_node? found] at same
  obtain ⟨other, there, equal⟩ := Option.map_eq_some_iff.mp same
  exact ⟨other, there, Node.bare_eq_iff.mp equal⟩

theorem varsOf_of_bare? (same : d.bare? id = c.bare? id) : d.varsOf id = c.varsOf id := by
  have equal := congrArg (fun node => node.elim ∅ Node.vars) same
  simp only [bare?, Option.elim_map] at equal
  exact equal

theorem Extends.bare? (grown : c.Extends d) (present : id < c.nodes.size) : d.bare? id = c.bare? id := by
  obtain ⟨node, found⟩ := c.exists_node present
  obtain ⟨other, there, gate, summary⟩ := grown.kept found
  exact bare?_eq_of_node? found there gate summary

theorem map_bare_nodesOf {ids : List NodeId} : (c.nodesOf ids).map Node.bare = ids.filterMap c.bare? := by
  rw [nodesOf, List.map_filterMap]
  rfl

/-- What is derived for a gate depends on the bare nodes below it. -/
theorem summarize_congr (same : ∀ child ∈ gate.children, d.bare? child = c.bare? child)
    : d.summarize gate = c.summarize gate := by
  have nodes : ∀ ids : List NodeId, (∀ child ∈ ids, d.bare? child = c.bare? child)
      → (d.nodesOf ids).map Node.bare = (c.nodesOf ids).map Node.bare := by
    intro ids each
    rw [map_bare_nodesOf, map_bare_nodesOf]
    exact List.filterMap_congr each
  cases gate with
  | and children =>
      simp only [summarize]
      rw [← Summary.ofConjunction_bare, nodes children same, Summary.ofConjunction_bare]
  | or decision children =>
      simp only [summarize]
      rw [← Summary.ofDisjunction_bare, nodes children same, Summary.ofDisjunction_bare]
  | mapping names child =>
      have below := same child (by simp [Gate.children])
      simp only [summarize]
      cases found : c.node? child with
      | none =>
          have missing : d.node? child = none := by simpa [bare?, found] using below
          rw [missing]
      | some node =>
          obtain ⟨other, there, gate, summary⟩ := node?_of_bare? below found
          simp only [there, Summary.ofMapping, Node.size, Node.vars, Node.conjuncts, Node.throughout, summary]
  | constant value | literal l | twoCnf formula | horn formula => rfl

-----------------------------------------------------------------------------------------
-- Nodes that are up to date
-----------------------------------------------------------------------------------------

/-- The derived data of a node are what the nodes below it give. -/
def Derived (c : Circuit) (id : NodeId) : Prop :=
  ∀ node, c.node? id = some node → c.summarize node.gate = .ok node.summary

/-- A node stays up to date if neither it nor a child of it changes. -/
theorem Derived.congr (derived : c.Derived id) (same : d.bare? id = c.bare? id)
    (below : ∀ child, c.IsChild child id → d.bare? child = c.bare? child)
    : d.Derived id := by
  intro node found
  obtain ⟨other, there, gate, summary⟩ := node?_of_bare? same.symm found
  rw [← gate, ← summary, ← derived other there]
  refine summarize_congr fun child member => below child ?_
  exact ⟨_, gate?_of_node? there, member⟩

theorem Derived.of_nodes (derived : c.Derived id) (nodes : d.nodes = c.nodes) : d.Derived id :=
  derived.congr (congrArg _ (node?_of_nodes nodes id)) fun child _ => congrArg _ (node?_of_nodes nodes child)

/-- A wired circuit whose derived data are up to date. -/
structure UpToDate (c : Circuit) : Prop extends c.Wired where
  derived : ∀ id, c.Derived id

theorem UpToDate.empty : Circuit.empty.UpToDate where
  toWired := .empty
  derived id node found := by simp [node?, Circuit.empty] at found

theorem UpToDate.of_nodes (upToDate : c.UpToDate) (nodes : d.nodes = c.nodes) (table : d.table = c.table)
    : d.UpToDate :=
  ⟨upToDate.toWired.congr (sameWiring_of_nodes nodes table), fun id => (upToDate.derived id).of_nodes nodes⟩

/-- A new node with what is derived for its gate. -/
theorem UpToDate.append {summary : Summary} (upToDate : c.UpToDate)
    (present : ∀ child ∈ gate.children, child < c.nodes.size) (nodup : gate.children.Nodup)
    (done : c.summarize gate = .ok summary)
    : (c.append gate summary).UpToDate := by
  have grown : c.Extends (c.append gate summary) := extends_append
  refine ⟨upToDate.toWired.append present nodup, fun id => ?_⟩
  by_cases old : id < c.nodes.size
  · refine (upToDate.derived id).congr (grown.bare? old) fun child link => ?_
    obtain ⟨key, found, member⟩ := link
    exact grown.bare? (upToDate.closed found child member)
  · intro node found
    rcases node?_append found with ⟨before, there, _⟩ | ⟨_, rfl⟩
    · exact absurd (lt_of_node? there) old
    · rw [← done]
      exact summarize_congr fun child member => grown.bare? (present child member)

end Circuit

end KnowledgeCompiler
