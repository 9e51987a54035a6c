import KnowledgeCompiler.Circuit.Smoothing
import KnowledgeCompiler.Proofs.Circuit.Depth
import KnowledgeCompiler.Proofs.Sorting

/-! The wiring of circuits: gates, parents and the table of signatures.

In a wired circuit the nodes below a node exist and do not lead back to it, the parents of a node are those
that have it as a child, and the table knows nodes by their signatures. A circuit stays wired when a node
is added over existing ones, and when a node gets other children that do not lead to it.
-/

namespace KnowledgeCompiler.Circuit

open Relation

variable {c d : Circuit} {id target : NodeId} {node here : Node} {gate new : Gate} {ids : List NodeId}

-----------------------------------------------------------------------------------------
-- Changes of nodes
-----------------------------------------------------------------------------------------

theorem node?_modifyNode (c : Circuit) (id other : NodeId) (change : Node → Node)
    : (c.modifyNode id change).node? other
      = if id = other then (c.node? other).map change else c.node? other := by
  simp only [modifyNode, node?, Array.getElem?_modify]

theorem size_modifyNode (c : Circuit) (id : NodeId) (change : Node → Node)
    : (c.modifyNode id change).nodes.size = c.nodes.size := by
  simp [modifyNode]

/-- The same change of several nodes, if making it twice is making it once; induction on the nodes. -/
theorem node?_foldl_modifyNode (c : Circuit) (id : NodeId) (ids : List NodeId) {change : Node → Node}
    (once : ∀ node, change (change node) = change node)
    : (ids.foldl (fun c id => c.modifyNode id change) c).node? id
      = if id ∈ ids then (c.node? id).map change else c.node? id := by
  induction ids generalizing c with
  | nil => simp
  | cons other rest ih =>
      rw [List.foldl_cons, ih, node?_modifyNode]
      by_cases here : other = id
      · have again : ((c.node? id).map change).map change = (c.node? id).map change := by
          cases c.node? id <;> simp [once]
        simp [here, again]
      · have apart : id ≠ other := Ne.symm here
        simp [here, apart]

theorem foldl_modifyNode_frame (c : Circuit) (ids : List NodeId) (change : Node → Node)
    : (ids.foldl (fun c id => c.modifyNode id change) c).nodes.size = c.nodes.size
      ∧ (ids.foldl (fun c id => c.modifyNode id change) c).table = c.table
      ∧ (ids.foldl (fun c id => c.modifyNode id change) c).sharing = c.sharing := by
  induction ids generalizing c with
  | nil => exact ⟨rfl, rfl, rfl⟩
  | cons child rest ih =>
      obtain ⟨size, table, sharing⟩ := ih (c.modifyNode child change)
      exact ⟨size.trans (size_modifyNode ..), table, sharing⟩

/-- Linking changes the parents of nodes only. -/
theorem node?_linkParent {parent : NodeId} {children : List NodeId} (found : c.node? id = some node)
    : ∃ other, (c.linkParent parent children).node? id = some other
      ∧ other.gate = node.gate ∧ other.summary = node.summary ∧ other.memo = node.memo
      ∧ ∀ p, p ∈ other.parents ↔ p ∈ node.parents ∨ p = parent ∧ id ∈ children := by
  have once : ∀ node : Node, { node with parents := (node.parents.insert parent).insert parent }
      = { node with parents := node.parents.insert parent } := by
    intro node
    congr 1
    refine SortedSet.ext_mem (fun p => ?_)
    simp
  rw [linkParent, node?_foldl_modifyNode c id children once, found]
  split
  · rename_i inside
    refine ⟨_, rfl, rfl, rfl, rfl, fun p => ?_⟩
    simp [inside, or_comm]
  · rename_i outside
    exact ⟨node, rfl, rfl, rfl, rfl, by simp [outside]⟩

/-- Unlinking changes the parents of nodes only. -/
theorem node?_unlinkParent {parent : NodeId} {children : List NodeId} (found : c.node? id = some node)
    : ∃ other, (c.unlinkParent parent children).node? id = some other
      ∧ other.gate = node.gate ∧ other.summary = node.summary ∧ other.memo = node.memo
      ∧ ∀ p, p ∈ other.parents ↔ p ∈ node.parents ∧ ¬ (p = parent ∧ id ∈ children) := by
  have once : ∀ node : Node, { node with parents := (node.parents.erase parent).erase parent }
      = { node with parents := node.parents.erase parent } := by
    intro node
    congr 1
    refine SortedSet.ext_mem (fun p => ?_)
    simp
  rw [unlinkParent, node?_foldl_modifyNode c id children once, found]
  split
  · rename_i inside
    refine ⟨_, rfl, rfl, rfl, rfl, fun p => ?_⟩
    simp [inside]
  · rename_i outside
    exact ⟨node, rfl, rfl, rfl, rfl, by simp [outside]⟩

theorem linkParent_frame (c : Circuit) (parent : NodeId) (children : List NodeId)
    : (c.linkParent parent children).nodes.size = c.nodes.size
      ∧ (c.linkParent parent children).table = c.table
      ∧ (c.linkParent parent children).sharing = c.sharing :=
  foldl_modifyNode_frame ..

theorem register_frame (c : Circuit) (key : Option Gate) (id : NodeId)
    : (c.register key id).nodes = c.nodes ∧ (c.register key id).sharing = c.sharing := by
  unfold register
  split
  · exact ⟨rfl, rfl⟩
  · split <;> exact ⟨rfl, rfl⟩

theorem find?_register {key : Option Gate} {wanted : Gate} {other : NodeId}
    (found : (c.register key id).table.find? wanted = some other)
    : c.table.find? wanted = some other ∨ key = some wanted ∧ id = other := by
  unfold register at found
  split at found
  · exact .inl found
  · split at found
    · exact .inl found
    · rw [SharingTable.find?_insert] at found
      split at found
      · rename_i same
        exact .inr ⟨by rw [same], Option.some.inj found⟩
      · exact .inl found

theorem sortBy_of_ascending {children : List NodeId} (ascending : children.Pairwise (· < ·))
    : sortBy inOrder children = children := by
  refine sortBy_eq_self (ascending.imp (fun {a b} below => ?_))
  simp [inOrder, Nat.isLE_compare, Nat.le_of_lt below]

theorem signature?_or {decision : Option Var} {children : List NodeId}
    (ascending : children.Pairwise (· < ·))
    : (Gate.or decision children).signature? = some (.or decision children) := by
  rw [Gate.signature?, sortBy_of_ascending ascending]

/-- The signature of a gate with ascending children is the gate itself, if it has one. -/
theorem eq_of_signature? {key : Gate} (ascending : gate.children.Pairwise (· < ·))
    (signed : gate.signature? = some key)
    : key = gate := by
  cases gate with
  | constant value => exact (Option.some.inj signed).symm
  | literal l => exact (Option.some.inj signed).symm
  | and children =>
      have sorted : sortBy inOrder children = children := sortBy_of_ascending ascending
      rw [Gate.signature?, sorted] at signed
      exact (Option.some.inj signed).symm
  | or decision children =>
      have same := (@signature?_or decision children ascending).symm.trans signed
      exact (Option.some.inj same).symm
  | mapping names child => exact (Option.some.inj signed).symm
  | twoCnf formula => simp [Gate.signature?] at signed
  | horn formula => simp [Gate.signature?] at signed

-----------------------------------------------------------------------------------------
-- Wired circuits
-----------------------------------------------------------------------------------------

/-- A circuit without cycles whose parents and signatures are up to date. -/
structure Wired (c : Circuit) : Prop where
  closed : c.Closed
  acyclic : c.Acyclic
  nodup : ∀ {id gate}, c.gate? id = some gate → gate.children.Nodup
  linked : ∀ {id node p}, c.node? id = some node → (p ∈ node.parents ↔ c.IsChild id p)
  table
    : ∀ {key id},
        c.table.find? key = some id → ∃ gate, c.gate? id = some gate ∧ gate.signature? = some key

theorem Wired.empty : Circuit.empty.Wired where
  closed found := by simp [gate?, node?, Circuit.empty] at found
  acyclic := by
    refine ⟨fun id => ⟨id, fun child link => ?_⟩⟩
    simp [IsChild, gate?, node?, Circuit.empty] at link
  nodup found := by simp [gate?, node?, Circuit.empty] at found
  linked found := by simp [node?, Circuit.empty] at found
  table found := by simp [Circuit.empty, SharingTable.find?] at found

/-- Two circuits differ at most in what is derived and remembered. -/
structure SameWiring (c d : Circuit) : Prop where
  nodes
    : ∀ id,
        (d.node? id).map (fun node => (node.gate, node.parents))
          = (c.node? id).map fun node => (node.gate, node.parents)
  table : d.table = c.table

namespace SameWiring

variable {e : Circuit}

theorem refl (c : Circuit) : c.SameWiring c := ⟨fun _ => rfl, rfl⟩

theorem trans (first : c.SameWiring d) (second : d.SameWiring e) : c.SameWiring e :=
  ⟨fun id => (second.nodes id).trans (first.nodes id), second.table.trans first.table⟩

theorem gate? (same : c.SameWiring d) (id : NodeId) : d.gate? id = c.gate? id := by
  have equal := congrArg (Option.map Prod.fst) (same.nodes id)
  simpa [Circuit.gate?, Function.comp_def] using equal

theorem size (same : c.SameWiring d) : d.nodes.size = c.nodes.size := by
  refine Nat.le_antisymm ?_ ?_
  · exact gate?_eq_none.mp ((same.gate? _).trans (gate?_eq_none.mpr (Nat.le_refl _)))
  · exact gate?_eq_none.mp ((same.gate? _).symm.trans (gate?_eq_none.mpr (Nat.le_refl _)))

theorem isChild (same : c.SameWiring d) : d.IsChild = c.IsChild := by
  funext child parent
  simp only [IsChild, same.gate?]

theorem node? (same : c.SameWiring d) (found : d.node? id = some node)
    : ∃ other, c.node? id = some other ∧ node.gate = other.gate ∧ node.parents = other.parents := by
  have equal := same.nodes id
  rw [found] at equal
  obtain ⟨other, there, pair⟩ := Option.map_eq_some_iff.mp equal.symm
  simp only [Prod.mk.injEq] at pair
  exact ⟨other, there, pair.1.symm, pair.2.symm⟩

end SameWiring

theorem Wired.congr (wired : c.Wired) (same : c.SameWiring d) : d.Wired where
  closed found := by
    rw [same.gate?] at found
    rw [same.size]
    exact wired.closed found
  acyclic := by
    rw [Acyclic, same.isChild]
    exact wired.acyclic
  nodup found := wired.nodup (same.gate? _ ▸ found)
  linked found := by
    obtain ⟨other, there, _, parents⟩ := same.node? found
    rw [parents, same.isChild]
    exact wired.linked there
  table found := by
    rw [same.table] at found
    obtain ⟨gate, there, signed⟩ := wired.table found
    exact ⟨gate, (same.gate? _).trans there, signed⟩

/-- A change of one node that keeps its gate and its parents. -/
theorem sameWiring_modifyNode {change : Node → Node} (gate : ∀ node, (change node).gate = node.gate)
    (parents : ∀ node, (change node).parents = node.parents)
    : c.SameWiring (c.modifyNode id change) := by
  refine ⟨fun other => ?_, rfl⟩
  rw [node?_modifyNode]
  split
  · rw [Option.map_map]
    simp only [Function.comp_def, gate, parents]
  · rfl

theorem node?_of_nodes (nodes : d.nodes = c.nodes) (id : NodeId) : d.node? id = c.node? id := by
  rw [Circuit.node?, Circuit.node?, nodes]

theorem sameWiring_of_nodes (nodes : d.nodes = c.nodes) (table : d.table = c.table) : c.SameWiring d :=
  ⟨fun id => by rw [node?_of_nodes nodes], table⟩

theorem refreshRoot_frame (c : Circuit)
    : c.refreshRoot.nodes = c.nodes ∧ c.refreshRoot.table = c.table
      ∧ c.refreshRoot.sharing = c.sharing := by
  unfold refreshRoot
  split <;> exact ⟨rfl, rfl, rfl⟩

-----------------------------------------------------------------------------------------
-- A new node
-----------------------------------------------------------------------------------------

section Append

variable {summary : Summary}

theorem node?_append_old (found : c.node? id = some node)
    : ∃ other, (c.append gate summary).node? id = some other
      ∧ other.gate = node.gate ∧ other.summary = node.summary ∧ other.memo = node.memo
      ∧ ∀ p, p ∈ other.parents ↔ p ∈ node.parents ∨ p = c.nodes.size ∧ id ∈ gate.children := by
  obtain ⟨other, there, rest⟩ := @node?_linkParent c id node c.nodes.size gate.children found
  refine ⟨other, ?_, rest⟩
  have inside : id < (c.linkParent c.nodes.size gate.children).nodes.size := lt_of_node? there
  simp only [append, node?, (register_frame _ _ _).1]
  rw [Array.getElem?_push_lt inside]
  simpa [node?, inside] using there

theorem node?_append_new
    : (c.append gate summary).node? c.nodes.size
      = some { gate, parents := ∅, summary, memo := {} } := by
  obtain ⟨size, _⟩ := c.linkParent_frame c.nodes.size gate.children
  simp only [append, node?, (register_frame _ _ _).1]
  rw [Array.getElem?_push, if_pos size.symm]

theorem size_append : (c.append gate summary).nodes.size = c.nodes.size + 1 := by
  obtain ⟨size, _⟩ := c.linkParent_frame c.nodes.size gate.children
  simp only [append, (register_frame _ _ _).1, Array.size_push, size]

theorem sharing_append : (c.append gate summary).sharing = c.sharing := by
  obtain ⟨_, _, linked⟩ := c.linkParent_frame c.nodes.size gate.children
  exact (register_frame ..).2.trans linked

theorem extends_append : c.Extends (c.append gate summary) := by
  refine ⟨fun {id node} found => ?_⟩
  obtain ⟨other, there, sameGate, sameSummary, _⟩ := node?_append_old found
  exact ⟨other, there, sameGate, sameSummary⟩

/-- A node of the grown circuit is an old one or the new one. -/
theorem gate?_append {key : Gate} (found : (c.append gate summary).gate? id = some key)
    : c.gate? id = some key ∨ id = c.nodes.size ∧ key = gate := by
  rcases Nat.lt_succ_iff_lt_or_eq.mp (size_append ▸ lt_of_gate? found) with old | rfl
  · exact .inl (by rwa [← extends_append.gate?_eq old])
  · rw [gate?_of_node? node?_append_new] at found
    exact .inr ⟨rfl, (Option.some.inj found).symm⟩

theorem node?_append (found : (c.append gate summary).node? id = some node)
    : (∃ old, c.node? id = some old ∧ node.gate = old.gate ∧ node.summary = old.summary
        ∧ node.memo = old.memo
        ∧ ∀ p, p ∈ node.parents ↔ p ∈ old.parents ∨ p = c.nodes.size ∧ id ∈ gate.children)
      ∨ id = c.nodes.size ∧ node = { gate, parents := ∅, summary, memo := {} } := by
  rcases Nat.lt_succ_iff_lt_or_eq.mp (size_append ▸ lt_of_node? found) with before | rfl
  · obtain ⟨old, present⟩ := c.exists_node before
    obtain ⟨other, there, rest⟩ := @node?_append_old c id old gate summary present
    obtain rfl := Option.some.inj (found.symm.trans there)
    exact .inl ⟨old, present, rest⟩
  · rw [node?_append_new] at found
    exact .inr ⟨rfl, (Option.some.inj found).symm⟩

/-- A new node over existing ones keeps the circuit wired. -/
theorem Wired.append (wired : c.Wired) (present : ∀ child ∈ gate.children, child < c.nodes.size)
    (nodup : gate.children.Nodup)
    : (c.append gate summary).Wired := by
  have grown : c.Extends (c.append gate summary) := extends_append
  refine ⟨?_, ?_, ?_, ?_, ?_⟩
  · intro id key found child member
    refine grown.lt ?_
    rcases gate?_append found with old | ⟨rfl, rfl⟩
    · exact wired.closed old child member
    · exact present child member
  · refine wired.acyclic.redirect c.nodes.size (fun child parent old link => ?_)
      (fun child link path => ?_)
    · obtain ⟨key, found, member⟩ := link
      rcases gate?_append found with before | ⟨rfl, rfl⟩
      · exact ⟨key, before, member⟩
      · exact absurd rfl old
    · obtain ⟨key, found, member⟩ := link
      rw [gate?_of_node? node?_append_new] at found
      obtain rfl := Option.some.inj found
      rcases path.cases_head with rfl | ⟨parent, ⟨key, there, listed⟩, _⟩
      · exact Nat.lt_irrefl _ (present _ member)
      · exact Nat.lt_irrefl _ (wired.closed there _ listed)
  · intro id key found
    rcases gate?_append found with old | ⟨rfl, rfl⟩
    · exact wired.nodup old
    · exact nodup
  · intro id node p found
    have links : (c.append gate summary).IsChild id p
        ↔ c.IsChild id p ∨ p = c.nodes.size ∧ id ∈ gate.children := by
      constructor
      · intro link
        obtain ⟨key, there, member⟩ := link
        rcases gate?_append there with old | ⟨rfl, rfl⟩
        · exact .inl ⟨key, old, member⟩
        · exact .inr ⟨rfl, member⟩
      · intro link
        rcases link with ⟨key, old, member⟩ | ⟨rfl, member⟩
        · exact ⟨key, grown.gate? old, member⟩
        · exact ⟨gate, gate?_of_node? node?_append_new, member⟩
    rw [links]
    rcases node?_append found with ⟨old, before, _, _, _, parents⟩ | ⟨rfl, rfl⟩
    · rw [parents, wired.linked before]
    · simp only [SortedSet.not_mem_empty, false_iff, not_or, not_and]
      refine ⟨fun link => ?_, fun _ member => ?_⟩
      · obtain ⟨key, there, member⟩ := link
        exact Nat.lt_irrefl _ (wired.closed there _ member)
      · exact Nat.lt_irrefl _ (present _ member)
  · intro key id found
    rcases find?_register found with old | ⟨signed, rfl⟩
    · rw [show _ = c.table from (c.linkParent_frame c.nodes.size gate.children).2.1] at old
      obtain ⟨known, there, signed⟩ := wired.table old
      exact ⟨known, grown.gate? there, signed⟩
    · exact ⟨gate, gate?_of_node? node?_append_new, signed⟩

end Append

-----------------------------------------------------------------------------------------
-- Other children
-----------------------------------------------------------------------------------------

theorem unregister_frame (c : Circuit) (key : Option Gate) (id : NodeId)
    : (c.unregister key id).nodes = c.nodes ∧ (c.unregister key id).sharing = c.sharing := by
  unfold unregister
  split
  · exact ⟨rfl, rfl⟩
  · split <;> exact ⟨rfl, rfl⟩

/-- A removed signature does not lead to the node any more. -/
theorem find?_unregister {key : Option Gate} {wanted : Gate} {other : NodeId}
    (found : (c.unregister key id).table.find? wanted = some other)
    : c.table.find? wanted = some other ∧ ¬ (key = some wanted ∧ other = id) := by
  unfold unregister at found
  split at found
  · exact ⟨found, by simp⟩
  · split at found
    · rw [SharingTable.find?_erase] at found
      split at found
      · simp at found
      · rename_i differ
        exact ⟨found, fun same => differ (Option.some.inj same.1).symm⟩
    · rename_i key registered
      refine ⟨found, fun same => registered ?_⟩
      obtain ⟨equal, rfl⟩ := same
      rw [Option.some.inj equal]
      exact found

theorem node?_replaceGate (c : Circuit) (target id : NodeId) (gate : Gate)
    : (c.replaceGate target gate).node? id
      = if target = id then (c.node? id).map ({ · with gate }) else c.node? id := by
  unfold replaceGate
  split
  · rename_i missing
    split
    · rename_i same
      subst same
      rw [missing]
      rfl
    · rfl
  · have nodes : ∀ key new, ((c.unregister key target).register new target).nodes = c.nodes :=
      fun key new => (register_frame ..).1.trans (unregister_frame ..).1
    rw [node?_modifyNode]
    simp only [node?, nodes]

theorem replaceGate_frame (c : Circuit) (target : NodeId) (gate : Gate)
    : (c.replaceGate target gate).nodes.size = c.nodes.size
      ∧ (c.replaceGate target gate).sharing = c.sharing := by
  unfold replaceGate
  split
  · exact ⟨rfl, rfl⟩
  · refine ⟨(size_modifyNode ..).trans ?_, ?_⟩
    · rw [(register_frame ..).1, (unregister_frame ..).1]
    · exact (register_frame ..).2.trans (unregister_frame ..).2

/-- The table leads to a node with another gate by its new signature only. -/
theorem find?_replaceGate {key : Gate} {other : NodeId} (present : c.node? target = some node)
    (found : (c.replaceGate target gate).table.find? key = some other)
    : (c.table.find? key = some other ∧ ¬ (node.gate.signature? = some key ∧ other = target))
      ∨ gate.signature? = some key ∧ target = other := by
  unfold replaceGate at found
  rw [present] at found
  exact (find?_register found).imp_left find?_unregister

/-- Other children change the gate of a node, and they change whom the node is a parent of. -/
theorem node?_redirect (found : c.node? id = some here)
    : ∃ other, (c.redirect target node ids).node? id = some other
      ∧ other.gate = (if target = id then node.gate.withChildren ids else here.gate)
      ∧ other.summary = here.summary ∧ other.memo = here.memo
      ∧ ∀ p, p ∈ other.parents ↔ (p ∈ here.parents ∨ p = target ∧ id ∈ ids)
          ∧ ¬ (p = target ∧ id ∈ node.children ∧ ¬ id ∈ ids) := by
  obtain ⟨linked, there, gate, summary, memo, parents⟩ := @node?_linkParent c id here target ids found
  obtain ⟨last, there', gate', summary', memo', parents'⟩ := @node?_unlinkParent _ id linked target
    (node.children.filter (!ids.contains ·)) there
  have same : ∀ p, p ∈ last.parents ↔ (p ∈ here.parents ∨ p = target ∧ id ∈ ids)
      ∧ ¬ (p = target ∧ id ∈ node.children ∧ ¬ id ∈ ids) := by
    intro p
    rw [parents', parents]
    simp
  unfold redirect
  rw [node?_replaceGate, there']
  split
  · exact ⟨_, rfl, rfl, summary'.trans summary, memo'.trans memo, same⟩
  · exact ⟨last, rfl, gate'.trans gate, summary'.trans summary, memo'.trans memo, same⟩

theorem redirect_frame (c : Circuit) (target : NodeId) (node : Node) (ids : List NodeId)
    : (c.redirect target node ids).nodes.size = c.nodes.size
      ∧ (c.redirect target node ids).sharing = c.sharing := by
  obtain ⟨size, _, sharing⟩ := c.linkParent_frame target ids
  obtain ⟨size', _, sharing'⟩ := foldl_modifyNode_frame (c.linkParent target ids)
    (node.children.filter (!ids.contains ·))
    fun node => { node with parents := node.parents.erase target }
  obtain ⟨size'', sharing''⟩ := replaceGate_frame ((c.linkParent target ids).unlinkParent target
    (node.children.filter (!ids.contains ·))) target (node.gate.withChildren ids)
  exact ⟨size''.trans (size'.trans size), sharing''.trans (sharing'.trans sharing)⟩

theorem find?_redirect {key : Gate} {other : NodeId} (present : c.node? target = some node)
    (found : (c.redirect target node ids).table.find? key = some other)
    : (c.table.find? key = some other ∧ ¬ (node.gate.signature? = some key ∧ other = target))
      ∨ (node.gate.withChildren ids).signature? = some key ∧ target = other := by
  obtain ⟨linked, there, gate, _⟩ := @node?_linkParent c target node target ids present
  obtain ⟨last, there', gate', _⟩ := @node?_unlinkParent _ target linked target
    (node.children.filter (!ids.contains ·)) there
  have table : ((c.linkParent target ids).unlinkParent target
      (node.children.filter (!ids.contains ·))).table = c.table :=
    (foldl_modifyNode_frame ..).2.1.trans (c.linkParent_frame target ids).2.1
  have kept := find?_replaceGate there' found
  rwa [gate', gate, table] at kept


-----------------------------------------------------------------------------------------
-- Another gate
-----------------------------------------------------------------------------------------

/-- The second circuit is the first one with another gate at one node, whose new children have the node as
a parent. What is derived for nodes stays as it was.
-/
structure Rewires (c d : Circuit) (target : NodeId) (gate new : Gate) : Prop where
  found : c.gate? target = some gate
  size : d.nodes.size = c.nodes.size
  kept
    : ∀ {id here},
        c.node? id = some here
        → ∃ other, d.node? id = some other
          ∧ other.gate = (if target = id then new else here.gate)
          ∧ other.summary = here.summary ∧ other.memo = here.memo
          ∧ ∀ p, p ∈ other.parents ↔ if p = target then id ∈ new.children else p ∈ here.parents
  table
    : ∀ {key other},
        d.table.find? key = some other
        → (c.table.find? key = some other ∧ ¬ (gate.signature? = some key ∧ other = target))
          ∨ new.signature? = some key ∧ target = other

namespace Rewires

theorem gate? (rewires : c.Rewires d target gate new) (id : NodeId)
    : d.gate? id = if target = id then some new else c.gate? id := by
  cases found : c.node? id with
  | none =>
      have missing : c.gate? id = none := by simp [Circuit.gate?, found]
      have differ : target ≠ id := by
        intro same
        rw [← same, rewires.found] at missing
        simp at missing
      rw [if_neg differ, missing, gate?_eq_none, rewires.size]
      exact gate?_eq_none.mp missing
  | some here =>
      obtain ⟨other, there, same, _⟩ := rewires.kept found
      rw [gate?_of_node? there, same, gate?_of_node? found]
      split <;> rfl

theorem target_gate? (rewires : c.Rewires d target gate new) : d.gate? target = some new := by
  rw [rewires.gate?, if_pos rfl]

theorem other_gate? (rewires : c.Rewires d target gate new) (differ : target ≠ id)
    : d.gate? id = c.gate? id := by
  rw [rewires.gate?, if_neg differ]

/-- A node comes from an old one. -/
theorem node? (rewires : c.Rewires d target gate new) (found : d.node? id = some node)
    : ∃ here, c.node? id = some here
      ∧ node.gate = (if target = id then new else here.gate)
      ∧ node.summary = here.summary ∧ node.memo = here.memo
      ∧ ∀ p, p ∈ node.parents ↔ if p = target then id ∈ new.children else p ∈ here.parents := by
  obtain ⟨here, before⟩ := c.exists_node (rewires.size ▸ lt_of_node? found)
  obtain ⟨other, there, rest⟩ := rewires.kept before
  obtain rfl := Option.some.inj (found.symm.trans there)
  exact ⟨here, before, rest⟩

theorem isChild_iff (rewires : c.Rewires d target gate new) {child parent : NodeId}
    : d.IsChild child parent
      ↔ if target = parent then child ∈ new.children else c.IsChild child parent := by
  unfold IsChild
  rw [rewires.gate?]
  split <;> simp

end Rewires

/-- New children that do not lead to their node keep the circuit wired. -/
theorem Wired.rewire (wired : c.Wired) (rewires : c.Rewires d target gate new)
    (present : ∀ child ∈ new.children, child < c.nodes.size) (nodup : new.children.Nodup)
    (safe : ∀ child ∈ new.children, ¬ ReflTransGen c.IsChild target child)
    : d.Wired := by
  refine ⟨?_, ?_, ?_, ?_, ?_⟩
  · intro id key found child member
    rw [rewires.size]
    rw [rewires.gate?] at found
    split at found
    · obtain rfl := Option.some.inj found
      exact present child member
    · exact wired.closed found child member
  · refine wired.acyclic.redirect target (fun child parent other link => ?_) (fun child link => ?_)
    · rwa [rewires.isChild_iff, if_neg (Ne.symm other)] at link
    · rw [rewires.isChild_iff, if_pos rfl] at link
      exact safe child link
  · intro id key found
    rw [rewires.gate?] at found
    split at found
    · obtain rfl := Option.some.inj found
      exact nodup
    · exact wired.nodup found
  · intro id node p found
    obtain ⟨here, before, _, _, _, parents⟩ := rewires.node? found
    rw [parents, rewires.isChild_iff]
    by_cases same : p = target
    · rw [if_pos same, if_pos same.symm]
    · rw [if_neg same, if_neg (Ne.symm same), wired.linked before]
  · intro key id found
    rcases rewires.table found with ⟨before, other⟩ | ⟨signed, rfl⟩
    · obtain ⟨known, there, signed⟩ := wired.table before
      refine ⟨known, ?_, signed⟩
      rw [rewires.other_gate?, there]
      intro same
      subst same
      obtain rfl := Option.some.inj (rewires.found.symm.trans there)
      exact other ⟨signed, rfl⟩
    · exact ⟨new, rewires.target_gate?, signed⟩

/-- Redirecting a node gives it another gate. -/
theorem Wired.rewires_redirect (wired : c.Wired) (found : c.node? target = some node)
    (children : (node.gate.withChildren ids).children = ids)
    : c.Rewires (c.redirect target node ids) target node.gate (node.gate.withChildren ids) where
  found := gate?_of_node? found
  size := (c.redirect_frame target node ids).1
  kept {id here} before := by
    obtain ⟨other, there, gate, summary, memo, parents⟩ := @node?_redirect c id target node here ids before
    refine ⟨other, there, gate, summary, memo, fun p => ?_⟩
    have own : target ∈ here.parents ↔ id ∈ node.children := by
      rw [wired.linked before, Circuit.isChild_iff (gate?_of_node? found)]
      rfl
    rw [parents, children]
    by_cases same : p = target
    · subst same
      simp only [own, true_and, if_true]
      grind
    · simp [same]
  table := find?_redirect found

end KnowledgeCompiler.Circuit
