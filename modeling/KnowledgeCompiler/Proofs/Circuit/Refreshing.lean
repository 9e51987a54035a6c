import KnowledgeCompiler.Circuit.Edit
import KnowledgeCompiler.Proofs.Action
import KnowledgeCompiler.Proofs.Circuit.Derivation
import KnowledgeCompiler.Proofs.Circuit.Order
import KnowledgeCompiler.Proofs.Circuit.Root

/-! Refreshing the derived data of nodes.

Refreshing a set of nodes bottom up brings a circuit up to date, if the set has with a node all nodes above
it and the other nodes are up to date: when a node is refreshed, its children have been refreshed before, and
they do not change any more.
-/

namespace KnowledgeCompiler

namespace Circuit

variable {c d : Circuit} {id : NodeId} {ids : SortedSet NodeId}

/-- The second circuit is the first one after a set of nodes has been refreshed: all nodes are up to date,
and those of the set remember no answers.
-/
structure Refreshed (c : Circuit) (ids : SortedSet NodeId) (d : Circuit) : Prop where
  wiring : c.SameWiring d
  root : d.root = c.root
  derived : ∀ id, d.Derived id
  kept : ∀ id, ¬ id ∈ ids → d.node? id = c.node? id
  forgotten : ∀ id, id ∈ ids → ∀ node, d.node? id = some node → node.memo = {}

theorem Refreshed.upToDate (refreshed : c.Refreshed ids d) (wired : c.Wired) : d.UpToDate :=
  ⟨wired.congr refreshed.wiring, refreshed.derived⟩

/-- Taking over from the root leaves the nodes as they are. -/
theorem Refreshed.refreshRoot (refreshed : c.Refreshed ids d) : c.Refreshed ids d.refreshRoot := by
  obtain ⟨nodes, table, _⟩ := d.refreshRoot_frame
  exact {
    wiring := refreshed.wiring.trans (sameWiring_of_nodes nodes table)
    root := (root_refreshRoot d).trans refreshed.root
    derived := fun id => (refreshed.derived id).of_nodes nodes
    kept := fun id outside => (node?_of_nodes nodes id).trans (refreshed.kept id outside)
    forgotten := fun id inside node found =>
      refreshed.forgotten id inside node (node?_of_nodes nodes id ▸ found)
  }

/-- After a refresh the circuit shows the right things of its root again. -/
theorem Refreshed.rooted (refreshed : c.Refreshed ids d) (rooted : c.Rooted) : d.refreshRoot.Rooted :=
  rooted_refreshRoot fun chosen => refreshed.wiring.size ▸ rooted.present (refreshed.root ▸ chosen)

/-- How far a refresh has come: the nodes in `done` are up to date, and with a node its children in the set
have been refreshed.
-/
structure Refreshing (c : Circuit) (ids : SortedSet NodeId) (done : List NodeId) (d : Circuit)
    : Prop where
  wiring : c.SameWiring d
  root : d.root = c.root
  derived : ∀ id ∈ done, d.Derived id
  kept : ∀ id, ¬ id ∈ ids → d.node? id = c.node? id
  forgotten : ∀ id ∈ done, ∀ node, d.node? id = some node → node.memo = {}
  before : ∀ id ∈ done, ∀ child, c.IsChild child id → child ∈ ids → child ∈ done

/-- Refreshing one more node, whose children in the set have been refreshed. -/
theorem Refreshing.step {done : List NodeId} {node : Node} {summary : Summary}
    (refreshing : c.Refreshing ids done d) (wired : c.Wired) (inside : id ∈ ids) (fresh : ¬ id ∈ done)
    (ready : ∀ child, c.IsChild child id → child ∈ ids → child ∈ done) (found : d.node? id = some node)
    (derived : d.summarize node.gate = .ok summary)
    : c.Refreshing ids (id :: done) (d.modifyNode id fun node => { node with summary, memo := {} }) := by
  have nodes := d.node?_modifyNode id
  have others : ∀ {other}, other ≠ id →
      (d.modifyNode id fun node => { node with summary, memo := {} }).node? other = d.node? other := by
    intro other differ
    rw [nodes, if_neg (Ne.symm differ)]
  have bare : ∀ {other}, other ≠ id →
      (d.modifyNode id fun node => { node with summary, memo := {} }).bare? other = d.bare? other := by
    intro other differ
    rw [bare?, bare?, others differ]
  have children : d.IsChild = c.IsChild := refreshing.wiring.isChild
  refine ⟨refreshing.wiring.trans (sameWiring_modifyNode (fun _ => rfl) fun _ => rfl), refreshing.root,
    ?_, ?_, ?_, ?_⟩
  · refine List.forall_mem_cons.mpr ⟨fun here there => ?_, fun other member => ?_⟩
    · rw [nodes, if_pos rfl, found] at there
      obtain rfl := Option.some.inj there
      rw [← derived]
      refine summarize_congr fun child member => bare fun same => ?_
      have link : c.IsChild child id := children ▸ ⟨_, gate?_of_node? found, member⟩
      exact wired.acyclic.not_properlyBelow id (.single (same ▸ link))
    · have differ : other ≠ id := fun same => fresh (same ▸ member)
      refine (refreshing.derived other member).congr (bare differ) fun child link => bare fun same => ?_
      rw [children] at link
      exact fresh (same ▸ refreshing.before other member child link (same ▸ inside))
  · intro other outside
    have differ : other ≠ id := fun same => outside (same.symm ▸ inside)
    rw [others differ, refreshing.kept other outside]
  · refine List.forall_mem_cons.mpr ⟨fun here there => ?_, fun other member here there => ?_⟩
    · rw [nodes, if_pos rfl, found] at there
      obtain rfl := Option.some.inj there
      rfl
    · rw [others fun same => fresh (same ▸ member)] at there
      exact refreshing.forgotten other member here there
  · refine List.forall_mem_cons.mpr ⟨fun child link member => ?_, fun other member child link inside => ?_⟩
    · exact List.mem_cons_of_mem _ (ready child link member)
    · exact List.mem_cons_of_mem _ (refreshing.before other member child link inside)

/-- At the end everything is up to date. -/
theorem Refreshing.refreshed {done : List NodeId} (refreshing : c.Refreshing ids done d)
    (complete : ∀ id, id ∈ ids → id ∈ done) (others : ∀ id, ¬ id ∈ ids → c.Derived id)
    (above : ∀ child parent, c.IsChild child parent → child ∈ ids → parent ∈ ids)
    : c.Refreshed ids d where
  wiring := refreshing.wiring
  root := refreshing.root
  derived id := by
    have bare : ∀ {other}, ¬ other ∈ ids → d.bare? other = c.bare? other := by
      intro other outside
      rw [bare?, bare?, refreshing.kept other outside]
    by_cases inside : id ∈ ids
    · exact refreshing.derived id (complete id inside)
    · refine (others id inside).congr (bare inside) fun child link => bare fun member => ?_
      exact inside (above child id link member)
  kept := refreshing.kept
  forgotten id inside := refreshing.forgotten id (complete id inside)

end Circuit

namespace Build

open KnowledgeCompiler.Action

variable {c d : Circuit} {ids : SortedSet NodeId}

/-- Refreshing nodes in turn; induction on the nodes that remain. -/
theorem refreshAll_continues {done rest : List NodeId} (wired : c.Wired)
    (refreshing : c.Refreshing ids done d) (first : c.ChildrenFirst ids done rest)
    (nodup : rest.Nodup) (fresh : ∀ id ∈ rest, ¬ id ∈ done) (inside : ∀ id ∈ rest, id ∈ ids)
    (present : ∀ id, id ∈ ids → id < c.nodes.size)
    : Ensures (refreshAll rest) d
        (fun _ e => ∃ last, c.Refreshing ids last e ∧ (∀ id ∈ done, id ∈ last) ∧ ∀ id ∈ rest, id ∈ last)
        fun _ => False := by
  induction rest generalizing done d with
  | nil => exact Ensures.pure ⟨done, refreshing, fun _ member => member, by simp⟩
  | cons id rest ih =>
      obtain ⟨freshHere, freshRest⟩ := List.forall_mem_cons.mp fresh
      obtain ⟨insideHere, insideRest⟩ := List.forall_mem_cons.mp inside
      obtain ⟨new, nodupRest⟩ := List.nodup_cons.mp nodup
      have continues : ∀ {e : Circuit}, c.Refreshing ids (id :: done) e
          → Ensures (refreshAll rest) e (fun _ e => ∃ last, c.Refreshing ids last e
              ∧ (∀ other ∈ done, other ∈ last) ∧ ∀ other ∈ id :: rest, other ∈ last) fun _ => False := by
        intro e refreshing'
        refine (ih refreshing' first.2 nodupRest (fun other member old => ?_) insideRest).mono ?_
          fun _ stopped => stopped
        · rcases List.mem_cons.mp old with rfl | before
          · exact new member
          · exact freshRest other member before
        · intro _ e result
          obtain ⟨last, reached, kept, rest_⟩ := result
          obtain ⟨here, keptDone⟩ := List.forall_mem_cons.mp kept
          exact ⟨last, reached, keptDone, List.forall_mem_cons.mpr ⟨here, rest_⟩⟩
      show Ensures (refresh id >>= fun _ => refreshAll rest) d _ _
      refine Ensures.bind ?_ fun _ _ => continues
      refine Ensures.current ?_
      split
      · rename_i missing
        obtain ⟨node, found⟩ := d.exists_node (refreshing.wiring.size ▸ present id insideHere)
        rw [missing] at found
        simp at found
      · rename_i node found
        refine Ensures.checked fun summary derived => Ensures.updated ?_
        exact refreshing.step wired insideHere freshHere first.1 found derived

/-- Refreshing a set of nodes bottom up. -/
theorem refreshAll_ensures (wired : c.Wired) (present : ∀ id, id ∈ ids → id < c.nodes.size)
    (others : ∀ id, ¬ id ∈ ids → c.Derived id)
    (above : ∀ child parent, c.IsChild child parent → child ∈ ids → parent ∈ ids)
    : Ensures (refreshAll (c.bottomUp ids)) c (fun _ d => c.Refreshed ids d) fun _ => False := by
  obtain ⟨members, nodup, first⟩ := wired.bottomUp present
  have start : c.Refreshing ids [] c := ⟨.refl c, rfl, by simp, fun _ _ => rfl, by simp, by simp⟩
  refine (refreshAll_continues wired start first nodup (by simp) (fun id => (members id).mp)
    present).mono ?_ fun _ stopped => stopped
  intro _ d result
  obtain ⟨last, refreshing, _, complete⟩ := result
  exact refreshing.refreshed (fun id inside => complete id ((members id).mpr inside)) others above

/-- Refreshing the whole circuit. -/
theorem refreshCircuit_ensures (wired : c.Wired)
    : Ensures refreshCircuit c
        (fun _ d => c.Refreshed (SortedSet.ofList (List.range c.nodes.size)) d ∧ (c.Rooted → d.Rooted))
        fun _ => False := by
  have all : ∀ {id}, id ∈ SortedSet.ofList (List.range c.nodes.size) ↔ id < c.nodes.size := by simp
  refine Ensures.current (Ensures.bind (refreshAll_ensures wired (fun _ => all.mp) (fun id outside => ?_)
    fun child parent link _ => ?_) fun _ d refreshed =>
      Ensures.updated ⟨refreshed.refreshRoot, refreshed.rooted⟩)
  · intro node found
    exact absurd (all.mpr (Circuit.lt_of_node? found)) outside
  · obtain ⟨gate, found, _⟩ := link
    exact all.mpr (Circuit.lt_of_gate? found)

end Build

end KnowledgeCompiler
