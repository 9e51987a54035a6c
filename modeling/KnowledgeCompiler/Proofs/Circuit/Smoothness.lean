import KnowledgeCompiler.Proofs.Circuit.Refreshing
import KnowledgeCompiler.Proofs.Circuit.Smoothing

/-! Smoothing makes a regular circuit smooth.

When all disjunctions are even, the derived data are refreshed. What is derived anew for a node has the
variables and conjuncts that it had, so the other nodes still fit, and the nodes are found to be smooth from
the bottom up.
-/

namespace KnowledgeCompiler

namespace Circuit

variable {c d e : Circuit} {id : NodeId} {node : Node} {gate : Gate} {σ : Assignment}

-----------------------------------------------------------------------------------------
-- Circuits with the same gates
-----------------------------------------------------------------------------------------

/-- Two circuits have the same gates, and the derived data list the same variables and conjuncts. -/
structure Alike (c d : Circuit) : Prop where
  size : d.nodes.size = c.nodes.size
  gate? : ∀ id, d.gate? id = c.gate? id
  varsOf : ∀ id, d.varsOf id = c.varsOf id
  conjunctsOf : ∀ id, d.conjunctsOf id = c.conjunctsOf id

theorem Alike.refl (c : Circuit) : c.Alike c := ⟨rfl, fun _ => rfl, fun _ => rfl, fun _ => rfl⟩

theorem Alike.trans (first : c.Alike d) (second : d.Alike e) : c.Alike e where
  size := second.size.trans first.size
  gate? id := (second.gate? id).trans (first.gate? id)
  varsOf id := (second.varsOf id).trans (first.varsOf id)
  conjunctsOf id := (second.conjunctsOf id).trans (first.conjunctsOf id)

theorem Alike.retains (alike : c.Alike d) : c.Retains d where
  size_le := Nat.le_of_eq alike.size.symm
  varsOf _ := alike.varsOf _
  conjunctsOf _ := alike.conjunctsOf _
  isFalse _ := by rw [Bool.eq_iff_iff, isFalse_iff, isFalse_iff, alike.gate?]

theorem Alike.satisfies_iff (alike : c.Alike d) : d.Satisfies σ id ↔ c.Satisfies σ id :=
  ⟨Satisfies.mono fun _ _ found => (alike.gate? _).symm.trans found,
    Satisfies.mono fun _ _ found => (alike.gate? _).trans found⟩

theorem alike_of_nodes (nodes : d.nodes = c.nodes) : c.Alike d := by
  have same := node?_of_nodes nodes
  refine ⟨by rw [nodes], fun id => ?_, fun id => ?_, fun id => ?_⟩
  · rw [gate?, gate?, same]
  · rw [varsOf, varsOf, same]
  · rw [conjunctsOf, conjunctsOf, same]

/-- A circuit with the gates of a coherent one is coherent if what is derived for each node describes it. -/
theorem Coherent.of_alike (coherent : c.Coherent) (alike : c.Alike d) (wiring : c.SameWiring d)
    (sharing : d.sharing = c.sharing)
    (derived : ∀ {id node}, d.node? id = some node →
      c.Describes node.gate node.summary ∧ Countable node.throughout ∧ node.memo = {})
    : d.Coherent := by
  have retains := alike.retains
  refine ⟨coherent.toWired.congr wiring, ?_, ?_, ?_, ?_, fun there => (derived there).2.2,
    sharing.trans coherent.sharing⟩
  · intro id gate there
    rw [alike.gate?] at there
    exact coherent.ascending there
  · intro id gate there
    rw [alike.gate?] at there
    exact retains.admits (coherent.closed there) (coherent.admits there)
  · intro id node there
    have before : c.gate? id = some node.gate := alike.gate? id ▸ gate?_of_node? there
    exact retains.describes (coherent.closed before) (derived there).1
  · intro id inside
    rw [alike.size] at inside
    refine ⟨alike.size.symm ▸ inside, ?_, fun there => (derived there).2.1⟩
    rw [alike.conjunctsOf]
    exact (coherent.sound inside).proper

/-- A change of the root keeps a circuit coherent. -/
theorem Coherent.of_nodes (coherent : c.Coherent) (nodes : d.nodes = c.nodes) (table : d.table = c.table)
    (sharing : d.sharing = c.sharing)
    : d.Coherent := by
  refine coherent.of_alike (alike_of_nodes nodes) (sameWiring_of_nodes nodes table) sharing fun {id node} there => ?_
  rw [node?_of_nodes nodes] at there
  exact ⟨coherent.describes there, (coherent.sound (lt_of_node? there)).countable there, coherent.unasked there⟩

-----------------------------------------------------------------------------------------
-- One node
-----------------------------------------------------------------------------------------

/-- Another summary that describes a node lists the same variables and conjuncts. -/
theorem Coherent.alike_resummarize {summary : Summary} (coherent : c.Coherent)
    (found : c.node? id = some node) (describes : c.Describes node.gate summary)
    : c.Alike (c.modifyNode id fun node => { node with summary, memo := {} }) := by
  have described := coherent.describes found
  have vars : summary.vars = node.vars :=
    SortedSet.ext_mem fun v => describes.vars.trans described.vars.symm
  have conjuncts : summary.conjuncts = node.conjuncts :=
    SortedSet.ext_mem fun l => describes.conjuncts.trans described.conjuncts.symm
  refine ⟨c.size_modifyNode .., fun other => ?_, fun other => ?_, fun other => ?_⟩
  · simp only [Circuit.gate?, c.node?_modifyNode id]
    split
    · rw [Option.map_map]
      rfl
    · rfl
  · simp only [Circuit.varsOf, c.node?_modifyNode id]
    split
    · rename_i same
      subst same
      simp [found, Node.vars, vars]
    · rfl
  · simp only [Circuit.conjunctsOf, c.node?_modifyNode id]
    split
    · rename_i same
      subst same
      simp [found, Node.conjuncts, conjuncts]
    · rfl

/-- A coherent circuit with another summary of a node that describes the node as well. -/
theorem Coherent.resummarize {summary : Summary} (coherent : c.Coherent)
    (found : c.node? id = some node) (describes : c.Describes node.gate summary)
    (countable : Countable summary.throughout)
    : (c.modifyNode id fun node => { node with summary, memo := {} }).Coherent
      ∧ c.Alike (c.modifyNode id fun node => { node with summary, memo := {} }) := by
  have alike := coherent.alike_resummarize found describes
  refine ⟨?_, alike⟩
  refine coherent.of_alike alike (sameWiring_modifyNode (fun _ => rfl) fun _ => rfl) rfl fun {other here} there => ?_
  rw [c.node?_modifyNode id] at there
  split at there
  · rename_i same
    subst same
    rw [found] at there
    obtain rfl := Option.some.inj there
    exact ⟨describes, countable, rfl⟩
  · exact ⟨coherent.describes there, (coherent.sound (lt_of_node? there)).countable there, coherent.unasked there⟩

/-- A regular circuit of even gates is smooth; induction from the children upwards. -/
theorem Regular.smooth (regular : c.Regular) (even : ∀ {id gate}, c.gate? id = some gate → c.Even gate)
    (id : NodeId)
    : c.Smooth id := by
  induction id using regular.acyclic.induction with
  | _ id ih =>
      intro node found
      have gate := gate?_of_node? found
      obtain ⟨summary, done, _, _, smooth⟩ := (regular.admits gate).summarize fun child member =>
        regular.sound (regular.closed gate child member)
      obtain rfl := Except.ok.inj ((regular.derived id node found).symm.trans done)
      refine smooth (even gate) fun other member => ?_
      obtain ⟨child, listed, present⟩ := mem_nodesOf.mp member
      exact ih child ⟨_, gate, listed⟩ present

/-- A regular circuit without rough disjunctions has even gates only. -/
theorem Regular.even_of_own (regular : c.Regular) (found : c.node? id = some node)
    (own : node.kind = .or → node.summary.own.smooth = true)
    : c.Even node.gate := by
  cases gate : node.gate with
  | or decision children =>
      have described := regular.describes found
      rw [gate] at described
      exact described.even (own (by rw [Node.kind, gate]; rfl))
  | constant value | literal l | and children | mapping names child | twoCnf formula | horn formula =>
      trivial

end Circuit

namespace Build

open KnowledgeCompiler.Action

variable {c d : Circuit} {known : Gadgets}

/-- The nodes of a coherent circuit can be refreshed; induction on the nodes. -/
theorem refreshAll_coherent {ids : List NodeId} (coherent : c.Coherent)
    : Yields (refreshAll ids) c fun _ d => d.Coherent ∧ c.Alike d := by
  induction ids generalizing c with
  | nil => exact Yields.pure ⟨coherent, .refl c⟩
  | cons id rest ih =>
      have first : Yields (refresh id) c fun _ d => d.Coherent ∧ c.Alike d := by
        refine Yields.current ?_
        split
        · exact Yields.pure ⟨coherent, .refl c⟩
        · rename_i node found
          have gate := Circuit.gate?_of_node? found
          obtain ⟨summary, done, describes, countable, _⟩ := (coherent.admits gate).summarize
            fun child member => coherent.sound (coherent.closed gate child member)
          exact Yields.checked done (Yields.updated (coherent.resummarize found describes countable))
      show Yields (refresh id >>= fun _ => refreshAll rest) c _
      refine first.bind fun _ d ⟨coherent', alike⟩ => ?_
      exact (ih coherent').mono fun _ e later => ⟨later.1, alike.trans later.2⟩

/-- Refreshing a coherent circuit makes it regular. -/
theorem refreshCircuit_regular (coherent : c.Coherent)
    : Yields refreshCircuit c fun _ d => d.Regular ∧ c.Alike d := by
  have succeeds : Yields refreshCircuit c fun _ d => d.Coherent ∧ c.Alike d := by
    refine Yields.current (Yields.bind (refreshAll_coherent coherent) fun _ d result => ?_)
    obtain ⟨nodes, table, sharing⟩ := d.refreshRoot_frame
    exact Yields.updated ⟨result.1.of_nodes nodes table sharing,
      result.2.trans (Circuit.alike_of_nodes nodes)⟩
  refine ((refreshCircuit_ensures coherent.toWired).yields succeeds).mono fun _ d result => ?_
  obtain ⟨⟨coherent', alike⟩, refreshed, _⟩ := result
  exact ⟨⟨coherent', refreshed.derived⟩, alike⟩

/-- All targets get even children; induction on the targets. Those that remain are disjunctions as in the
circuit before, and the other gates are even.
-/
theorem smoothAll_spec {targets : List NodeId} (coherent : c.Coherent) (tautologies : Tautologies c known)
    (nodup : targets.Nodup)
    (disjunctions : ∀ id ∈ targets, ∃ decision children, c.gate? id = some (.or decision children))
    (others : ∀ {id gate}, c.gate? id = some gate → c.Even gate ∨ id ∈ targets)
    : Yields (targets.foldlM (fun known id => smoothNode id known) known) c fun _ d =>
        d.Coherent ∧ c.Reshapes d ∧ ∀ {id gate}, d.gate? id = some gate → d.Even gate := by
  induction targets generalizing c known with
  | nil => exact Yields.pure ⟨coherent, .refl c, fun found => (others found).resolve_right (by simp)⟩
  | cons target rest ih =>
      obtain ⟨new, nodupRest⟩ := List.nodup_cons.mp nodup
      obtain ⟨⟨decision, children, gate⟩, disjunctionsRest⟩ := List.forall_mem_cons.mp disjunctions
      obtain ⟨node, found, disjunction⟩ := Option.map_eq_some_iff.mp gate
      rw [List.foldlM_cons]
      refine Yields.bind (smoothNode_spec coherent found disjunction tautologies) fun later d result => ?_
      obtain ⟨coherent', reshapes, tautologies', gates⟩ := result
      refine (ih coherent' tautologies' nodupRest (fun id member => ?_) fun {id key} after => ?_).mono
        fun _ e last => ⟨last.1, reshapes.trans last.2.1, last.2.2⟩
      · obtain ⟨decision, children, before⟩ := disjunctionsRest id member
        obtain ⟨others, there⟩ := reshapes.disjunction before
        exact ⟨decision, others, there⟩
      · rcases gates after with even | ⟨differ, before⟩
        · exact .inl even
        · rcases others before with even | member
          · refine .inl ((Circuit.even_congr fun child listed => ?_).mpr even)
            exact reshapes.varsOf (coherent.closed before child listed)
          · exact .inr ((List.mem_cons.mp member).resolve_left differ)

/-- Smoothing a regular circuit succeeds; the circuit is regular and smooth, and its nodes mean what they
meant.
-/
theorem smooth_spec (regular : c.Regular)
    : Yields smooth c fun _ d =>
        d.Regular ∧ (∀ id, d.Smooth id)
        ∧ ∀ {id}, id < c.nodes.size → id < d.nodes.size ∧ d.varsOf id = c.varsOf id
            ∧ ∀ σ, d.Satisfies σ id ↔ c.Satisfies σ id := by
  refine Yields.current ?_
  have rough : ∀ {id node}, c.node? id = some node
      → c.Even node.gate ∨ id ∈ (List.range c.nodes.size).filter fun id =>
          (c.node? id).elim false fun node => node.kind == .or && !node.summary.own.smooth := by
    intro id node found
    by_cases target : node.kind = .or ∧ node.summary.own.smooth = false
    · exact .inr (by simp [found, target, Circuit.lt_of_node? found])
    · exact .inl (regular.even_of_own found fun kind => by simpa [kind] using target)
  dsimp only
  split
  · rename_i none_
    have even : ∀ {id gate}, c.gate? id = some gate → c.Even gate := by
      intro id gate found
      obtain ⟨node, present, rfl⟩ := Option.map_eq_some_iff.mp found
      refine (rough present).resolve_right fun member => ?_
      rw [List.isEmpty_iff] at none_
      simp [none_] at member
    exact Yields.pure ⟨regular, regular.smooth even, fun present => ⟨present, rfl, fun _ => Iff.rfl⟩⟩
  · refine Yields.note ?_
    show Yields ((List.foldlM _ _ _ >>= fun _ => pure ()) >>= fun _ => refreshCircuit) c _
    rw [bind_assoc]
    refine Yields.bind (smoothAll_spec regular.toCoherent (by simp [Tautologies])
      (List.nodup_range.filter _) (fun id member => ?_) fun {id gate} found => ?_) fun _ d result => ?_
    · obtain ⟨_, target⟩ := List.mem_filter.mp member
      cases found : c.node? id with
      | none => simp [found] at target
      | some node =>
          rw [Circuit.gate?_of_node? found]
          cases gate : node.gate with
          | or decision children => exact ⟨decision, children, rfl⟩
          | _ => simp [found, Node.kind, gate, Gate.kind] at target
    · obtain ⟨node, present, rfl⟩ := Option.map_eq_some_iff.mp found
      exact rough present
    · obtain ⟨coherent, reshapes, even⟩ := result
      refine (refreshCircuit_regular coherent).mono fun _ e last => ?_
      obtain ⟨regular', alike⟩ := last
      refine ⟨regular', regular'.smooth fun {id gate} found => ?_, fun present => ?_⟩
      · rw [alike.gate?] at found
        exact (Circuit.even_congr fun child _ => alike.varsOf child).mpr (even found)
      · refine ⟨alike.size.symm ▸ reshapes.lt present, (alike.varsOf _).trans (reshapes.varsOf present),
          fun σ => ?_⟩
        exact alike.satisfies_iff.trans (reshapes.satisfies present)

end Build

end KnowledgeCompiler
