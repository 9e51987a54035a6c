import KnowledgeCompiler.Proofs.Circuit.Evaluation
import KnowledgeCompiler.Proofs.Circuit.Exactness

/-! The bookkeeping of circuits.

Between requests, whatever they were and whether they were refused or not, the derived data of all nodes and
what is shown of the root are those of an evaluation from scratch. An edge is added to a conjunction or
disjunction unless it closes a cycle.
-/

namespace KnowledgeCompiler

open Relation
open KnowledgeCompiler.Build
open KnowledgeCompiler.Action (Yields Ensures Computes discard_bind)

namespace Circuit

variable {c d : Circuit} {id source target : NodeId} {node parent : Node} {gate : Gate}

-----------------------------------------------------------------------------------------
-- Circuits that can be refreshed
-----------------------------------------------------------------------------------------

/-- A circuit whose nodes can be summarized: children exist, numbers are in range, and conjuncts have
complements.
-/
structure Refreshable (c : Circuit) : Prop where
  closed : c.Closed
  inRange : c.InRange
  proper : ∀ {id l}, l ∈ c.conjunctsOf id → l.Proper

theorem UpToDate.refreshable (upToDate : c.UpToDate) (inRange : c.InRange) : c.Refreshable :=
  ⟨upToDate.closed, inRange, fun inside => (upToDate.conjunct_sound inRange inside).1⟩

/-- The conjuncts of a gate in range have complements if those of its children have. -/
theorem Refreshable.proper_of_commits {l : Lit} (refreshable : c.Refreshable) (range : gate.InRange)
    (commits : c.Commits l gate)
    : l.Proper := by
  cases gate with
  | constant value | twoCnf formula | horn formula => exact commits.elim
  | literal k =>
      obtain rfl : l = k := commits
      exact range
  | and children =>
      obtain ⟨child, _, inside⟩ := commits
      exact refreshable.proper inside
  | or decision children =>
      obtain ⟨⟨child, member, alive⟩, every⟩ := commits
      exact refreshable.proper (every child member alive)
  | mapping names child =>
      obtain ⟨k, _, image⟩ := commits
      exact (@Renaming.image_eq_some _ (fun _ => false) k l range.1 image).2.2.1

/-- Another gate in range leaves a circuit one that can be refreshed. -/
theorem Refreshable.rewire {new : Gate} (refreshable : c.Refreshable) (rewires : c.Rewires d target gate new)
    (closed : d.Closed) (range : new.InRange)
    : d.Refreshable := by
  refine ⟨closed, fun {id key} found => ?_, fun {id l} inside => ?_⟩
  · rw [rewires.gate?] at found
    split at found
    · exact Option.some.inj found ▸ range
    · exact refreshable.inRange found
  · cases found : d.node? id with
    | none => simp [conjunctsOf, found] at inside
    | some node =>
        obtain ⟨old, before, _, summary, _⟩ := rewires.node? found
        rw [conjunctsOf_of_node? found, Node.conjuncts, summary, ← Node.conjuncts,
          ← conjunctsOf_of_node? before] at inside
        exact refreshable.proper inside

end Circuit

namespace Build

open Circuit

variable {c d : Circuit} {source target : NodeId} {parent child : Node}

/-- A node of a circuit that can be refreshed is refreshed. -/
theorem refresh_yields (refreshable : c.Refreshable) (id : NodeId)
    : Yields (refresh id) c fun _ d => d.Refreshable := by
  refine Yields.current ?_
  split
  · exact Yields.pure refreshable
  · rename_i node found
    have here := gate?_of_node? found
    obtain ⟨summary, done, evaluates⟩ := summarize_evaluates (refreshable.inRange here) (refreshable.closed here)
      fun _ _ _ inside => refreshable.proper inside
    refine Yields.checked done (Yields.updated ?_)
    have wiring : c.SameWiring (c.modifyNode id fun node => { node with summary, memo := {} }) :=
      sameWiring_modifyNode (fun _ => rfl) fun _ => rfl
    refine ⟨fun there child member => ?_, fun there => refreshable.inRange (wiring.gate? _ ▸ there),
      fun {other l} inside => ?_⟩
    · rw [wiring.gate?] at there
      rw [wiring.size]
      exact refreshable.closed there child member
    · by_cases same : id = other
      · subst same
        rw [conjunctsOf, node?_modifyNode, if_pos rfl, found] at inside
        exact refreshable.proper_of_commits (refreshable.inRange here) (evaluates.conjuncts.mp inside)
      · rw [conjunctsOf, node?_modifyNode, if_neg same] at inside
        exact refreshable.proper inside

/-- Induction on the nodes. -/
theorem refreshAll_yields {ids : List NodeId} (refreshable : c.Refreshable)
    : Yields (refreshAll ids) c fun _ _ => True := by
  induction ids generalizing c with
  | nil => exact Yields.pure trivial
  | cons id rest ih =>
      show Yields (refresh id >>= fun _ => refreshAll rest) c _
      exact (refresh_yields refreshable id).bind fun _ d refreshable' => ih refreshable'

-----------------------------------------------------------------------------------------
-- Adding edges
-----------------------------------------------------------------------------------------

/-- Reading a node that is there. -/
theorem node_yields {α : Type} {next : Node → Build α} {post : α → Circuit → Prop} {id : NodeId} {node : Node}
    (found : c.node? id = some node) (then_ : Yields (next node) c post)
    : Yields (Build.node id >>= next) c post := by
  have reads : Yields (Build.node id) c fun here d => here = node ∧ d = c := by
    refine Yields.current ?_
    rw [found]
    exact Yields.pure ⟨rfl, rfl⟩
  refine reads.bind fun here d read => ?_
  rw [read.1, read.2]
  exact then_

theorem node_computes {α : Type} {next : Node → Build α} {result : Outcome α} {id : NodeId} {node : Node}
    (found : c.node? id = some node) (then_ : Computes (· = c) (next node) result)
    : Computes (· = c) (Build.node id >>= next) result := by
  have reads : Computes (· = c) (Build.node id) (.ok node) := by
    refine Computes.current fun d same => ?_
    rw [same, found]
    exact Computes.pure node
  have both : Computes (· = c) (Build.node id >>= next) ((.ok node : Outcome Node) >>= fun _ => result) :=
    reads.bind fun here same => Except.ok.inj same ▸ then_
  exact both

/-- An edge that closes a cycle is refused, and nothing changes. -/
theorem addEdge_refused (found : c.node? source = some parent) (there : c.node? target = some child)
    (inner : parent.kind = .and ∨ parent.kind = .or) (fresh : ¬ target ∈ parent.children)
    (below : source ∈ c.dominated target)
    : Computes (· = c) (addEdge source target) (.error (.error (.cycle source target))) := by
  have kind : (parent.kind != .and && parent.kind != .or) = false := by grind
  refine node_computes found ?_
  rw [discard_bind]
  refine node_computes there ?_
  dsimp only
  rw [kind, if_neg Bool.false_ne_true, if_neg (by simpa using fresh)]
  refine Computes.current fun d same => ?_
  rw [same, if_pos (SortedSet.contains_iff.mpr below)]
  have stopped : Computes (· = c) (Action.fail (.cycle source target) : Build Unit)
      (.error (.error (.cycle source target))) := .throw _
  exact @Computes.bind _ _ _ _ _ _ _ _ (fun _ => .error (.error (.cycle source target))) stopped
    fun _ impossible => by cases impossible

/-- An edge that closes no cycle is added, and no other one. -/
theorem addEdge_yields (upToDate : c.UpToDate) (inRange : c.InRange) (found : c.node? source = some parent)
    (there : c.node? target = some child) (inner : parent.kind = .and ∨ parent.kind = .or)
    (fresh : ¬ target ∈ parent.children) (safe : ¬ source ∈ c.dominated target)
    : Yields (addEdge source target) c fun _ d =>
        ∀ low high, d.IsChild low high ↔ c.IsChild low high ∨ low = target ∧ high = source := by
  have kind : (parent.kind != .and && parent.kind != .or) = false := by grind
  have rewires := @Wired.rewires_extendedBy c source target parent upToDate.toWired found inner
  have wired : (c.extendedBy source target parent).Wired :=
    wired_extendedBy upToDate.toWired found inner (lt_of_node? there) fresh safe
  have size : source < (c.extendedBy source target parent).nodes.size := rewires.size ▸ lt_of_node? found
  have refreshable : (c.extendedBy source target parent).Refreshable :=
    (upToDate.refreshable inRange).rewire rewires wired.closed (Gate.inRange_of_inner (by rwa [kind_withChildren]))
  obtain ⟨started, _, above⟩ := wired.ancestors_spec size
  have others := fun id => @Rewires.derived_outside _ _ id _ _ _ _ rewires upToDate started above
  refine node_yields found ?_
  rw [discard_bind]
  refine node_yields there ?_
  dsimp only
  rw [kind, if_neg Bool.false_ne_true, if_neg (by simpa using fresh)]
  refine Yields.current ?_
  rw [if_neg (by simpa using safe)]
  refine Yields.update ?_
  have succeeds : Yields (refreshUpwards source) (c.extendedBy source target parent) fun _ _ => True :=
    Yields.current (refreshAll_yields refreshable)
  have refreshed := (refreshUpwards_ensures wired size others).yields succeeds
  refine refreshed.bind fun _ d both => Yields.updated fun low high => ?_
  have wiring : (c.extendedBy source target parent).SameWiring d.refreshRoot := both.2.refreshRoot.wiring
  rw [wiring.isChild, rewires.isChild_iff, children_withChildren inner]
  have link : c.IsChild low source ↔ low ∈ parent.children := isChild_iff (gate?_of_node? found)
  by_cases same : source = high
  · subst same
    rw [if_pos rfl, List.mem_append, List.mem_singleton, link]
    simp
  · rw [if_neg same]
    exact ⟨.inl, fun either => either.resolve_right fun new => same new.2.symm⟩

end Build

namespace Circuit

variable {c : Circuit}

-----------------------------------------------------------------------------------------
-- Circuits between requests
-----------------------------------------------------------------------------------------

/-- What adding an edge comes to in every state over a circuit, for a conjunction or disjunction and a node
that is not its child yet: it is refused and nothing changes if the parent is the new child or below it, and
otherwise just this edge is added.
-/
structure EdgeAdded (c : Circuit) (source target : NodeId) : Prop where
  refused
    : ReflTransGen c.IsChild source target
      → ∀ s, s.state = c
      → ∃ t, addEdge source target s = .error (.error (.cycle source target)) t ∧ t.state = c
  added
    : ¬ ReflTransGen c.IsChild source target
      → ∀ s, s.state = c
      → ∃ t, addEdge source target s = .ok () t
        ∧ ∀ low high, t.state.IsChild low high ↔ c.IsChild low high ∨ low = target ∧ high = source

/-- The bookkeeping of a circuit is what an evaluation from scratch gives. -/
structure Faithful (c : Circuit) : Prop where
  acyclic : ∀ id, ¬ TransGen c.IsChild id id
  existing : ∀ {id node}, c.node? id = some node → ∀ child ∈ node.children, child < c.nodes.size
  distinct : ∀ {id node}, c.node? id = some node → node.children.Nodup
  linked
    : ∀ {id node p},
        c.node? id = some node
        → (p ∈ node.parents ↔ ∃ parent, c.node? p = some parent ∧ id ∈ parent.children)
  size
    : c.FormulasFit
      → ∀ {id node}, c.node? id = some node → node.size = min 18446744073709551615 (c.treeSize id)
  recomputed : ∀ {id node}, c.node? id = some node → c.summarize node.gate = .ok node.summary
  evaluated : ∀ {id node}, c.node? id = some node → c.Evaluates node.gate node.summary
  throughout
    : ∀ flag ∈ [Properties.decomposable, Properties.deterministic, Properties.smooth],
        ∀ {id node},
          c.node? id = some node
          → (flag node.throughout = true
            ↔ ∀ {other below}, ReflTransGen c.IsChild other id → c.node? other = some below
              → flag below.summary.own = true)
  root
    : ∀ {id},
        c.root = some id
        → ∃ node, c.node? id = some node ∧ c.language = some (.classify node.throughout) ∧ c.size = node.size
  edges
    : ∀ {source target parent},
        c.node? source = some parent
        → parent.kind = .and ∨ parent.kind = .or
        → target < c.nodes.size
        → ¬ target ∈ parent.children
        → c.EdgeAdded source target

/-- Adding an edge to a consistent circuit. -/
theorem UpToDate.edgeAdded {source target : NodeId} {parent : Node} (upToDate : c.UpToDate) (inRange : c.InRange)
    (found : c.node? source = some parent) (inner : parent.kind = .and ∨ parent.kind = .or)
    (present : target < c.nodes.size) (fresh : ¬ target ∈ parent.children)
    : c.EdgeAdded source target := by
  obtain ⟨child, there⟩ := c.exists_node present
  have dominated : source ∈ c.dominated target ↔ ReflTransGen c.IsChild source target :=
    upToDate.toWired.mem_dominated_iff present
  refine ⟨fun below s same => ?_, fun safe s same => ?_⟩
  · have ended := addEdge_refused found there inner fresh (dominated.mpr below) s same
    cases ran : addEdge source target s with
    | ok _ t =>
        rw [ran] at ended
        cases ended.1
    | error cause t =>
        rw [ran] at ended
        exact ⟨t, by rw [Except.error.inj ended.1], ended.2⟩
  · obtain ⟨_, t, ran, links⟩ :=
      addEdge_yields upToDate inRange found there inner fresh (fun member => safe (dominated.mp member)) s.journal
    refine ⟨t, ?_, links⟩
    rw [← ran, ← same]

/-- Between requests, also after requests that were refused, the derived data of all nodes and what the circuit
shows of its root are those of an evaluation from scratch.
-/
theorem Reachable.faithful (reachable : c.Reachable) (inRange : c.InRange) : c.Faithful := by
  have consistent := reachable.consistent
  have upToDate := consistent.upToDate
  refine {
    acyclic := upToDate.acyclic.not_properlyBelow
    existing := fun found => upToDate.closed (gate?_of_node? found)
    distinct := fun found => upToDate.nodup (gate?_of_node? found)
    linked := fun {id node p} found => ?_
    size := fun fit {id node} found => upToDate.size_eq fit found
    recomputed := fun {id node} found => upToDate.derived id node found
    evaluated := fun {id node} found => upToDate.evaluates inRange found
    throughout := fun flag member {id node} found => ?_
    root := fun {id} chosen => ?_
    edges := upToDate.edgeAdded inRange
  }
  · rw [upToDate.linked found]
    constructor
    · intro link
      obtain ⟨gate, there, inside⟩ := link
      obtain ⟨parent, here, rfl⟩ := Option.map_eq_some_iff.mp there
      exact ⟨parent, here, inside⟩
    · intro some_
      obtain ⟨parent, here, inside⟩ := some_
      exact ⟨parent.gate, gate?_of_node? here, inside⟩
  · simp only [List.mem_cons, List.not_mem_nil, or_false] at member
    rcases member with rfl | rfl | rfl
    · exact upToDate.flag_iff_below (fun _ _ => rfl) rfl found
    · exact upToDate.flag_iff_below (fun _ _ => rfl) rfl found
    · exact upToDate.flag_iff_below (fun _ _ => rfl) rfl found
  · obtain ⟨node, found⟩ := c.exists_node (consistent.rooted.present chosen)
    obtain ⟨language, size⟩ := consistent.rooted.shown chosen found
    exact ⟨node, found, language, size⟩

/-- The run that builds and renames an equivalence leaves a circuit with right bookkeeping. -/
theorem faithful_equivalence : equivalence.state.Faithful :=
  equivalence_reachable.faithful equivalence_inRange

/-- What is derived says the truth about models: those of a node satisfy all of its conjuncts, and none satisfies two
children of a disjunction that is called deterministic itself.
-/
structure Truthful (c : Circuit) : Prop where
  conjuncts : ∀ {id node σ l}, c.node? id = some node → c.Satisfies σ id → l ∈ node.conjuncts → l.TrueIn σ
  exclusive
    : ∀ {id node decision children a b σ},
        c.node? id = some node
        → node.gate = .or decision children
        → node.summary.own.deterministic = true
        → a ∈ children
        → b ∈ children
        → c.Satisfies σ a
        → c.Satisfies σ b
        → a = b

/-- Between requests the conjuncts and the deterministic flag of each node are right, in whatever order nodes and
edges have come. Mapping nodes need not name all variables for that.
-/
theorem Reachable.truthful (reachable : c.Reachable) (inRange : c.InRange) : c.Truthful where
  conjuncts {_ _ σ _} found satisfied inside := by
    rw [← conjunctsOf_of_node? found] at inside
    exact (reachable.consistent.upToDate.conjunct_sound inRange inside).2 σ satisfied
  exclusive found disjunction deterministic left right first second :=
    reachable.consistent.upToDate.eq_of_satisfies_children inRange found disjunction deterministic left right
      first second

/-- The conjuncts and flags of the run that builds and renames an equivalence. -/
theorem truthful_equivalence : equivalence.state.Truthful :=
  equivalence_reachable.truthful equivalence_inRange

end Circuit

end KnowledgeCompiler
