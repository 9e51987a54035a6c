import KnowledgeCompiler.Proofs.Circuit.Flags
import KnowledgeCompiler.Proofs.Circuit.Regular

/-! Decision variables.

The variable of a decision occurs below the decision. A new decision is checked for that, and what occurs
below a node stays there: nodes are only added, and where a node gets other children, they have what its
children had below them. No conjunction or disjunction is without children.
-/

namespace KnowledgeCompiler

/-- A conjunction or disjunction is not without children. -/
def Gate.Inhabited : Gate → Prop
  | .and children | .or _ children => children ≠ []
  | _ => True

namespace Circuit

variable {c d : Circuit} {id child : NodeId} {gate : Gate} {v : Var}

-----------------------------------------------------------------------------------------
-- Occurrences
-----------------------------------------------------------------------------------------

/-- A variable occurs below a node, under the names that it has there. -/
inductive Occurs (c : Circuit) : Var → NodeId → Prop
  | leaf {v : Var} {id : NodeId} {gate : Gate} (found : c.gate? id = some gate) (childless : gate.children = [])
    (mentioned : c.Mentions v gate)
    : c.Occurs v id
  | child {v : Var} {id child : NodeId} {gate : Gate} (found : c.gate? id = some gate)
    (inner : gate.kind = .and ∨ gate.kind = .or) (member : child ∈ gate.children) (below : c.Occurs v child)
    : c.Occurs v id
  | renamed {u v : Var} {id child : NodeId} {names : Bijection} (found : c.gate? id = some (.mapping names child))
    (image : names.toGlobal.find? u = some v) (below : c.Occurs u child)
    : c.Occurs v id

/-- What a gate without children mentions does not depend on the circuit. -/
theorem mentions_of_childless (childless : gate.children = []) (mentioned : c.Mentions v gate)
    : d.Mentions v gate := by
  cases gate with
  | and children | or decision children =>
      obtain rfl : children = [] := childless
      obtain ⟨child, member, _⟩ := mentioned
      exact absurd member List.not_mem_nil
  | mapping names child => exact absurd childless (List.cons_ne_nil child [])
  | constant value | literal l | twoCnf formula | horn formula => exact mentioned

/-- What occurs below the children that a gate mentions occurs below the gate. -/
theorem occurs_of_mentions (found : c.gate? id = some gate) (mentioned : c.Mentions v gate)
    (below : ∀ child ∈ gate.children, ∀ u, u ∈ c.varsOf child → c.Occurs u child)
    : c.Occurs v id := by
  cases gate with
  | constant value => exact mentioned.elim
  | literal l => exact .leaf found rfl mentioned
  | and children =>
      obtain ⟨child, member, inside⟩ := mentioned
      exact .child found (.inl rfl) member (below child member v inside)
  | or decision children =>
      obtain ⟨child, member, inside⟩ := mentioned
      exact .child found (.inr rfl) member (below child member v inside)
  | mapping names child =>
      obtain ⟨u, inside, image⟩ := mentioned
      exact .renamed found image (below child (List.mem_singleton_self child) u inside)
  | twoCnf formula => exact .leaf found rfl mentioned
  | horn formula => exact .leaf found rfl mentioned

/-- In an up-to-date circuit the variables of a node occur below it; induction from the children upwards. -/
theorem UpToDate.occurs (upToDate : c.UpToDate) (inside : v ∈ c.varsOf id) : c.Occurs v id := by
  induction id using upToDate.acyclic.induction generalizing v with
  | _ id ih =>
      cases found : c.gate? id with
      | none =>
          have missing : c.node? id = none := by simpa [gate?] using found
          simp [varsOf, missing] at inside
      | some gate =>
          exact occurs_of_mentions found ((upToDate.mem_varsOf found).mp inside)
            fun child member u there => ih child ⟨gate, found, member⟩ there

/-- In an up-to-date circuit what occurs below a node is among its variables; induction on the occurrence. -/
theorem UpToDate.mem_varsOf_of_occurs (upToDate : c.UpToDate) (occurs : c.Occurs v id) : v ∈ c.varsOf id := by
  induction occurs with
  | leaf found childless mentioned => exact (upToDate.mem_varsOf found).mpr mentioned
  | @child v id child gate found inner member below ih =>
      refine (upToDate.mem_varsOf found).mpr ?_
      cases gate with
      | and children | or decision children => exact ⟨child, member, ih⟩
      | constant value | literal l | mapping names child | twoCnf formula | horn formula =>
          simp [Gate.kind] at inner
  | @renamed u v id child names found image below ih => exact (upToDate.mem_varsOf found).mpr ⟨u, ih, image⟩

/-- Occurrences stay if all gates stay but conjunctions and disjunctions, and if these keep what occurs below
their children; induction on the occurrence.
-/
theorem Occurs.transport (occurs : c.Occurs v id)
    (others : ∀ {id gate}, c.gate? id = some gate → ¬ (gate.kind = .and ∨ gate.kind = .or)
      → d.gate? id = some gate)
    (inner : ∀ {id gate child v}, c.gate? id = some gate → gate.kind = .and ∨ gate.kind = .or
      → child ∈ gate.children → d.Occurs v child → d.Occurs v id)
    : d.Occurs v id := by
  induction occurs with
  | @leaf v id gate found childless mentioned =>
      refine .leaf (others found fun kind => ?_) childless (mentions_of_childless childless mentioned)
      cases gate with
      | and children | or decision children =>
          obtain rfl : children = [] := childless
          obtain ⟨child, member, _⟩ := mentioned
          exact absurd member List.not_mem_nil
      | constant value | literal l | mapping names child | twoCnf formula | horn formula =>
          simp [Gate.kind] at kind
  | child found kind member _ ih => exact inner found kind member ih
  | renamed found image _ ih => exact .renamed (others found (by simp [Gate.kind])) image ih

theorem Occurs.of_gates (occurs : c.Occurs v id) (kept : ∀ {id gate}, c.gate? id = some gate → d.gate? id = some gate)
    : d.Occurs v id :=
  occurs.transport (fun found _ => kept found) fun found kind member below => .child (kept found) kind member below

-----------------------------------------------------------------------------------------
-- Decisions on variables below
-----------------------------------------------------------------------------------------

/-- A conjunction or disjunction has children, and the variable that a gate decides on, if it does, is a variable
of one of them.
-/
structure Decides (c : Circuit) (gate : Gate) : Prop where
  inhabited : gate.Inhabited
  decides : ∀ v, gate.decision = some v → ∃ child ∈ gate.children, v ∈ c.varsOf child

/-- A gate that is no decision decides nothing. -/
theorem decides_of_none (inhabited : gate.Inhabited) (undecided : gate.decision = none) : c.Decides gate := by
  refine ⟨inhabited, fun v decision => ?_⟩
  rw [undecided] at decision
  cases decision

/-- The check of a decision variable finds nothing to complain about just if the variable is one of a child's. -/
theorem filter_eq_none_iff {decision : Option Var} {ids : List NodeId}
    : decision.filter (fun v => !(c.nodesOf ids).any fun node => node.vars.contains v) = none
      ↔ ∀ v, decision = some v → ∃ child ∈ ids, v ∈ c.varsOf child := by
  have listed : ∀ v, ((c.nodesOf ids).any fun node => node.vars.contains v) = true
      ↔ ∃ child ∈ ids, v ∈ c.varsOf child := by
    intro v
    rw [List.any_eq_true]
    constructor
    · intro some_
      obtain ⟨node, member, inside⟩ := some_
      obtain ⟨child, listed, found⟩ := mem_nodesOf.mp member
      exact ⟨child, listed, varsOf_of_node? found ▸ SortedSet.contains_iff.mp inside⟩
    · intro some_
      obtain ⟨child, member, inside⟩ := some_
      obtain ⟨node, found⟩ := c.exists_node (lt_of_mem_varsOf inside)
      rw [varsOf_of_node? found] at inside
      exact ⟨node, mem_nodesOf.mpr ⟨child, member, found⟩, SortedSet.contains_iff.mpr inside⟩
  cases decision with
  | none => simp
  | some v => simp [Option.filter, ← listed]

/-- The variables of decisions are variables of their nodes, variables of nodes occur below them, and no
conjunction or disjunction is without children.
-/
structure Decided (c : Circuit) : Prop where
  inhabited : ∀ {id gate}, c.gate? id = some gate → gate.Inhabited
  decides : ∀ {id gate v}, c.gate? id = some gate → gate.decision = some v → v ∈ c.varsOf id
  occurs : ∀ {id v}, v ∈ c.varsOf id → c.Occurs v id

theorem Decided.empty : Circuit.empty.Decided where
  inhabited found := by simp [gate?, node?, Circuit.empty] at found
  decides found := by simp [gate?, node?, Circuit.empty] at found
  occurs inside := by simp [varsOf, node?, Circuit.empty] at inside

theorem Decided.of_nodes (decided : c.Decided) (nodes : d.nodes = c.nodes) : d.Decided := by
  have same (id : NodeId) : d.node? id = c.node? id := node?_of_nodes nodes id
  have gates (id : NodeId) : d.gate? id = c.gate? id := congrArg (Option.map Node.gate) (same id)
  have vars (id : NodeId) : d.varsOf id = c.varsOf id := congrArg (Option.elim · ∅ Node.vars) (same id)
  refine ⟨fun found => decided.inhabited (gates _ ▸ found), fun found decides => ?_, fun inside => ?_⟩
  · exact vars _ ▸ decided.decides (gates _ ▸ found) decides
  · exact (decided.occurs (vars _ ▸ inside)).of_gates fun found => gates _ ▸ found

/-- A new node with children, and with a decision, if it has one, on a variable below. -/
theorem Decided.append {summary : Summary} (decided : c.Decided)
    (present : ∀ child ∈ gate.children, child < c.nodes.size) (decides : c.Decides gate)
    (done : c.summarize gate = .ok summary)
    : (c.append gate summary).Decided := by
  have grown : c.Extends (c.append gate summary) := extends_append
  have vars : (c.append gate summary).varsOf c.nodes.size = summary.vars := varsOf_of_node? node?_append_new
  have here : (c.append gate summary).gate? c.nodes.size = some gate := gate?_of_node? node?_append_new
  refine ⟨fun {id key} found => ?_, fun {id key v} found decides' => ?_, fun {id v} inside => ?_⟩
  · rcases gate?_append found with old | ⟨rfl, rfl⟩
    · exact decided.inhabited old
    · exact decides.inhabited
  · rcases gate?_append found with old | ⟨rfl, rfl⟩
    · exact grown.varsOf (lt_of_gate? old) ▸ decided.decides old decides'
    · rw [vars, mem_vars_of_summarize present done]
      cases key with
      | or decision children => exact decides.decides v decides'
      | _ => simp [Gate.decision] at decides'
  · by_cases old : id < c.nodes.size
    · exact (decided.occurs (grown.varsOf old ▸ inside)).of_gates grown.gate?
    · have last : id < c.nodes.size + 1 := size_append ▸ lt_of_mem_varsOf inside
      obtain rfl := (Nat.lt_succ_iff_lt_or_eq.mp last).resolve_left old
      rw [vars, mem_vars_of_summarize present done] at inside
      have mentioned : (c.append gate summary).Mentions v gate := (grown.retains.mentions_iff present).mpr inside
      refine occurs_of_mentions here mentioned fun child member u there => ?_
      rw [grown.varsOf (present child member)] at there
      exact (decided.occurs there).of_gates grown.gate?

/-- Once the derived data are up to date again, the decisions still are on variables below, if their variables
still occur.
-/
theorem Decided.renew (decided : c.Decided) (upToDate : d.UpToDate)
    (inhabited : ∀ {id gate}, d.gate? id = some gate → gate.Inhabited)
    (decisions : ∀ {id gate v}, d.gate? id = some gate → gate.decision = some v
      → ∃ old, c.gate? id = some old ∧ old.decision = some v)
    (occurs : ∀ {id v}, c.Occurs v id → d.Occurs v id)
    : d.Decided where
  inhabited := inhabited
  decides found decides := by
    obtain ⟨old, before, same⟩ := decisions found decides
    exact upToDate.mem_varsOf_of_occurs (occurs (decided.occurs (decided.decides before same)))
  occurs := upToDate.occurs

/-- Another gate with the same decision, if what occurs below the old children occurs below the new ones. -/
theorem Rewires.decided {target : NodeId} {new : Gate} (rewires : c.Rewires d target gate new)
    (old : gate.kind = .and ∨ gate.kind = .or) (inner : new.kind = .and ∨ new.kind = .or)
    (inhabited : gate.Inhabited → new.Inhabited) (decision : new.decision = gate.decision)
    (replaced : ∀ child ∈ gate.children, ∀ v, d.Occurs v child → ∃ other ∈ new.children, d.Occurs v other)
    (decided : c.Decided)
    : d.Decided := by
  have vars : ∀ {id v}, v ∈ d.varsOf id → v ∈ c.varsOf id := by
    intro id v inside
    obtain ⟨node, found⟩ := d.exists_node (lt_of_mem_varsOf inside)
    obtain ⟨here, before, _, summary, _⟩ := rewires.node? found
    rwa [varsOf_of_node? found, Node.vars, summary, ← Node.vars, ← varsOf_of_node? before] at inside
  have vars' : ∀ {id v}, v ∈ c.varsOf id → v ∈ d.varsOf id := by
    intro id v inside
    obtain ⟨node, found⟩ := c.exists_node (lt_of_mem_varsOf inside)
    obtain ⟨other, there, _, summary, _⟩ := rewires.kept found
    rwa [varsOf_of_node? there, Node.vars, summary, ← Node.vars, ← varsOf_of_node? found]
  refine ⟨fun {id key} found => ?_, fun {id key v} found decides => vars' ?_, fun inside => ?_⟩
  · rw [rewires.gate?] at found
    split at found
    · exact Option.some.inj found ▸ inhabited (decided.inhabited rewires.found)
    · exact decided.inhabited found
  · rw [rewires.gate?] at found
    split at found
    · rename_i same
      subst same
      obtain rfl := Option.some.inj found
      exact decided.decides rewires.found (decision ▸ decides)
    · exact decided.decides found decides
  · refine (decided.occurs (vars inside)).transport (fun {id key} found other => ?_)
      fun {id key child v} found kind member below => ?_
    · refine (rewires.other_gate? fun same => other ?_).trans found
      subst same
      obtain rfl := Option.some.inj (rewires.found.symm.trans found)
      exact old
    · by_cases same : target = id
      · subst same
        obtain rfl := Option.some.inj (rewires.found.symm.trans found)
        obtain ⟨other, listed, occurs⟩ := replaced child member v below
        exact .child rewires.target_gate? inner listed occurs
      · exact .child ((rewires.other_gate? same).trans found) kind member below

end Circuit

end KnowledgeCompiler
