import KnowledgeCompiler.Circuit.Basic
import KnowledgeCompiler.Proofs.Renaming

/-! The meaning of circuits under total assignments.

A node is satisfied by an assignment if a derivation over its gate and the nodes below it shows so.
Circuits grow: a circuit that extends another one keeps the gates and the derived data of its nodes, and
so their meaning.
-/

namespace KnowledgeCompiler.Circuit

variable {c d e : Circuit} {id : NodeId} {node : Node} {σ τ : Assignment} {gate : Gate}

-----------------------------------------------------------------------------------------
-- Nodes
-----------------------------------------------------------------------------------------

/-- The gate of a node. -/
def gate? (c : Circuit) (id : NodeId) : Option Gate := (c.node? id).map Node.gate

/-- The variables of a node. -/
def varsOf (c : Circuit) (id : NodeId) : SortedSet Var := (c.node? id).elim ∅ Node.vars

/-- The conjuncts of a node. -/
def conjunctsOf (c : Circuit) (id : NodeId) : SortedSet Lit := (c.node? id).elim ∅ Node.conjuncts

theorem node?_isSome : (c.node? id).isSome = true ↔ id < c.nodes.size := by
  simp [node?]

theorem lt_of_node? (found : c.node? id = some node) : id < c.nodes.size :=
  node?_isSome.mp (by simp [found])

theorem exists_node (present : id < c.nodes.size) : ∃ node, c.node? id = some node :=
  Option.isSome_iff_exists.mp (node?_isSome.mpr present)

theorem gate?_eq_none : c.gate? id = none ↔ c.nodes.size ≤ id := by
  simp [gate?, node?]

theorem lt_of_gate? (found : c.gate? id = some gate) : id < c.nodes.size := by
  obtain ⟨node, present, _⟩ := Option.map_eq_some_iff.mp found
  exact lt_of_node? present

theorem gate?_of_node? (found : c.node? id = some node) : c.gate? id = some node.gate := by
  simp [gate?, found]

theorem varsOf_of_node? (found : c.node? id = some node) : c.varsOf id = node.vars := by
  simp [varsOf, found]

/-- Only nodes have variables. -/
theorem lt_of_mem_varsOf {v : Var} (inside : v ∈ c.varsOf id) : id < c.nodes.size := by
  cases found : c.node? id with
  | none => simp [varsOf, found] at inside
  | some node => exact lt_of_node? found

theorem conjunctsOf_of_node? (found : c.node? id = some node)
    : c.conjunctsOf id = node.conjuncts := by
  simp [conjunctsOf, found]

theorem isFalse_iff : c.isFalse id = true ↔ c.gate? id = some (.constant false) := by
  simp only [isFalse, gate?]
  cases c.node? id <;> simp [Node.isFalse]

theorem isFalse_of_gate? (found : c.gate? id = some gate) (other : gate ≠ .constant false) : c.isFalse id = false := by
  refine Bool.eq_false_iff.mpr fun falsum => other ?_
  exact Option.some.inj (found.symm.trans (isFalse_iff.mp falsum))

theorem mem_nodesOf {ids : List NodeId} : node ∈ c.nodesOf ids ↔ ∃ id ∈ ids, c.node? id = some node :=
  List.mem_filterMap

-----------------------------------------------------------------------------------------
-- Satisfaction
-----------------------------------------------------------------------------------------

/-- A node is satisfied by an assignment. A node that renames is satisfied if its child is satisfied by
the assignment seen through the renaming, and a formula leaf if its clauses are true.
-/
inductive Satisfies (c : Circuit) : Assignment → NodeId → Prop
  | constant {σ : Assignment} {id : NodeId} (found : c.gate? id = some (.constant true))
    : Satisfies c σ id
  | literal {σ : Assignment} {id : NodeId} {l : Lit} (found : c.gate? id = some (.literal l))
    (holds : Lit.TrueIn σ l)
    : Satisfies c σ id
  | and {σ : Assignment} {id : NodeId} {children : List NodeId}
    (found : c.gate? id = some (.and children))
    (all : ∀ child ∈ children, Satisfies c σ child)
    : Satisfies c σ id
  | or {σ : Assignment} {id : NodeId} {decision : Option Var} {children : List NodeId} {child : NodeId}
    (found : c.gate? id = some (.or decision children))
    (member : child ∈ children) (holds : Satisfies c σ child)
    : Satisfies c σ id
  | mapping {σ : Assignment} {id : NodeId} {names : Bijection} {child : NodeId}
    (found : c.gate? id = some (.mapping names child))
    (holds : Satisfies c (names.toGlobal.pull σ) child)
    : Satisfies c σ id
  | twoCnf {σ : Assignment} {id : NodeId} {formula : TwoCnf}
    (found : c.gate? id = some (.twoCnf formula))
    (holds : Clauses.TrueIn σ formula.clauses)
    : Satisfies c σ id
  | horn {σ : Assignment} {id : NodeId} {formula : Horn}
    (found : c.gate? id = some (.horn formula))
    (holds : Clauses.TrueIn σ formula.unflipped)
    : Satisfies c σ id

/-- A gate holds under an assignment, in terms of the nodes below it. -/
def Holds (c : Circuit) (σ : Assignment) : Gate → Prop
  | .constant value => value = true
  | .literal l => Lit.TrueIn σ l
  | .and children => ∀ child ∈ children, c.Satisfies σ child
  | .or _ children => ∃ child ∈ children, c.Satisfies σ child
  | .mapping names child => c.Satisfies (names.toGlobal.pull σ) child
  | .twoCnf formula => Clauses.TrueIn σ formula.clauses
  | .horn formula => Clauses.TrueIn σ formula.unflipped

/-- A node is satisfied if its gate holds. -/
theorem satisfies_iff (found : c.gate? id = some gate) : c.Satisfies σ id ↔ c.Holds σ gate := by
  constructor
  · intro satisfied
    cases satisfied with
    | constant other =>
        obtain rfl := Option.some.inj (found.symm.trans other)
        rfl
    | literal other holds =>
        obtain rfl := Option.some.inj (found.symm.trans other)
        exact holds
    | and other all =>
        obtain rfl := Option.some.inj (found.symm.trans other)
        exact all
    | or other member holds =>
        obtain rfl := Option.some.inj (found.symm.trans other)
        exact ⟨_, member, holds⟩
    | mapping other holds =>
        obtain rfl := Option.some.inj (found.symm.trans other)
        exact holds
    | twoCnf other holds =>
        obtain rfl := Option.some.inj (found.symm.trans other)
        exact holds
    | horn other holds =>
        obtain rfl := Option.some.inj (found.symm.trans other)
        exact holds
  · intro holds
    cases gate with
    | constant value =>
        obtain rfl : value = true := holds
        exact .constant found
    | literal l => exact .literal found holds
    | and children => exact .and found holds
    | or decision children =>
        obtain ⟨child, member, satisfied⟩ := holds
        exact .or found member satisfied
    | mapping names child => exact .mapping found holds
    | twoCnf formula => exact .twoCnf found holds
    | horn formula => exact .horn found holds

theorem not_satisfies_of_gate? (missing : c.gate? id = none) : ¬ c.Satisfies σ id := by
  intro satisfied
  cases satisfied <;> simp_all

/-- A gate holds alike over nodes that mean the same. -/
theorem holds_congr (same : ∀ child ∈ gate.children, ∀ σ, d.Satisfies σ child ↔ c.Satisfies σ child)
    : d.Holds σ gate ↔ c.Holds σ gate := by
  cases gate with
  | and children => exact forall_congr' fun child => forall_congr' fun member => same child member σ
  | or decision children =>
      exact exists_congr fun child => and_congr_right fun member => same child member σ
  | mapping names child => exact same child (by simp [Gate.children]) _
  | constant value | literal l | twoCnf formula | horn formula => exact Iff.rfl

theorem not_satisfies_of_isFalse (false_ : c.isFalse id = true) : ¬ c.Satisfies σ id := by
  rw [satisfies_iff (isFalse_iff.mp false_)]
  simp [Holds]

-----------------------------------------------------------------------------------------
-- Growth
-----------------------------------------------------------------------------------------

/-- The second circuit has the nodes of the first one, with their gates and derived data. -/
structure Extends (c d : Circuit) : Prop where
  kept
    : ∀ {id node},
        c.node? id = some node
        → ∃ other, d.node? id = some other ∧ other.gate = node.gate ∧ other.summary = node.summary

theorem Extends.refl (c : Circuit) : c.Extends c := ⟨fun {_ node} found => ⟨node, found, rfl, rfl⟩⟩

theorem Extends.trans (first : c.Extends d) (second : d.Extends e) : c.Extends e := by
  refine ⟨fun {id node} found => ?_⟩
  obtain ⟨middle, present, gate, summary⟩ := first.kept found
  obtain ⟨last, there, gate', summary'⟩ := second.kept present
  exact ⟨last, there, gate'.trans gate, summary'.trans summary⟩

theorem Extends.gate? (grown : c.Extends d) (found : c.gate? id = some gate)
    : d.gate? id = some gate := by
  obtain ⟨node, present, rfl⟩ := Option.map_eq_some_iff.mp found
  obtain ⟨other, there, same, _⟩ := grown.kept present
  rw [gate?_of_node? there, same]

theorem Extends.size_le (grown : c.Extends d) : c.nodes.size ≤ d.nodes.size := by
  by_contra more
  obtain ⟨node, present⟩ := c.exists_node (Nat.not_le.mp more)
  obtain ⟨other, there, _⟩ := grown.kept present
  exact Nat.lt_irrefl _ (lt_of_node? there)

theorem Extends.lt (grown : c.Extends d) (present : id < c.nodes.size) : id < d.nodes.size :=
  Nat.lt_of_lt_of_le present grown.size_le

theorem Extends.varsOf (grown : c.Extends d) (present : id < c.nodes.size)
    : d.varsOf id = c.varsOf id := by
  obtain ⟨node, found⟩ := c.exists_node present
  obtain ⟨other, there, _, summary⟩ := grown.kept found
  rw [varsOf_of_node? found, varsOf_of_node? there, Node.vars, Node.vars, summary]

theorem Extends.conjunctsOf (grown : c.Extends d) (present : id < c.nodes.size)
    : d.conjunctsOf id = c.conjunctsOf id := by
  obtain ⟨node, found⟩ := c.exists_node present
  obtain ⟨other, there, _, summary⟩ := grown.kept found
  rw [conjunctsOf_of_node? found, conjunctsOf_of_node? there, Node.conjuncts, Node.conjuncts, summary]

theorem Extends.gate?_eq (grown : c.Extends d) (present : id < c.nodes.size)
    : d.gate? id = c.gate? id := by
  obtain ⟨node, found⟩ := c.exists_node present
  rw [gate?_of_node? found, grown.gate? (gate?_of_node? found)]

theorem Extends.isFalse (grown : c.Extends d) (present : id < c.nodes.size)
    : d.isFalse id = c.isFalse id := by
  rw [Bool.eq_iff_iff, isFalse_iff, isFalse_iff, grown.gate?_eq present]

/-- The nodes below a node are nodes. -/
def Closed (c : Circuit) : Prop :=
  ∀ {id gate}, c.gate? id = some gate → ∀ child ∈ gate.children, child < c.nodes.size

/-- What is satisfied stays so if no gate is lost; induction on the derivation. -/
theorem Satisfies.mono (kept : ∀ id gate, c.gate? id = some gate → d.gate? id = some gate)
    (satisfied : c.Satisfies σ id)
    : d.Satisfies σ id := by
  induction satisfied with
  | constant found => exact .constant (kept _ _ found)
  | literal found holds => exact .literal (kept _ _ found) holds
  | and found all ih => exact .and (kept _ _ found) ih
  | or found member holds ih => exact .or (kept _ _ found) member ih
  | mapping found holds ih => exact .mapping (kept _ _ found) ih
  | twoCnf found holds => exact .twoCnf (kept _ _ found) holds
  | horn found holds => exact .horn (kept _ _ found) holds

/-- Growth does not change the meaning of a node. Induction on the derivations: what is below a node of
the smaller circuit is in the smaller circuit.
-/
theorem Extends.satisfies_iff (grown : c.Extends d) (closed : c.Closed) (present : id < c.nodes.size)
    : d.Satisfies σ id ↔ c.Satisfies σ id := by
  constructor
  · intro satisfied
    induction satisfied with
    | constant found => exact .constant (grown.gate?_eq present ▸ found)
    | literal found holds => exact .literal (grown.gate?_eq present ▸ found) holds
    | and found all ih =>
        rw [grown.gate?_eq present] at found
        exact .and found fun child member => ih child member (closed found child member)
    | or found member holds ih =>
        rw [grown.gate?_eq present] at found
        exact .or found member (ih (closed found _ member))
    | mapping found holds ih =>
        rw [grown.gate?_eq present] at found
        exact .mapping found (ih (closed found _ (by simp [Gate.children])))
    | twoCnf found holds => exact .twoCnf (grown.gate?_eq present ▸ found) holds
    | horn found holds => exact .horn (grown.gate?_eq present ▸ found) holds
  · exact Satisfies.mono fun _ _ found => grown.gate? found

end KnowledgeCompiler.Circuit
