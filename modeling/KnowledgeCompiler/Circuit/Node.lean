import KnowledgeCompiler.Circuit.Kind
import KnowledgeCompiler.Circuit.Restriction
import KnowledgeCompiler.Leaf.Horn
import KnowledgeCompiler.Leaf.TwoCnf
import KnowledgeCompiler.Sorting

/-! The nodes of a circuit.

A gate says what a node means in terms of its children. Besides its gate a node carries what is
derived from the gate and the children, its parents, and the answers of earlier queries.
-/

namespace KnowledgeCompiler

/-- What a node is. -/
inductive Gate where
  /-- True or false. -/
  | constant (value : Bool)
  /-- A literal. -/
  | literal (l : Lit)
  /-- A conjunction. -/
  | and (children : List NodeId)
  /-- A disjunction, with the variable that it branches on if it is a decision. -/
  | or (decision : Option Var) (children : List NodeId)
  /-- A child under other variable names. -/
  | mapping (names : Bijection) (child : NodeId)
  /-- A 2-CNF formula. -/
  | twoCnf (formula : TwoCnf)
  /-- A renamable Horn formula. -/
  | horn (formula : Horn)
  deriving DecidableEq

namespace Gate

/-- The kind of a gate. -/
def kind : Gate → NodeKind
  | .constant _ => .constant
  | .literal _ => .literal
  | .and _ => .and
  | .or .. => .or
  | .mapping .. => .mapping
  | .twoCnf _ => .twoCnf
  | .horn _ => .horn

/-- The children of a gate, in order. -/
def children : Gate → List NodeId
  | .and children | .or _ children => children
  | .mapping _ child => [child]
  | .constant _ | .literal _ | .twoCnf _ | .horn _ => []

/-- The conjunction or disjunction over other children; other gates stay as they are. -/
def withChildren (gate : Gate) (children : List NodeId) : Gate :=
  match gate with
  | .and _ => .and children
  | .or decision _ => .or decision children
  | _ => gate

/-- The variable that a decision branches on. -/
def decision : Gate → Option Var
  | .or decision _ => decision
  | _ => none

/-- What nodes have in common that may be shared: the gate with its children in ascending order.
Formula leaves are not shared.
-/
def signature? : Gate → Option Gate
  | .and children => some (.and (sortBy inOrder children))
  | .or decision children => some (.or decision (sortBy inOrder children))
  | .twoCnf _ | .horn _ => none
  | gate => some gate

end Gate

/-- What is derived from a gate and the nodes below it. -/
structure Summary where
  /-- The edges and leaf sizes below, counted as a tree, up to the largest 64-bit number. -/
  size : Nat
  /-- The variables below. -/
  vars : SortedSet Var
  /-- The literals below. -/
  literals : SortedSet Lit
  /-- Literals that every model of the node satisfies, by the shape of the circuit. -/
  conjuncts : SortedSet Lit
  /-- The properties of the node itself. -/
  own : Properties
  /-- The properties that the node and all nodes below it have. -/
  throughout : Properties
  deriving DecidableEq

/-- Answers of earlier queries at a node. -/
structure Memo where
  satisfiable : List (Restriction × Bool) := []
  modelCount : List (Restriction × Nat) := []
  cardinality : List (Restriction × Option Nat) := []

/-- A node. -/
structure Node where
  /-- What the node is. -/
  gate : Gate
  /-- The nodes that have this one as a child. -/
  parents : SortedSet NodeId
  /-- What is derived from the gate and the nodes below. -/
  summary : Summary
  /-- Answers of earlier queries. -/
  memo : Memo

namespace Node

/-- The kind of a node. -/
def kind (node : Node) : NodeKind := node.gate.kind

/-- The children of a node, in order. -/
def children (node : Node) : List NodeId := node.gate.children

/-- The size of the sub-circuit, counted as a tree. -/
def size (node : Node) : Nat := node.summary.size

/-- The variables of the sub-circuit. -/
def vars (node : Node) : SortedSet Var := node.summary.vars

/-- The literals that every model satisfies by the shape of the circuit. -/
def conjuncts (node : Node) : SortedSet Lit := node.summary.conjuncts

/-- The properties of the whole sub-circuit. -/
def throughout (node : Node) : Properties := node.summary.throughout

/-- Whether the node is the constant false. -/
def isFalse (node : Node) : Bool := node.gate == .constant false

end Node

end KnowledgeCompiler
