import KnowledgeCompiler.Action
import KnowledgeCompiler.Circuit.Error
import KnowledgeCompiler.Circuit.Sharing
import KnowledgeCompiler.Text.Numeral

/-! Circuits and how nodes are added to them.

A circuit is an array of nodes. Nodes are only ever added; their gates change when an edge is added
or when the circuit is smoothed. A table of signatures lets equal nodes be shared.
-/

namespace KnowledgeCompiler

/-- A circuit. -/
structure Circuit where
  /-- The nodes; the identifier of a node is its position. -/
  nodes : Array Node := #[]
  /-- For each signature the node that is shared for it. -/
  table : SharingTable := {}
  /-- Whether new nodes are shared with equal ones. -/
  sharing : Bool := true
  /-- The root, once it has been chosen. -/
  root : Option NodeId := none
  /-- The language of the sub-circuit of the root. -/
  language : Option Language := none
  /-- The size of the sub-circuit of the root. -/
  size : Nat := 0

/-- The circuit without nodes. -/
def Circuit.empty : Circuit := {}

instance : Inhabited Circuit := ⟨.empty⟩

/-- A computation that builds or queries a circuit. -/
abbrev Build := Action CircuitError Circuit

/-- Whether a checked relation holds between each element and all later ones. The first pair for
which it fails ends the test.
-/
def pairwiseChecked {α : Type} (related : α → α → Checked Bool) : List α → Checked Bool
  | [] => return true
  | a :: rest => do
      if ← List.allM (related a) rest then pairwiseChecked related rest else return false

namespace Summary

/-- Adds sizes, up to the largest 64-bit number. -/
def addSizes (a b : Nat) : Nat := min (a + b) Text.largestWord

/-- The size of a conjunction or disjunction: its edges and the sizes of its children. -/
def innerSize (children : List Node) : Nat :=
  children.foldl (fun size child => addSizes size child.size) children.length

/-- The properties of a node and of all of its children. -/
def propertiesThroughout (own : Properties) (children : List Node) : Properties :=
  children.foldl (fun p child => p.meet child.throughout) own

/-- The summary of a constant. -/
def ofConstant : Summary :=
  { size := 1, vars := ∅, literals := ∅, conjuncts := ∅, own := .all, throughout := .all }

/-- The summary of a literal. -/
def ofLiteral (l : Lit) : Summary :=
  { size := 1, vars := .singleton l.var, literals := .singleton l, conjuncts := .singleton l,
    own := .all, throughout := .all }

/-- The summary of a conjunction. It is decomposable if its children share no variable, that is, if
their numbers of variables add up.
-/
def ofConjunction (children : List Node) : Summary :=
  let vars := SortedSet.unionAll (children.map Node.vars)
  let occurrences := children.foldl (fun count child => count + child.vars.size) 0
  let own := { Properties.all with decomposable := decide (occurrences = vars.size) }
  { size := innerSize children
    vars
    literals := SortedSet.unionAll (children.map fun child => child.summary.literals)
    conjuncts := SortedSet.unionAll (children.map Node.conjuncts)
    own
    throughout := propertiesThroughout own children }

/-- Whether a conjunct of `a` is the complement of a conjunct of `b`. -/
def contradict (a b : Node) : Checked Bool :=
  List.anyM (fun l => do return b.conjuncts.contains (← Lit.negate l)) a.conjuncts.toList

/-- The literals that are conjuncts of all nodes; none if there is no node. -/
def commonConjuncts : List Node → SortedSet Lit
  | [] => ∅
  | first :: rest => rest.foldl (fun common node => common.inter node.conjuncts) first.conjuncts

/-- The summary of a disjunction. Children that are the constant false count for smoothness but not
for determinism.
-/
def ofDisjunction (children : List Node) : Checked Summary := do
  let vars := SortedSet.unionAll (children.map Node.vars)
  let alive := children.filter (!·.isFalse)
  let deterministic ← pairwiseChecked contradict alive
  let smooth := children.all fun child => child.vars == vars
  let own := { Properties.all with deterministic, smooth }
  return {
    size := innerSize children
    vars
    literals := SortedSet.unionAll (children.map fun child => child.summary.literals)
    conjuncts := commonConjuncts alive
    own
    throughout := propertiesThroughout own children
  }

/-- The summary of a child under other variable names. -/
def ofMapping (names : Bijection) (child : Node) : Checked Summary := do
  return {
    size := addSizes child.size 1
    vars := SortedSet.ofList (child.vars.toList.filterMap names.toGlobal.find?)
    literals := SortedSet.ofList (← names.toGlobal.literals child.summary.literals.toList)
    conjuncts := SortedSet.ofList (← names.toGlobal.literals child.conjuncts.toList)
    own := .all
    throughout := child.throughout
  }

/-- The summary of a formula leaf with these clauses. -/
def ofClauses (clauses : Clauses) : Summary :=
  { size := clauses.flatten.length, vars := clauses.vars,
    literals := SortedSet.ofList clauses.flatten, conjuncts := ∅, own := .all, throughout := .all }

end Summary

namespace Circuit

/-- The node with an identifier. -/
def node? (c : Circuit) (id : NodeId) : Option Node := c.nodes[id]?

/-- The nodes with these identifiers. -/
def nodesOf (c : Circuit) (ids : List NodeId) : List Node := ids.filterMap c.node?

/-- Number of nodes. -/
def nodeCount (c : Circuit) : Nat := c.nodes.size

/-- Number of edges. -/
def edgeCount (c : Circuit) : Nat :=
  c.nodes.foldl (fun count node => count + node.children.length) 0

/-- The root node. -/
def rootNode? (c : Circuit) : Option Node := c.root.bind c.node?

/-- The properties of the sub-circuit of the root; without a root, all of them. -/
def properties (c : Circuit) : Properties := c.rootNode?.elim .all Node.throughout

/-- Number of variables below the root. -/
def variableCount (c : Circuit) : Nat := c.rootNode?.elim 0 (·.vars.size)

/-- What is derived for a gate in the circuit as it is. -/
def summarize (c : Circuit) (gate : Gate) : Checked Summary :=
  match gate with
  | .constant _ => return Summary.ofConstant
  | .literal l => return Summary.ofLiteral l
  | .and children => return Summary.ofConjunction (c.nodesOf children)
  | .or _ children => Summary.ofDisjunction (c.nodesOf children)
  | .mapping names child =>
      match c.node? child with
      | some node => Summary.ofMapping names node
      | none => return Summary.ofConstant
  | .twoCnf formula => return Summary.ofClauses formula.clauses
  | .horn formula => return Summary.ofClauses formula.unflipped

/-- The node that a new gate shares, if there is one and nodes are shared. -/
def shared? (c : Circuit) (gate : Gate) : Option NodeId :=
  if c.sharing then gate.signature?.bind fun key => c.table.find? key else none

/-- Registers a node under a signature, unless another one is registered. -/
def register (c : Circuit) (key : Option Gate) (id : NodeId) : Circuit :=
  match key with
  | none => c
  | some key => if (c.table.find? key).isSome then c else { c with table := c.table.insert key id }

/-- Removes a signature under which the node itself is registered. -/
def unregister (c : Circuit) (key : Option Gate) (id : NodeId) : Circuit :=
  match key with
  | none => c
  | some key =>
      if c.table.find? key = some id then { c with table := c.table.erase key } else c

/-- Changes a node. -/
def modifyNode (c : Circuit) (id : NodeId) (change : Node → Node) : Circuit :=
  { c with nodes := c.nodes.modify id change }

/-- Makes `parent` a parent of each of these nodes. -/
def linkParent (c : Circuit) (parent : NodeId) (children : List NodeId) : Circuit :=
  children.foldl
    (fun c child => c.modifyNode child fun node =>
      { node with parents := node.parents.insert parent })
    c

/-- Ends that `parent` is a parent of each of these nodes. -/
def unlinkParent (c : Circuit) (parent : NodeId) (children : List NodeId) : Circuit :=
  children.foldl
    (fun c child => c.modifyNode child fun node =>
      { node with parents := node.parents.erase parent })
    c

/-- Adds a node at the end. -/
def append (c : Circuit) (gate : Gate) (summary : Summary) : Circuit :=
  let id := c.nodes.size
  let linked := c.linkParent id gate.children
  let node := { gate, parents := ∅, summary, memo := {} }
  let extended := { linked with nodes := linked.nodes.push node }
  extended.register gate.signature? id

/-- Gives a node another gate and registers it under the new signature. The derived data stay as
they are.
-/
def replaceGate (c : Circuit) (id : NodeId) (gate : Gate) : Circuit :=
  match c.node? id with
  | none => c
  | some node =>
      let released := c.unregister node.gate.signature? id
      let registered := released.register gate.signature? id
      registered.modifyNode id fun node => { node with gate }

/-- Takes over the language and the size of the root's sub-circuit. -/
def refreshRoot (c : Circuit) : Circuit :=
  match c.rootNode? with
  | none => c
  | some node =>
      { c with language := some (.classify node.throughout), size := node.size }

/-- Whether a node is the constant false. -/
def isFalse (c : Circuit) (id : NodeId) : Bool := (c.node? id).elim false Node.isFalse

end Circuit

namespace Build

/-- The node with an identifier. -/
def node (id : NodeId) : Build Node := do
  match (← Action.current).node? id with
  | some node => return node
  | none => Action.fail (.nodeNotFound id)

/-- Whether a node is the constant false. -/
def isFalse (id : NodeId) : Build Bool := do return (← Action.current).isFalse id

/-- The node of a gate: a shared one, or a new one at the end of the circuit. -/
def insert (gate : Gate) : Build NodeId := do
  let c ← Action.current
  match c.shared? gate with
  | some id => return id
  | none =>
      let id := c.nodes.size
      Action.note (.nodeCreated id gate.kind gate.children.length)
      let summary ← c.summarize gate
      Action.update fun c => c.append gate summary
      return id

/-- The set of the children, in ascending order, if all of them exist. -/
def existing (children : List NodeId) : Build (List NodeId) := do
  let ids := (SortedSet.ofList children).toList
  let c ← Action.current
  match ids.find? fun id => (c.node? id).isNone with
  | some missing => Action.fail (.nodeNotFound missing)
  | none => return ids

/-- A constant. -/
def constant (value : Bool) : Build NodeId := insert (.constant value)

/-- A literal. -/
def literal (l : Lit) : Build NodeId := do
  if l = 0 then
    throw (.fault .zeroLiteral)
  insert (.literal l)

/-- A conjunction; without children the constant true. -/
def conjunction (children : List NodeId) : Build NodeId := do
  match ← existing children with
  | [] => constant true
  | ids => insert (.and ids)

/-- A disjunction; without children the constant false. A decision variable has to occur below one
of the children.
-/
def disjunction (children : List NodeId) (decision : Option Var) : Build NodeId := do
  match ← existing children with
  | [] => constant false
  | ids =>
      let c ← Action.current
      match decision.filter fun v => !(c.nodesOf ids).any fun node => node.vars.contains v with
      | some absent => Action.fail (.variableNotInCircuit absent)
      | none => insert (.or decision ids)

/-- The decision on a variable: `high` if it is true and `low` if it is false. -/
def decision (v : Var) (high low : NodeId) : Build NodeId := do
  let positive ← literal (Lit.word v)
  let negative ← literal (← Lit.negate (Lit.word v))
  let whenTrue ← conjunction [high, positive]
  let whenFalse ← conjunction [low, negative]
  disjunction [whenTrue, whenFalse] (some v)

/-- A child under other variable names. All variables of the child need an image; if each is its own
image, the child itself is the result.
-/
def mapping (child : NodeId) (names : Bijection) : Build NodeId := do
  let vars := (← node child).vars.toList
  match vars.find? fun v => (names.toGlobal.find? v).isNone with
  | some v => Action.fail (.incompleteMapping child v)
  | none =>
      if vars.all fun v => names.toGlobal.find? v == some v then return child
      else insert (.mapping names child)

/-- A 2-CNF leaf; without clauses the constant true. -/
def twoCnf (formula : TwoCnf) : Build NodeId :=
  if formula.isEmpty then constant true else insert (.twoCnf formula)

/-- A Horn leaf; without clauses the constant true. -/
def horn (formula : Horn) : Build NodeId :=
  if formula.isEmpty then constant true else insert (.horn formula)

/-- Switches the sharing of new nodes on or off. -/
def setSharing (on : Bool) : Build Unit := Action.update fun c => { c with sharing := on }

/-- Makes a node the root. -/
def setRoot (id : NodeId) : Build Unit := do
  discard (node id)
  Action.update fun c => { c with root := some id }.refreshRoot

end Build

end KnowledgeCompiler
