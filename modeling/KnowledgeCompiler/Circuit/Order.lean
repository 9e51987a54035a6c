import KnowledgeCompiler.Circuit.Basic

/-! Sub-circuits and the order of their nodes. -/

namespace KnowledgeCompiler.Circuit

/-- Marks what can be reached from the pending nodes. A pending node takes a unit of fuel, and no
node is pending twice, so the number of nodes is enough.
-/
def markReachable (next : NodeId → List NodeId) : Nat → List NodeId → Array Bool → Array Bool
  | 0, _, marks => marks
  | _, [], marks => marks
  | fuel + 1, id :: pending, marks =>
      let (marks, pending) := (next id).foldl
        (fun (marks, pending) other =>
          if marks.getD other true then (marks, pending)
          else (marks.setIfInBounds other true, other :: pending))
        (marks, pending)
      markReachable next fuel pending marks

/-- The marked numbers. -/
def marked (marks : Array Bool) : SortedSet NodeId :=
  ⟨(List.range marks.size).filter (marks.getD · false),
    List.Pairwise.filter _ List.pairwise_lt_range⟩

/-- The nodes that can be reached from a node, itself included. -/
def closure (c : Circuit) (next : Node → List NodeId) (start : NodeId) : SortedSet NodeId :=
  let size := c.nodes.size
  let successors := fun id => (c.node? id).elim [] next
  let marks := (Array.replicate size false).setIfInBounds start true
  marked (markReachable successors size [start] marks)

/-- The nodes of the sub-circuit of a node, itself included. -/
def dominated (c : Circuit) (id : NodeId) : SortedSet NodeId := c.closure Node.children id

/-- The nodes in whose sub-circuit a node lies, itself included. -/
def ancestors (c : Circuit) (id : NodeId) : SortedSet NodeId :=
  c.closure (·.parents.toList) id

/-- How an ordering stands. -/
structure Ordering where
  /-- The nodes in order; those from some position on have not been followed upwards. -/
  order : Array NodeId
  /-- For each node of interest the number of its children that are not in the order yet. -/
  waiting : Array (Option Nat)

/-- Counts one child of a node as done; the node comes next when it was the last one. -/
def Ordering.childDone (state : Ordering) (parent : NodeId) : Ordering :=
  match state.waiting.getD parent none with
  | none => state
  | some count =>
      { order := if count = 1 then state.order.push parent else state.order
        waiting := state.waiting.setIfInBounds parent (some (count - 1)) }

/-- Follows the ordered nodes upwards from position `head` on. A node takes a unit of fuel. -/
def completeOrder (c : Circuit) : Nat → Nat → Ordering → Ordering
  | 0, _, state => state
  | fuel + 1, head, state =>
      match state.order[head]? with
      | none => state
      | some id =>
          let parents := (c.node? id).elim [] (·.parents.toList)
          c.completeOrder fuel (head + 1) (parents.foldl Ordering.childDone state)

/-- Orders a set of nodes so that children come before their parents. First come the nodes without a
child in the set, ascending; then a node comes as soon as its last child has been followed.
-/
def bottomUp (c : Circuit) (ids : SortedSet NodeId) : List NodeId :=
  let size := c.nodes.size
  let inside := ids.toList.foldl (fun marks id => marks.setIfInBounds id true)
    (Array.replicate size false)
  let count := fun id =>
    ((c.node? id).elim [] Node.children).countP fun child => inside.getD child false
  let waiting := ids.toList.foldl (fun counts id => counts.setIfInBounds id (some (count id)))
    (Array.replicate size none)
  let first := ids.toList.filter fun id => count id == 0
  (c.completeOrder size 0 { order := first.toArray, waiting }).order.toList

end KnowledgeCompiler.Circuit

namespace KnowledgeCompiler.Build

/-- The nodes of a sub-circuit, ascending. -/
def dominated (id : NodeId) : Build (SortedSet NodeId) := do
  discard (node id)
  return (← Action.current).dominated id

/-- The nodes of a sub-circuit, children before parents. -/
def topologicalOrder (id : NodeId) : Build (List NodeId) := do
  let ids ← dominated id
  return (← Action.current).bottomUp ids

end KnowledgeCompiler.Build
