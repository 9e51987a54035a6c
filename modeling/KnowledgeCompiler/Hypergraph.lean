import KnowledgeCompiler.Fault

/-! Hypergraphs and the hyperedges cut by a division of the nodes. -/

namespace KnowledgeCompiler

/-- A hypergraph over the nodes below `nodeCount`. -/
structure Hypergraph where
  /-- Number of nodes. -/
  nodeCount : Nat
  /-- The pins of each hyperedge. -/
  edges : Array (List Nat)
  /-- The hyperedges of each node, once for each time that it is a pin. -/
  incident : Array (List Nat)

namespace Hypergraph

/-- The largest number of nodes for which there is room. -/
def largestNodeCount : Nat := 384307168202282325

/-- The hypergraph of a list of hyperedges. Their pins have to be nodes. -/
def ofEdges (nodeCount : Nat) (edges : List (List Nat)) : Checked Hypergraph :=
  if largestNodeCount < nodeCount then throw .unaddressable
  else if edges.all fun pins => pins.all (· < nodeCount) then
    let incident := edges.zipIdx.foldr
      (fun edge lists => edge.1.foldr (fun pin lists => lists.modify pin (edge.2 :: ·)) lists)
      (Array.replicate nodeCount [])
    return { nodeCount, edges := edges.toArray, incident }
  else throw .pinOutOfRange

/-- The pins of a hyperedge. -/
def pins (h : Hypergraph) (edge : Nat) : List Nat := h.edges.getD edge []

/-- The hyperedges of a node. -/
def edgesOf (h : Hypergraph) (node : Nat) : List Nat := h.incident.getD node []

/-- The pins of the hyperedges of a node. -/
def neighbours (h : Hypergraph) (node : Nat) : List Nat := (h.edgesOf node).flatMap h.pins

/-- The side of a node. -/
def sideOf (sides : Array Bool) (node : Nat) : Checked Bool :=
  match sides[node]? with
  | some side => return side
  | none => throw .sideMissing

/-- Whether pins lie on both sides. -/
def spans (sides : Array Bool) (pins : List Nat) : Checked Bool := do
  if ← pins.anyM (sideOf sides) then
    pins.anyM fun pin => do return !(← sideOf sides pin)
  else return false

/-- The number of hyperedges with pins on both sides. -/
def cut (h : Hypergraph) (sides : Array Bool) : Checked Nat := do
  return (← filterChecked (spans sides) h.edges.toList).length

end Hypergraph

end KnowledgeCompiler
