import KnowledgeCompiler.Hypergraph

/-! Balanced bisection of a hypergraph by moving single nodes.

A first division puts half of the nodes of a breadth-first sweep on one side. Refinement passes then
move one node after the other, each time the one with the best gain that keeps the balance and has
not moved in the pass, and keep the best division on the way.
-/

namespace KnowledgeCompiler.Hypergraph

-----------------------------------------------------------------------------------------
-- The first division
-----------------------------------------------------------------------------------------

/-- How far a breadth-first sweep has come. -/
structure Sweep where
  /-- The nodes that have been reached. -/
  reached : Array Bool
  /-- The nodes in the order in which they were reached. -/
  order : Array Nat := #[]

/-- Reaches a node, unless it has been reached. -/
def Sweep.reach (sweep : Sweep) (node : Nat) : Sweep :=
  if sweep.reached.getD node true then sweep
  else
    { reached := sweep.reached.setIfInBounds node true, order := sweep.order.push node }

/-- Reaches the neighbours of the nodes from a position of the order on. -/
def Sweep.continueFrom (h : Hypergraph) : Nat → Nat → Sweep → Sweep
  | 0, _, sweep => sweep
  | fuel + 1, head, sweep =>
      match sweep.order[head]? with
      | none => sweep
      | some node =>
          Sweep.continueFrom h fuel (head + 1) ((h.neighbours node).foldl Sweep.reach sweep)

/-- Sweeps everything that can be reached from a node. -/
def Sweep.start (h : Hypergraph) (sweep : Sweep) (origin : Nat) : Sweep :=
  Sweep.continueFrom h (h.nodeCount + 1) sweep.order.size (sweep.reach origin)

/-- All nodes in breadth-first order from a node, then from the smallest one left, and so on. -/
def breadthFirst (h : Hypergraph) (start : Nat) : List Nat :=
  let sweep : Sweep := { reached := Array.replicate h.nodeCount false }
  ((start :: List.range h.nodeCount).foldl (Sweep.start h) sweep).order.toList

/-- The first division. Its sweep starts at the end of a sweep from node zero, far from the middle,
and the first half of the nodes goes to one side.
-/
def firstDivision (h : Hypergraph) : Array Bool :=
  let far := (h.breadthFirst 0).getLast?.getD 0
  ((h.breadthFirst far).take (h.nodeCount / 2)).foldl
    (fun sides node => sides.setIfInBounds node true)
    (Array.replicate h.nodeCount false)

-----------------------------------------------------------------------------------------
-- Refinement
-----------------------------------------------------------------------------------------

/-- A number for each side. -/
structure PerSide where
  /-- The number for the side `false`. -/
  left : Nat
  /-- The number for the side `true`. -/
  right : Nat
  deriving Repr, DecidableEq, Inhabited

/-- The number for a side. -/
def PerSide.on (p : PerSide) (side : Bool) : Nat := if side then p.right else p.left

/-- One fewer on a side and one more on the other. -/
def PerSide.moveFrom (p : PerSide) (side : Bool) : PerSide :=
  if side then { left := p.left + 1, right := p.right - 1 }
  else { left := p.left - 1, right := p.right + 1 }

/-- A pass of refinement. -/
structure Pass where
  /-- The current side of each node. -/
  sides : Array Bool
  /-- The number of pins of each hyperedge on each side. -/
  pinCounts : Array PerSide
  /-- The number of nodes on each side. -/
  sizes : PerSide
  /-- The nodes that have moved. -/
  locked : Array Bool
  /-- The moves, in order. -/
  moves : Array Nat := #[]
  /-- How many hyperedges fewer are cut than at the start. -/
  total : Int := 0
  /-- The best total so far. -/
  best : Int := 0
  /-- The number of moves after which it was reached. -/
  bestMoves : Nat := 0

namespace Pass

/-- The start of a pass. -/
def start (h : Hypergraph) (sides : Array Bool) : Pass :=
  let onRight := fun node => sides.getD node false
  let pinCounts := h.edges.map fun pins =>
    let right := pins.countP onRight
    { left := pins.length - right, right }
  let left := sides.toList.countP (!·)
  { sides, pinCounts, sizes := { left, right := h.nodeCount - left }
    locked := Array.replicate h.nodeCount false }

/-- How many hyperedges fewer are cut when a node changes its side: those of which it is the only pin
on its side are no longer cut, and those that lie on its side are.
-/
def gain (h : Hypergraph) (pass : Pass) (node : Nat) : Int :=
  let side := pass.sides.getD node false
  (h.edgesOf node).foldl
    (fun gain edge =>
      let counts := pass.pinCounts.getD edge default
      if counts.on side = 1 ∧ 0 < counts.on (!side) then gain + 1
      else if counts.on (!side) = 0 ∧ 1 < counts.on side then gain - 1
      else gain)
    0

/-- The node with the best gain, the smallest of those, among the nodes that may move. -/
def bestMove (h : Hypergraph) (largest : Nat) (pass : Pass) : Option (Int × Nat) :=
  (List.range h.nodeCount).foldl
    (fun best node =>
      let side := pass.sides.getD node false
      if pass.locked.getD node true || largest < pass.sizes.on (!side) + 1 then best
      else
        let rated := pass.gain h node
        match best with
        | none => some (rated, node)
        | some (leading, _) => if leading < rated then some (rated, node) else best)
    none

/-- Moves a node to the other side. -/
def move (h : Hypergraph) (pass : Pass) (gain : Int) (node : Nat) : Pass :=
  let side := pass.sides.getD node false
  let total := pass.total + gain
  let moves := pass.moves.push node
  { sides := pass.sides.setIfInBounds node (!side)
    pinCounts := (h.edgesOf node).foldl
      (fun counts edge => counts.modify edge fun n => n.moveFrom side) pass.pinCounts
    sizes := pass.sizes.moveFrom side
    locked := pass.locked.setIfInBounds node true
    moves
    total
    best := if pass.best < total then total else pass.best
    bestMoves := if pass.best < total then moves.size else pass.bestMoves }

/-- Moves nodes until none may move. Each move locks a node and takes a unit of fuel. -/
def run (h : Hypergraph) (largest : Nat) : Nat → Pass → Pass
  | 0, pass => pass
  | fuel + 1, pass =>
      match pass.bestMove h largest with
      | none => pass
      | some (gain, node) => run h largest fuel (pass.move h gain node)

/-- The best division of the pass: the moves after it are undone. -/
def result (pass : Pass) : Array Bool :=
  (pass.moves.toList.drop pass.bestMoves).foldl
    (fun sides node => sides.modify node (!·)) pass.sides

end Pass

/-- A pass of refinement: the improved division, and how many hyperedges fewer it cuts. -/
def refine (h : Hypergraph) (largest : Nat) (sides : Array Bool) : Array Bool × Int :=
  let pass := Pass.run h largest h.nodeCount (Pass.start h sides)
  (pass.result, pass.best)

/-- Refines until a pass brings nothing, for at most `passes` passes. -/
def refineAll (h : Hypergraph) (largest : Nat) : Nat → Array Bool → Array Bool
  | 0, sides => sides
  | passes + 1, sides =>
      let (improved, gain) := h.refine largest sides
      if 0 < gain then refineAll h largest passes improved else improved

/-- The most nodes that a side may have: a share of one half and the imbalance, and room for one half
at least.
-/
def largestSide (nodeCount : Nat) (imbalance : Float) : Nat :=
  let share := (Float.ofNat nodeCount * (0.5 + imbalance)).ceil
  max share.toUInt64.toNat (nodeCount - nodeCount / 2)

/-- A balanced division of the nodes that cuts few hyperedges. -/
def bisect (h : Hypergraph) (imbalance : Float) (passes : Nat) : Array Bool :=
  if h.nodeCount < 2 then Array.replicate h.nodeCount false
  else h.refineAll (largestSide h.nodeCount imbalance) passes h.firstDivision

end KnowledgeCompiler.Hypergraph
