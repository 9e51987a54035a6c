import KnowledgeCompiler.Clause

/-! Satisfiability of clauses with at most two literals.

A clause of two literals says that the complement of each implies the other. The implications form
a graph on the literals. The clauses are satisfiable exactly if no strongly connected component
holds a literal together with its complement, and a model makes the literal true whose component
comes later in the order of the implications.
-/

namespace KnowledgeCompiler.TwoSat

/-- The implications between numbered literals. -/
structure ImplicationGraph where
  /-- The variables, ascending. Variable number `i` has the literals `2 * i` and `2 * i + 1`. -/
  vars : List Var
  /-- The literals implied by each literal. -/
  implied : Array (List Nat)
  /-- The literals that imply each literal. -/
  implying : Array (List Nat)

/-- The number of a literal; the negative one follows the positive one. -/
def literalNumber (numbers : Std.TreeMap Var Nat) (l : Lit) : Nat :=
  2 * numbers.getD l.var 0 + if l < 0 then 1 else 0

/-- The implications of a clause, from the complement of one literal to the other. A clause of one
literal counts as repeating it; clauses of another length say nothing.
-/
def implications (numbers : Std.TreeMap Var Nat) (clause : Clause) : Checked (List (Nat × Nat)) :=
  let both := fun (a b : Lit) => do
    let notA ← Lit.negate a
    let notB ← Lit.negate b
    return [(literalNumber numbers notA, literalNumber numbers b),
      (literalNumber numbers notB, literalNumber numbers a)]
  match clause with
  | [a] => both a a
  | [a, b] => both a b
  | _ => return []

/-- The lists of successors of `size` nodes, in the order of the edges. -/
def successors (size : Nat) (edges : List (Nat × Nat)) : Array (List Nat) :=
  edges.foldr (fun edge lists => lists.modify edge.1 (edge.2 :: ·)) (Array.replicate size [])

/-- The implication graph of a list of clauses. -/
def ImplicationGraph.ofClauses (clauses : Clauses) : Checked ImplicationGraph := do
  let vars := clauses.vars.toList
  let numbers := Std.TreeMap.ofList vars.zipIdx
  let edges := (← clauses.mapM (implications numbers)).flatten
  let size := 2 * vars.length
  return {
    vars
    implied := successors size edges
    implying := successors size (edges.map Prod.swap)
  }

/-- Where a depth-first search stands. -/
structure Search where
  /-- The literals that have been seen. -/
  seen : Array Bool
  /-- The literals whose search has ended, last one first. -/
  finished : List Nat := []

/-- Searches depth first from a seen literal and then ends it. The fuel bounds the depth, and no
path is longer than the number of literals.
-/
def Search.visit (graph : Array (List Nat)) : Nat → Search → Nat → Search
  | 0, search, _ => search
  | fuel + 1, search, node =>
      let done := (graph.getD node []).foldl
        (fun search next =>
          if search.seen.getD next true then search
          else visit graph fuel { search with seen := search.seen.setIfInBounds next true } next)
        search
      { done with finished := node :: done.finished }

/-- All nodes in the order in which a depth-first search ends them, last one first. -/
def finishingOrder (graph : Array (List Nat)) : List Nat :=
  let size := graph.size
  let done := (List.range size).foldl
    (fun search start =>
      if search.seen.getD start true then search
      else
        Search.visit graph size { search with seen := search.seen.setIfInBounds start true } start)
    ({ seen := Array.replicate size false } : Search)
  done.finished

/-- Gives a label to all nodes without one that can be reached from a labelled node. The fuel
bounds the depth.
-/
def spread (graph : Array (List Nat)) (label : Nat)
    : Nat → Array (Option Nat) → Nat → Array (Option Nat)
  | 0, labels, _ => labels
  | fuel + 1, labels, node =>
      (graph.getD node []).foldl
        (fun labels next =>
          if (labels.getD next (some label)).isSome then labels
          else spread graph label fuel (labels.setIfInBounds next (some label)) next)
        labels

/-- Gives the next label to a node without one and to what can be reached from it. The labels come
with the next one.
-/
def labelFrom (graph : Array (List Nat)) (labels : Array (Option Nat) × Nat) (start : Nat)
    : Array (Option Nat) × Nat :=
  if (labels.1.getD start (some labels.2)).isSome then labels
  else
    (spread graph labels.2 graph.size (labels.1.setIfInBounds start (some labels.2)) start,
      labels.2 + 1)

/-- The number of the strongly connected component of each literal, in the order of the
implications.
-/
def componentNumbers (graph : ImplicationGraph) : Array (Option Nat) :=
  let unlabelled := Array.replicate graph.implied.size none
  ((finishingOrder graph.implied).foldl (labelFrom graph.implying) (unlabelled, 0)).1

/-- The values of the variables, unless one of them shares a component with its complement. -/
def valuesFrom (numbers : Array (Option Nat)) : Nat → List Var → Option (List (Var × Bool))
  | _, [] => some []
  | i, v :: rest =>
      let positive := (numbers.getD (2 * i) none).getD 0
      let negative := (numbers.getD (2 * i + 1) none).getD 0
      if positive = negative then none
      else (valuesFrom numbers (i + 1) rest).map ((v, decide (negative < positive)) :: ·)

/-- A model over the variables of the clauses, ascending, if there is one. -/
def model? (clauses : Clauses) : Checked (Option (List (Var × Bool))) := do
  let graph ← ImplicationGraph.ofClauses clauses
  return valuesFrom (componentNumbers graph) 0 graph.vars

end KnowledgeCompiler.TwoSat
