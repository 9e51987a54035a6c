import KnowledgeCompiler.Action
import KnowledgeCompiler.Hypergraph.Bisection
import KnowledgeCompiler.Residual
import KnowledgeCompiler.VariableForest

/-! Cut sets: variables whose assignment takes a formula apart.

The clauses of a formula are the nodes of a hypergraph and its variables the hyperedges. The variables
that a balanced bisection cuts form the cut set. Formulas that look alike, variable for variable, can
have cut sets at the same places, so a cut set may be replayed from an earlier formula.
-/

namespace KnowledgeCompiler

/-- When cut sets are replayed. -/
inductive ReplayPolicy where
  | never
  | always
  /-- Only for formulas with this many variables or more. -/
  | atLeast (vars : Nat)
  deriving Repr, DecidableEq

/-- Whether cut sets are replayed for a formula with this many variables. -/
def ReplayPolicy.applies : ReplayPolicy → Nat → Bool
  | .never, _ => false
  | .always, _ => true
  | .atLeast least, vars => least ≤ vars

/-- How cut sets are computed. -/
structure CutSetConfig where
  /-- How far a side may exceed one half of the clauses, as a share of them. -/
  imbalance : Float := 0.1
  /-- Whether variables that two binary clauses make equivalent count as one. -/
  mergeEquivalent : Bool := true
  /-- Whether subsumed clauses are left out. -/
  dropSubsumed : Bool := true
  /-- When cut sets are replayed. -/
  replay : ReplayPolicy := .atLeast 8
  /-- Whether signatures tell how much clause lengths vary. -/
  variance : Bool := false
  /-- The largest number of refinement passes. -/
  passes : Nat := 4

/-- A bisection procedure: a side for each node. -/
abbrev Bisector := Hypergraph → Float → Array Bool

/-- What a variable looks like: how often it occurs, and the mean and variance of the lengths of its
clauses in thousandths.
-/
abbrev VariableSignature := List Nat

/-- The source of cut sets, with the cut sets that can be replayed. -/
structure CutSets where
  /-- How cut sets are computed. -/
  config : CutSetConfig
  /-- The bisection procedure. -/
  bisect : Bisector
  /-- For the signatures of a formula's variables the positions of those in its cut set. -/
  replays : List (List VariableSignature × List Nat) := []
  /-- How many cut sets have been asked for. -/
  calls : Nat := 0
  /-- How many of them were replayed. -/
  hits : Nat := 0

namespace CutSets

/-- The source of cut sets with a given bisection procedure. -/
def ofBisector (config : CutSetConfig) (bisect : Bisector) : CutSets := { config, bisect }

/-- The source of cut sets that bisects by refinement passes. -/
def ofConfig (config : CutSetConfig) : CutSets :=
  ofBisector config fun h imbalance => h.bisect imbalance config.passes

-----------------------------------------------------------------------------------------
-- Simplification
-----------------------------------------------------------------------------------------

/-- Whether every literal of one clause is in the other. -/
def subsumes (shorter longer : Clause) : Bool := shorter.all longer.contains

/-- The clauses that no kept clause subsumes, kept in order. -/
def keepUnsubsumed (clauses : Clauses) : Clauses :=
  (clauses.foldl
    (fun kept clause => if kept.any (subsumes · clause) then kept else clause :: kept)
    []).reverse

/-- Leaves out the clauses that another one subsumes. Shorter clauses come first. -/
def dropSubsumed (clauses : Clauses) : Clauses :=
  keepUnsubsumed (dropRepeats (sortBy (fun c d => c.length ≤ d.length) clauses))

/-- The two literals of a binary clause, the smaller one first. -/
def binary? : Clause → Option (Lit × Lit)
  | [a, b] => some (min a b, max a b)
  | _ => none

/-- The pair of the complements, the smaller one first. -/
def complements (pair : Lit × Lit) : Checked (Lit × Lit) := do
  let a ← Lit.negate pair.1
  let b ← Lit.negate pair.2
  return (min a b, max a b)

/-- The binary clauses as pairs of literals, each pair once. -/
def binaryPairs (clauses : Clauses) : List (Lit × Lit) := (clauses.filterMap binary?).eraseDups

/-- Orders in which the members of a set of pairs and the variables of a table are visited. -/
structure Visits where
  /-- The order of some pairs. -/
  pairs : VisitOrder (Lit × Lit)
  /-- The order of some variables. -/
  vars : VisitOrder Var

/-- Everything is visited as it is listed. -/
def Visits.asListed : Visits := ⟨.asListed, .asListed⟩

/-- The pairs of variables that a binary clause and the clause of the complements make equivalent, or opposite, in
the order of the visits.
-/
def equivalentPairs (visits : Visits) (clauses : Clauses) : Checked (List (Var × Var)) := do
  let pairs := binaryPairs clauses
  let linked ← filterChecked (fun pair => do return pairs.contains (← complements pair)) (visits.pairs.visit pairs)
  return linked.map fun pair => (pair.1.var, pair.2.var)

/-- For each variable that is equivalent to another one the smallest of its class, found in the order of the
visits.
-/
def representativesBy (visits : Visits) (clauses : Clauses) : Checked (Std.TreeMap Var Var) := do
  let forest := VariableForest.ofPairs (← equivalentPairs visits clauses)
  return forest.rootTable (visits.vars.visit forest.parents.keys)

/-- For each variable that is equivalent to another one the smallest of its class. -/
def representatives (clauses : Clauses) : Checked (Std.TreeMap Var Var) :=
  representativesBy .asListed clauses

-----------------------------------------------------------------------------------------
-- Computation
-----------------------------------------------------------------------------------------

/-- The clauses for which a cut set is computed. -/
def simplify (config : CutSetConfig) (clauses : Clauses) : Clauses :=
  let nonempty := clauses.filter (!·.isEmpty)
  if config.dropSubsumed then dropSubsumed nonempty else nonempty

/-- The variables that stand for others, if equivalent ones count as one. -/
def mergedVariables (config : CutSetConfig) (clauses : Clauses) : Checked (Std.TreeMap Var Var) :=
  if config.mergeEquivalent then representatives clauses else return ∅

/-- For each variable that stands for itself or for others the positions of its clauses. -/
def pinsByClass (classes : Std.TreeMap Var Var) (clauses : Clauses) : List (Var × List Nat) :=
  (clauses.positionsBy fun l => classes.getD l.var l.var).toList

/-- The hypergraph of clauses and variables, where a variable that stands for others has their clauses. -/
def hypergraph (classes : Std.TreeMap Var Var) (clauses : Clauses) : Checked Hypergraph :=
  Hypergraph.ofEdges clauses.length
    ((pinsByClass classes clauses).map fun edge => dropRepeats edge.2)

/-- The variables of a formula that a bisection of its clauses cuts. If it cuts none, the variable
with the most occurrences is taken.
-/
def compute {ε : Type} (clauses : Clauses) (counts : Std.TreeMap Var Nat)
    : Action ε CutSets (SortedSet Var) := do
  let cuts ← Action.current
  let kept := simplify cuts.config clauses
  let classes ← mergedVariables cuts.config kept
  let h ← hypergraph classes kept
  let sides := cuts.bisect h cuts.config.imbalance
  let spanning ← filterChecked (fun edge => Hypergraph.spans sides edge.2) (pinsByClass classes kept)
  let cutClasses := spanning.map (·.1)
  let separating := counts.keys.filter fun v => cutClasses.contains (classes.getD v v)
  let chosen :=
    if separating.isEmpty then (Clauses.mostFrequent counts).toList else separating
  Action.note (.cutSetComputed chosen.length kept.length (← h.cut sides))
  return SortedSet.ofList chosen

/-- The mean of some lengths, in thousandths. -/
def meanLength (lengths : List Nat) : Float :=
  Float.ofNat (lengths.foldl (· + ·) 0) / Float.ofNat (max lengths.length 1)

/-- The variance of some lengths. -/
def varianceOfLengths (lengths : List Nat) : Float :=
  let mean := meanLength lengths
  let squares := lengths.foldl
    (fun sum length => let d := Float.ofNat length - mean; sum + d * d) 0.0
  squares / Float.ofNat (max lengths.length 1)

/-- A number in thousandths, rounded. -/
def thousandths (x : Float) : Nat := (x * 1000.0).round.toUInt64.toNat

/-- The variables of a formula with their signatures, in the order of the signatures. -/
def signed (config : CutSetConfig) (clauses : Clauses) (counts : Std.TreeMap Var Nat)
    : List (VariableSignature × Var) :=
  let lengths := clauses.lengthsByVariable
  let entries := counts.toList.map fun entry =>
    let own := lengths.getD entry.1 []
    let variance := if config.variance then thousandths (varianceOfLengths own) else 0
    ([entry.2, thousandths (meanLength own), variance], entry.1)
  sortBy (fun a b => inOrder a.1 b.1) entries

/-- A cut set of the residual formula. It is empty only if the formula has no variables. -/
def cutSet {ε : Type} (g : Residual) : Action ε CutSets (SortedSet Var) := do
  Action.update fun cuts => { cuts with calls := cuts.calls + 1 }
  let clauses := g.current
  let counts := g.occurrenceCounts
  if counts.isEmpty then
    return ∅
  let cuts ← Action.current
  if !cuts.config.replay.applies counts.size then
    return ← compute clauses counts
  let vars := signed cuts.config clauses counts
  let key := vars.map (·.1)
  match cuts.replays.lookup key with
  | some positions =>
      let replayed := positions.filterMap fun position => (vars[position]?).map (·.2)
      Action.update fun cuts => { cuts with hits := cuts.hits + 1 }
      Action.note (.cutSetReplayed replayed.length)
      return SortedSet.ofList replayed
  | none =>
      let cut ← compute clauses counts
      let positions := (vars.zipIdx.filter fun entry => cut.contains entry.1.2).map (·.2)
      Action.update fun cuts => { cuts with replays := (key, positions) :: cuts.replays }
      return cut

end CutSets

end KnowledgeCompiler
