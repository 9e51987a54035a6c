import Std.Data.TreeMap
import KnowledgeCompiler.Literal
import KnowledgeCompiler.SortedSet

/-! Clauses and lists of clauses.

A clause is the disjunction of its literals and a list of clauses their conjunction. Nothing here
asks for a normal form: a clause may repeat a literal or hold a complementary pair.
-/

namespace KnowledgeCompiler

/-- A disjunction of literals. -/
abbrev Clause := List Lit

/-- A conjunction of clauses. -/
abbrev Clauses := List Clause

/-- A clause under an assumption: nothing if a literal of it is assumed, and otherwise the literals
whose complement is not assumed.
-/
def Clause.condition (assumption : List Lit) (clause : Clause) : Checked (Option Clause) := do
  if clause.any assumption.contains then
    return none
  return some (← filterChecked (fun l => do return !assumption.contains (← Lit.negate l)) clause)

namespace Clauses

/-- The variables that occur in the clauses. -/
def vars (clauses : Clauses) : SortedSet Var :=
  SortedSet.ofList (clauses.flatten.map Lit.var)

/-- The clauses under an assumption. Satisfied clauses and falsified literals disappear; there is
no result if a clause loses its last literal.
-/
def condition (assumption : List Lit) : Clauses → Checked (Option Clauses)
  | [] => return some []
  | clause :: rest => do
      match ← clause.condition assumption with
      | none => condition assumption rest
      | some [] => return none
      | some remaining => return (← condition assumption rest).map (remaining :: ·)

/-- How often each variable occurs, repetitions included. -/
def occurrenceCounts (clauses : Clauses) : Std.TreeMap Var Nat :=
  clauses.flatten.foldl
    (fun counts l => counts.alter l.var fun count => some (count.getD 0 + 1)) ∅

/-- The variable with the largest count, the smallest of those that share it. -/
def mostFrequent (counts : Std.TreeMap Var Nat) : Option Var :=
  let best := counts.toList.foldl
    (fun best entry =>
      match best with
      | none => some entry
      | some leader => if leader.2 < entry.2 then some entry else best)
    none
  best.map (·.1)

/-- The variable with the most occurrences, the smallest of those that share the number. -/
def mostOccurring (clauses : Clauses) : Option Var :=
  mostFrequent clauses.occurrenceCounts

/-- The positions of the clauses in which a key of a literal occurs, ascending, and once for each
occurrence.
-/
def positionsBy {κ : Type} [Ord κ] (key : Lit → κ) (clauses : Clauses)
    : Std.TreeMap κ (List Nat) :=
  clauses.zipIdx.foldr
    (fun entry index =>
      entry.1.foldr
        (fun l index => index.alter (key l) fun found => some (entry.2 :: found.getD []))
        index)
    ∅

/-- The lengths of the clauses of each variable, once for each occurrence, in order. -/
def lengthsByVariable (clauses : Clauses) : Std.TreeMap Var (List Nat) :=
  clauses.foldr
    (fun clause lengths =>
      clause.foldr
        (fun l lengths => lengths.alter l.var fun found => some (clause.length :: found.getD []))
        lengths)
    ∅

-----------------------------------------------------------------------------------------
-- Connected components
-----------------------------------------------------------------------------------------

/-- How far the search for one component has come. -/
structure Exploration where
  /-- The positions that some component has claimed. -/
  claimed : Array Bool
  /-- Where the variables occur that no component has reached. -/
  unreached : Std.TreeMap Var (List Nat)
  /-- The claimed positions whose clauses have not been visited, last claimed first. -/
  pending : List Nat
  /-- The visited clauses, last visited first. -/
  members : Clauses

/-- Claims a position for the component, unless it is claimed already. -/
def Exploration.claim (state : Exploration) (position : Nat) : Exploration :=
  if state.claimed.getD position true then state
  else
    { state with
      claimed := state.claimed.setIfInBounds position true
      pending := position :: state.pending }

/-- Claims the clauses of a variable when it is reached for the first time. -/
def Exploration.reach (state : Exploration) (v : Var) : Exploration :=
  match state.unreached[v]? with
  | none => state
  | some positions =>
      positions.foldl Exploration.claim { state with unreached := state.unreached.erase v }

/-- Visits the pending clauses. Each visit uses up one unit of fuel, and no clause is visited
twice, so the number of clauses is enough.
-/
def explore (clauses : Array Clause) : Nat → Exploration → Exploration
  | 0, state => state
  | fuel + 1, state =>
      match state.pending with
      | [] => state
      | position :: pending =>
          let clause := clauses.getD position []
          let visited := { state with pending, members := clause :: state.members }
          explore clauses fuel (clause.foldl (fun state l => state.reach l.var) visited)

/-- The component of the clause at a position, unless it is claimed already, in front of those found
before.
-/
def exploreFrom (clauses : Array Clause) (found : Exploration × List Clauses) (start : Nat)
    : Exploration × List Clauses :=
  if found.1.claimed.getD start true then found
  else
    let done := explore clauses clauses.size { found.1.claim start with members := [] }
    (done, done.members.reverse :: found.2)

/-- The connected components: two clauses belong together if a chain of clauses with common
variables links them. Each component comes with its variables. They are listed by their first
clause; a component lists its clauses in the order of a depth-first search.
-/
def components (clauses : Clauses) : List (Clauses × SortedSet Var) :=
  let table := clauses.toArray
  let nowhere : Exploration :=
    { claimed := Array.replicate table.size false, unreached := clauses.positionsBy Lit.var,
      pending := [], members := [] }
  let found := (List.range table.size).foldl (exploreFrom table) (nowhere, [])
  found.2.reverse.map fun component => (component, component.vars)

end Clauses

end KnowledgeCompiler
