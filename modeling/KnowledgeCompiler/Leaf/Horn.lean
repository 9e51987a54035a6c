import KnowledgeCompiler.ModelCount
import KnowledgeCompiler.Propagation
import KnowledgeCompiler.Renaming
import KnowledgeCompiler.TwoSat

/-! Renamable Horn formulas as leaves of a circuit.

A clause is Horn if it has at most one positive literal. A formula is renamable Horn if flipping
the polarity of some variables makes every clause Horn.
-/

namespace KnowledgeCompiler

/-- The complement of a literal whose variable is flipped, and the literal itself otherwise. -/
def flipLiteral (flipped : SortedSet Var) (l : Lit) : Lit :=
  if flipped.contains l.var then -l else l

/-- Flips a literal, if the result is a literal. -/
def flipChecked (flipped : SortedSet Var) (l : Lit) : Checked Lit :=
  if flipped.contains l.var then Lit.negate l else return l

/-- The number of positive literal occurrences. -/
def Clause.positiveCount (clause : Clause) : Nat := clause.countP Lit.isPositive

/-- All pairs of elements at different positions, the earlier element first. -/
def orderedPairs {α : Type} : List α → List (α × α)
  | [] => []
  | a :: rest => rest.map (a, ·) ++ orderedPairs rest

/-- A set of variables whose flipping makes every clause Horn, if there is one. A literal becomes
positive unless the variable is flipped to make it negative; so for any two literals of a clause
the assignment "flipped" has to satisfy one of them.
-/
def hornRenaming? (clauses : Clauses) : Checked (Option (SortedSet Var)) := do
  let constraints := clauses.flatMap fun clause =>
    (orderedPairs clause).map fun pair => [pair.1, pair.2]
  let model ← TwoSat.model? constraints
  return model.map fun values =>
    SortedSet.ofList ((values.filter (·.2)).map (·.1))

/-- A renamable Horn formula, in its Horn form. -/
structure Horn where
  /-- The clauses after flipping. -/
  clauses : Clauses
  /-- The variables that have been flipped. -/
  flipped : SortedSet Var
  /-- No clause has two positive literals. -/
  horn : ∀ clause ∈ clauses, Clause.positiveCount clause ≤ 1
  deriving DecidableEq

namespace Horn

/-- The Horn formula of a list of clauses and the variables to flip in them. -/
def ofClauses (unflipped : Clauses) (flipped : SortedSet Var) : Checked Horn := do
  let clauses ← unflipped.mapM (List.mapM (flipChecked flipped))
  if horn : ∀ clause ∈ clauses, Clause.positiveCount clause ≤ 1 then return { clauses, flipped, horn }
  else throw .notHorn

/-- The clauses before flipping. -/
def unflipped (formula : Horn) : Clauses :=
  formula.clauses.map (List.map (flipLiteral formula.flipped))

/-- The variables of the formula. -/
def vars (formula : Horn) : SortedSet Var := formula.clauses.vars

/-- The number of literal occurrences. -/
def length (formula : Horn) : Nat := formula.clauses.flatten.length

/-- Whether the formula has no clauses. -/
def isEmpty (formula : Horn) : Bool := formula.clauses.isEmpty

/-- The formula with renamed variables, if all of its variables and all flipped ones have an
image.
-/
def rename? (formula : Horn) (names : Renaming) : Checked (Option Horn) := do
  match ← names.clauses? formula.unflipped with
  | none => return none
  | some clauses =>
      match formula.flipped.toList.mapM names.find? with
      | none => return none
      | some flipped => return some (← ofClauses clauses (SortedSet.ofList flipped))

/-- Whether a model extends the assumption. Unit propagation decides it: at its end, all open
variables can be false in the Horn form.
-/
def isSatisfiable (formula : Horn) (assumption : List Lit) : Checked Bool := do
  let inHornForm ← assumption.mapM (flipChecked formula.flipped)
  let known := formula.vars
  let relevant := inHornForm.filter fun l => known.contains l.var
  return (← (Propagator.ofClauses formula.clauses).propagate relevant).isSome

/-- The number of models over the formula's variables that extend the assumption. -/
def modelCount (formula : Horn) (assumption : List Lit) : Checked Nat := do
  let inHornForm ← assumption.mapM (flipChecked formula.flipped)
  formula.clauses.modelCountUnder formula.vars inHornForm

end Horn

end KnowledgeCompiler
