import KnowledgeCompiler.ModelCount
import KnowledgeCompiler.Renaming
import KnowledgeCompiler.TwoSat

/-! 2-CNF formulas as leaves of a circuit. -/

namespace KnowledgeCompiler

/-- Clauses of at most two literals. -/
structure TwoCnf where
  /-- The clauses. -/
  clauses : Clauses
  /-- No clause is longer than two literals. -/
  short : ∀ clause ∈ clauses, clause.length ≤ 2
  deriving DecidableEq

namespace TwoCnf

/-- The 2-CNF formula of a list of clauses. -/
def ofClauses (clauses : Clauses) : Checked TwoCnf :=
  if short : ∀ clause ∈ clauses, clause.length ≤ 2 then return { clauses, short }
  else throw .wideClause

/-- The variables of the formula. -/
def vars (formula : TwoCnf) : SortedSet Var := formula.clauses.vars

/-- The number of literal occurrences. -/
def length (formula : TwoCnf) : Nat := formula.clauses.flatten.length

/-- Whether the formula has no clauses. -/
def isEmpty (formula : TwoCnf) : Bool := formula.clauses.isEmpty

/-- The formula with renamed variables, if all of them have an image. -/
def rename? (formula : TwoCnf) (names : Renaming) : Checked (Option TwoCnf) := do
  match ← names.clauses? formula.clauses with
  | none => return none
  | some clauses => return some (← ofClauses clauses)

/-- Whether a model extends the assumption. -/
def isSatisfiable (formula : TwoCnf) (assumption : List Lit) : Checked Bool := do
  match ← formula.clauses.condition assumption with
  | none => return false
  | some clauses => return (← TwoSat.model? clauses).isSome

/-- The number of models over the formula's variables that extend the assumption. -/
def modelCount (formula : TwoCnf) (assumption : List Lit) : Checked Nat :=
  formula.clauses.modelCountUnder formula.vars assumption

end TwoCnf

end KnowledgeCompiler
