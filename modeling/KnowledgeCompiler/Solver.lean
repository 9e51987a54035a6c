import KnowledgeCompiler.Action
import KnowledgeCompiler.Propagation
import KnowledgeCompiler.Solver.Search

/-! A solver: a formula together with a source of models.

Models come from an oracle. Which model an oracle gives may differ from call to call; what the rest
of the library computes does not depend on it, as long as there is an answer exactly when there is a
model. An oracle has room for the variables up to its limit only.
-/

namespace KnowledgeCompiler

/-- A source of models. -/
structure Oracle where
  /-- The largest variable that the source can represent. -/
  limit : Var
  /-- For the number of the call and an assumption, the literals of a model that extends the assumption,
  if there is one. Variables that the literals do not mention are false.
  -/
  answer : Nat → List Lit → Option (List Lit)

/-- The oracle that searches for models of a formula. -/
def Oracle.ofFormula (formula : Formula) : Oracle :=
  { limit := Formula.largestVariable, answer := fun _ => formula.findModel? }

/-- A solver for one formula. -/
structure Solver where
  /-- The number of variables of the formula. -/
  variableCount : Nat
  /-- The largest variable that the solver has met, in a clause or in an assumption. Models give
  values to the variables up to it.
  -/
  reach : Nat
  /-- The clauses of the formula, for propagation. -/
  propagator : Propagator
  /-- The source of models. -/
  oracle : Oracle
  /-- How often the oracle has been asked. -/
  calls : Nat := 0

namespace Solver

/-- The largest variable of a list of literals, or the given one. -/
def reachOf (reach : Nat) (literals : List Lit) : Nat :=
  literals.foldl (fun reach l => max reach l.var) reach

/-- The solver of a formula with a given oracle. It has no room for variables beyond the limit of the oracle. -/
def ofOracle (formula : Formula) (oracle : Oracle) : Checked Solver :=
  let reach := reachOf 0 formula.clauses.flatten
  if oracle.limit < reach then throw .variableTooLarge
  else return {
    variableCount := formula.variableCount
    reach
    propagator := .ofClauses formula.clauses
    oracle
  }

/-- The solver of a formula. -/
def ofFormula (formula : Formula) : Checked Solver := ofOracle formula (.ofFormula formula)

variable {ε : Type}

/-- Asks the oracle for a model that extends an assignment. Variables beyond those of the formula are
disregarded.
-/
def ask (assignment : List Lit) : Action ε Solver (Option Model) := do
  let solver ← Action.current
  let assumption := assignment.filter fun l => l.var ≤ solver.variableCount
  let reach := reachOf solver.reach assumption
  if solver.oracle.limit < reach then
    throw (.fault .variableTooLarge)
  Action.update fun solver => { solver with reach, calls := solver.calls + 1 }
  return (solver.oracle.answer solver.calls assumption).map (Model.ofLiterals reach)

/-- A model that extends an assignment. An assignment with complementary literals has none. -/
def model? (assignment : List Lit) : Action ε Solver (Option Model) := do
  if ← hasComplements assignment then return none
  else ask assignment

/-- Whether a model extends an assignment. -/
def isSatisfiable (assignment : List Lit) : Action ε Solver Bool := do
  return (← model? assignment).isSome

/-- The candidates that are true in every model that extends an assignment, in order. Each candidate
is put to the test by asking for a model in which it is false. Such a model also rules out the later
candidates that it does not contain.
-/
def backboneAmong (assignment : List Lit) : List Lit → Action ε Solver (List Lit)
  | [] => return []
  | l :: rest => do
      match ← model? (assignment ++ [-l]) with
      | none => return l :: (← backboneAmong assignment rest)
      | some model => backboneAmong assignment (rest.filter model.contains)
termination_by candidates => candidates.length
decreasing_by
  · exact Nat.lt_succ_self _
  · simpa using Nat.lt_succ_of_le (List.length_filter_le _ _)

/-- The literals over unassigned variables that are true in every model that extends an assignment,
by descending variable. There is no result without a model.
-/
def backbone? (assignment : List Lit) : Action ε Solver (Option (List Lit)) := do
  match ← model? assignment with
  | none => return none
  | some model =>
      let candidates := model.literals.filter fun l => !assignment.any fun a => a.var == l.var
      let found ← backboneAmong assignment candidates.reverse
      Action.note (.backbone assignment.length found.length)
      return some found

/-- The literals that follow by unit propagation. -/
def propagate (assignment : List Lit) : Action ε Solver (Option (List Lit)) := do
  (← Action.current).propagator.propagate assignment

/-- The literals that follow by propagation and probing, by variable. -/
def probe (assignment : List Lit) (vars : List Var) (iterate : Bool)
    : Action ε Solver (Option (Std.TreeMap Var Lit)) := do
  (← Action.current).propagator.probe assignment vars iterate

end Solver

end KnowledgeCompiler
