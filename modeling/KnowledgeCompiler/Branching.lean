import KnowledgeCompiler.Residual

/-! Which variable to branch on, and which variables to probe. -/

namespace KnowledgeCompiler

/-- How a branching variable is chosen. -/
inductive BranchingRule where
  /-- The variable with the most occurrences. -/
  | mostOccurrences
  /-- The variable with the largest weight, where an occurrence weighs a half to the power of the
  length of its clause.
  -/
  | jeroslowWang
  /-- The smallest variable. -/
  | firstCutVariable
  deriving Repr, DecidableEq

/-- The variables to choose from: those of the cut set that occur, or else all. -/
def branchingCandidates (cut : SortedSet Var) (g : Residual) : List Var :=
  let present := cut.toList.filter fun v => 0 < g.occurrences v
  if present.isEmpty then g.vars.toList else present

/-- The first element with the best score. -/
def bestBy {α β : Type} (better : β → β → Bool) (score : α → β) : List α → Option α
  | [] => none
  | a :: rest =>
      let best := rest.foldl
        (fun best b =>
          let rated := score b
          if better rated best.2 then (b, rated) else best)
        (a, score a)
      some best.1

/-- A half to a power. -/
def halfPower (n : Nat) : Float := Nat.repeat (· * 0.5) n 1.0

/-- The sum of the weights of the clauses with a variable. -/
def jeroslowWangWeight (clauses : Clauses) (v : Var) : Float :=
  (clauses.filter fun clause => clause.any fun l => l.var == v).foldl
    (fun sum clause => sum + halfPower clause.length) 0.0

/-- The variable to branch on; nothing if no variable is left. -/
def BranchingRule.choose (rule : BranchingRule) (cut : SortedSet Var) (g : Residual)
    : Option Var :=
  let candidates := branchingCandidates cut g
  match rule with
  | .mostOccurrences =>
      let counts := g.occurrenceCounts
      bestBy (fun n m => m < n) (fun v => counts.getD v 0) candidates
  | .jeroslowWang =>
      let clauses := g.current
      bestBy (fun x y => y < x) (jeroslowWangWeight clauses) candidates
  | .firstCutVariable => candidates.head?

/-- Which variables are probed. -/
inductive ProbingRule where
  /-- All variables without a value. -/
  | all
  /-- The variables with the most occurrences, up to a number of them. -/
  | mostOccurrences (limit : Nat)
  deriving Repr, DecidableEq

/-- The variables to probe among `vars`, in order. -/
def ProbingRule.choose (rule : ProbingRule) (vars : SortedSet Var) (g : Residual)
    : List Var :=
  match rule with
  | .all => vars.toList.filter fun v => !g.isAssigned v
  | .mostOccurrences limit =>
      let counts := g.occurrenceCounts
      let present := vars.toList.filter counts.contains
      (sortBy (fun v w => counts.getD w 0 ≤ counts.getD v 0) present).take limit

end KnowledgeCompiler
