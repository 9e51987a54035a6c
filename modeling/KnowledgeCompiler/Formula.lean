import KnowledgeCompiler.Clause

/-! Formulas in conjunctive normal form over numbered variables. -/

namespace KnowledgeCompiler

/-- A conjunction of clauses over the variables from one to `variableCount`. -/
structure Formula where
  /-- The largest variable. -/
  variableCount : Nat
  /-- The clauses, each with ascending literals and without a complementary pair. -/
  clauses : Clauses := []
  deriving Repr, DecidableEq

namespace Formula

/-- Appends a clause. Repeated literals are merged and a clause with a complementary pair is left
out. The variables grow to cover the clause.
-/
def add (formula : Formula) (literals : List Lit) : Checked Formula := do
  let clause := SortedSet.ofList literals
  if clause.contains 0 then
    throw .zeroLiteral
  if ← hasComplements clause.toList then
    return formula
  return {
    variableCount := clause.toList.foldl (fun count l => max count l.var) formula.variableCount
    clauses := formula.clauses ++ [clause.toList]
  }

/-- The formula of a list of clauses over at least `variableCount` variables. -/
def ofClauses (variableCount : Nat) (clauses : Clauses) : Checked Formula :=
  clauses.foldlM add { variableCount }

/-- The largest variable that a text can name and that the search for models has room for. -/
def largestVariable : Var := 268435456

/-- The variables that occur in a clause. -/
def occurring (formula : Formula) : SortedSet Var := formula.clauses.vars

end Formula

end KnowledgeCompiler
