import KnowledgeCompiler.Clause

/-! Derivations by resolution.

A derivation names clauses by their number and resolves them one after the other. Each derived clause
gets the next number, so that later derivations can use it. A list of derivations that reaches the
empty clause is evidence that the clauses have no model, whoever found it.
-/

namespace KnowledgeCompiler

/-- Two clauses resolved on a literal: what is left when the complement of the literal goes from the
first clause and the literal from the second. It follows from the two clauses, whether they have the
literals or not.
-/
def Clause.resolve (clause : Clause) (l : Lit) (other : Clause) : Clause :=
  let rest := clause.filter (· != -l)
  rest ++ other.filter fun k => k != l && !rest.contains k

/-- The derivation of one clause. -/
structure Derivation where
  /-- The number of the clause at the start. -/
  start : Nat
  /-- The literals on which to resolve, each with the number of a clause that has it. -/
  steps : List (Lit × Nat) := []
  deriving Repr, DecidableEq

namespace Derivation

/-- Resolves a clause as the steps say, with a table of the numbered clauses. -/
def follow (table : Array Clause) : List (Lit × Nat) → Clause → Option Clause
  | [], clause => some clause
  | (l, number) :: rest, clause =>
      match table[number]? with
      | none => none
      | some other => follow table rest (clause.resolve l other)

/-- The derived clause, if the numbered clauses exist. -/
def result? (table : Array Clause) (derivation : Derivation) : Option Clause :=
  match table[derivation.start]? with
  | none => none
  | some clause => follow table derivation.steps clause

end Derivation

/-- Whether derivations, each from the numbered clauses and from the ones before it, reach the empty
clause.
-/
def refutes (table : Array Clause) : List Derivation → Bool
  | [] => false
  | derivation :: rest =>
      match derivation.result? table with
      | none => false
      | some [] => true
      | some clause => refutes (table.push clause) rest

end KnowledgeCompiler
