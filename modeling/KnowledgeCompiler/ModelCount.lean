import KnowledgeCompiler.Clause

/-! Exact model counts of small lists of clauses.

Independent components multiply, and the two values of a branching variable add up. A variable
without an occurrence doubles the count.
-/

namespace KnowledgeCompiler.Clauses

/-- Multiplies `total` with the counts of the components, as long as it is not zero. -/
def countProduct (count : Clauses → SortedSet Var → Checked Nat)
    : List (Clauses × SortedSet Var) → Nat → Checked Nat
  | [], total => return total
  | (component, vars) :: rest, total =>
      if total = 0 then return 0
      else do countProduct count rest (total * (← count component vars))

/-- The count of the clauses under one literal. -/
def countUnder (count : Clauses → SortedSet Var → Checked Nat) (clauses : Clauses)
    (rest : SortedSet Var) (l : Lit) : Checked Nat := do
  match ← clauses.condition [l] with
  | none => return 0
  | some conditioned => count conditioned rest

/-- The number of models over `vars`. Every recursive call has fewer variables with an
occurrence, so their number and one more is enough fuel.
-/
def countWithin : Nat → Clauses → SortedSet Var → Checked Nat
  | 0, _, _ => throw .exhausted
  | fuel + 1, clauses, vars => do
      if clauses.any List.isEmpty then
        return 0
      let occurring := clauses.vars
      if vars.size < occurring.size then
        throw .uncoveredVariables
      let scale := Nat.pow 2 (vars.size - occurring.size)
      let parts := clauses.components
      if 1 < parts.length then
        countProduct (countWithin fuel) parts scale
      else
        match clauses.mostOccurring with
        | none => return scale
        | some v => do
            let positive := Lit.word v
            let negative ← Lit.negate positive
            let rest := occurring.erase v
            let high ← countUnder (countWithin fuel) clauses rest positive
            let low ← countUnder (countWithin fuel) clauses rest negative
            return (high + low) * scale

/-- The number of assignments to `vars` that satisfy the clauses. The variables have to cover
those of the clauses.
-/
def modelCount (clauses : Clauses) (vars : SortedSet Var) : Checked Nat :=
  countWithin (clauses.vars.size + 1) clauses vars

/-- The variables that an assumption leaves open. -/
def openVariables (vars : SortedSet Var) (assumption : List Lit)
    : Checked (List Var) :=
  filterChecked
    (fun v => do
      if assumption.contains (Lit.word v) then
        return false
      return !assumption.contains (← Lit.negate (Lit.word v)))
    vars.toList

/-- The number of assignments to `vars` that extend an assumption and satisfy the clauses. -/
def modelCountUnder (clauses : Clauses) (vars : SortedSet Var) (assumption : List Lit)
    : Checked Nat := do
  match ← clauses.condition assumption with
  | none => return 0
  | some conditioned =>
      let free ← openVariables vars assumption
      conditioned.modelCount (SortedSet.ofList free)

end KnowledgeCompiler.Clauses
