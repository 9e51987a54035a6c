import KnowledgeCompiler.Compilation.Component
import KnowledgeCompiler.Proofs.Residual

/-! Splitting in place and splitting into copies.

A restriction keeps the clauses, values and changes of the formula that it comes from, and a part has
residual clauses and no values. `Twins` are residual formulas that come about by the same steps but for
the way of splitting, and twins cannot be told apart.
-/

namespace KnowledgeCompiler.Residual

-----------------------------------------------------------------------------------------
-- Observations
-----------------------------------------------------------------------------------------

/-- All that two residual formulas tell of themselves is equal. -/
structure SameObservations (g h : Residual) : Prop where
  clauses : g.current = h.current
  vars : g.vars = h.vars
  clauseCount : g.clauseCount = h.clauseCount
  isEmpty : g.isEmpty = h.isEmpty
  assignment : g.assignment = h.assignment
  occurrences : ∀ v, g.occurrences v = h.occurrences v
  occurrenceCounts : g.occurrenceCounts = h.occurrenceCounts
  components : g.components = h.components
  hasEmptyClause : g.hasEmptyClause = h.hasEmptyClause
  isTwoCnf : g.isTwoCnf = h.isTwoCnf
  hornRenaming? : g.hornRenaming? = h.hornRenaming?

/-- The same clauses and the same assignment. -/
structure SameViews (g h : Residual) : Prop extends SameView g h where
  assignment : g.assignment = h.assignment

/-- The two views determine all observations. -/
theorem SameViews.sameObservations {g h : Residual} (same : SameViews g h)
    : SameObservations g h where
  clauses := same.current
  vars := same.vars
  clauseCount := same.clauseCount
  isEmpty := same.isEmpty
  assignment := same.assignment
  occurrences := same.occurrences
  occurrenceCounts := same.occurrenceCounts
  components := same.components
  hasEmptyClause := same.hasEmptyClause
  isTwoCnf := same.isTwoCnf
  hornRenaming? := same.hornRenaming?

theorem SameViews.refl {g : Residual} (wf : g.WellFormed) : SameViews g g := ⟨⟨wf, wf, rfl⟩, rfl⟩

-----------------------------------------------------------------------------------------
-- Steps
-----------------------------------------------------------------------------------------

/-- Which variables have values after a literal has been assigned. -/
theorem isAssigned_assignLiteral {g : Residual} (wf : g.WellFormed) (l : Lit) (v : Var)
    : (g.assignLiteral l).isAssigned v = (decide (l.var = v) || g.isAssigned v) := by
  cases valued : g.values.contains l.var with
  | true =>
      rw [assignLiteral, if_pos valued]
      by_cases same : l.var = v
      · subst same
        simpa [isAssigned] using valued
      · simp [same]
  | false =>
      obtain ⟨_, _, values, _⟩ := assignLiteral_free wf valued
      rw [isAssigned, values, contains_insert_value]
      rfl

/-- A literal joins the assignment unless its variable has a value. -/
theorem assignment_assignLiteral {g : Residual} (wf : g.WellFormed) (l : Lit)
    : (g.assignLiteral l).assignment
      = if g.isAssigned l.var then g.assignment else g.assignment ++ [l] := by
  cases valued : g.values.contains l.var with
  | true => rw [assignLiteral, if_pos valued, isAssigned, if_pos valued]
  | false =>
      obtain ⟨_, _, _, trail, _⟩ := assignLiteral_free wf valued
      rw [trail, isAssigned, if_neg (by simp [valued])]

theorem SameViews.assignLiteral {g h : Residual} (same : SameViews g h) {l : Lit}
    (alike : g.isAssigned l.var = h.isAssigned l.var)
    : SameViews (g.assignLiteral l) (h.assignLiteral l) where
  toSameView := same.toSameView.assign [l]
  assignment := by
    rw [assignment_assignLiteral same.left, assignment_assignLiteral same.right, alike,
      same.assignment]

/-- Assigning literals whose variables have values in both formulas or in neither; induction on the
literals.
-/
theorem SameViews.assign {g h : Residual} (same : SameViews g h) {literals : List Lit}
    (alike : ∀ l ∈ literals, g.isAssigned l.var = h.isAssigned l.var)
    : SameViews (g.assign literals) (h.assign literals) := by
  induction literals generalizing g h with
  | nil => exact same
  | cons l rest ih =>
      refine ih (same.assignLiteral (alike l (by simp))) (fun k member => ?_)
      rw [isAssigned_assignLiteral same.left, isAssigned_assignLiteral same.right,
        alike k (by simp [member])]

theorem SameViews.fixLiteral {g h : Residual} (same : SameViews g h) (l : Lit)
    : SameViews (g.fixLiteral l) (h.fixLiteral l) where
  toSameView := same.toSameView.fix [l] [l]
  assignment := by
    rw [assignment_fixLiteral same.left, assignment_fixLiteral same.right, same.assignment]

/-- Fixing depends on the assignment only; induction on the literals. -/
theorem SameViews.fix {g h : Residual} (same : SameViews g h) (literals : List Lit)
    : SameViews (g.fix literals) (h.fix literals) := by
  induction literals generalizing g h with
  | nil => exact same
  | cons l rest ih => exact ih (same.fixLiteral l)

/-- A component of a formula, as a part of its own or in place. -/
def divide (materialize : Bool) (g : Residual) (vars : SortedSet Var) : Residual :=
  if materialize then g.part vars else g.restrict vars

theorem WellFormed.divide {g : Residual} (wf : g.WellFormed) (materialize : Bool)
    (vars : SortedSet Var)
    : (g.divide materialize vars).WellFormed := by
  cases materialize with
  | true => exact WellFormed.part g vars
  | false => exact wf.restrict vars

theorem assignment_divide (materialize : Bool) (g : Residual) (vars : SortedSet Var)
    : (g.divide materialize vars).assignment = g.assignment := by
  cases materialize with
  | true => exact assignment_part g vars
  | false => exact assignment_restrict g vars

/-- Without empty clauses both ways of dividing show the same clauses. -/
theorem current_divide (materialize : Bool) {g : Residual} (nonempty : ¬ [] ∈ g.current)
    (vars : SortedSet Var)
    : (g.divide materialize vars).current = (g.restrict vars).current := by
  cases materialize with
  | true => exact current_part_eq_restrict nonempty vars
  | false => rfl

/-- Setting a component apart divides the formula; the values of the others change the trail only. -/
theorem current_isolate (materialize : Bool) {g : Residual} (nonempty : ¬ [] ∈ g.current)
    (all : SortedSet Var) (model : Option Model) (component : SortedSet Var)
    : (Compiling.isolate materialize g all model component).current
      = (g.restrict component).current :=
  (current_fix (g.divide materialize component) _).trans (current_divide materialize nonempty _)

/-- Dividing both formulas, in the same way if there may be an empty clause. -/
theorem SameViews.divide {g h : Residual} (same : SameViews g h) {materialize materialize' : Bool}
    (alike : g.hasEmptyClause = true → materialize = materialize') (vars : SortedSet Var)
    : SameViews (g.divide materialize vars) (h.divide materialize' vars) := by
  refine ⟨⟨same.left.divide _ _, same.right.divide _ _, ?_⟩, ?_⟩
  · by_cases empty : [] ∈ g.current
    · rw [← alike (hasEmptyClause_iff.mpr empty)]
      cases materialize with
      | true => exact (current_part g vars).trans (same.current ▸ (current_part h vars).symm)
      | false => exact (current_restrict g vars).trans (same.current ▸ (current_restrict h vars).symm)
    · rw [current_divide _ empty, current_divide _ (same.current ▸ empty), current_restrict,
        current_restrict, same.current]
  · rw [assignment_divide, assignment_divide, same.assignment]

-----------------------------------------------------------------------------------------
-- Twins
-----------------------------------------------------------------------------------------

/-- Residual formulas that come about by the same steps, except that each may be divided in its own
way. A formula with an empty clause is divided in the same way on both sides, and a variable that is
assigned has a value on both sides or on neither.
-/
inductive Twins : Residual → Residual → Prop where
  | ofClauses (clauses : Clauses) : Twins (ofClauses clauses) (ofClauses clauses)
  | fix {g h : Residual} (literals : List Lit) (twins : Twins g h)
    : Twins (g.fix literals) (h.fix literals)
  | assign {g h : Residual} {literals : List Lit}
    (alike : ∀ l ∈ literals, g.isAssigned l.var = h.isAssigned l.var) (twins : Twins g h)
    : Twins (g.assign literals) (h.assign literals)
  | divide {g h : Residual} {materialize materialize' : Bool}
    (alike : g.hasEmptyClause = true → materialize = materialize') (vars : SortedSet Var)
    (twins : Twins g h)
    : Twins (g.divide materialize vars) (h.divide materialize' vars)

/-- Twins show the same clauses and the same assignment; induction on the steps. -/
theorem Twins.sameViews {g h : Residual} (twins : Twins g h) : SameViews g h := by
  induction twins with
  | ofClauses clauses => exact SameViews.refl (WellFormed.ofClauses clauses)
  | fix literals _ same => exact same.fix literals
  | assign alike _ same => exact same.assign alike
  | divide alike vars _ same => exact same.divide alike vars

/-- The two conditions on twins are needed. A variable that got its value before the division can get it
again in a part only, and an empty clause is in the restriction only.
-/
theorem not_sameObservations_divide
    : ¬ SameObservations
          ((((ofClauses [[1, 2], [-1, 3], [4, 5]]).assign [1]).divide false (.ofList [3])).assign [1])
          ((((ofClauses [[1, 2], [-1, 3], [4, 5]]).assign [1]).divide true (.ofList [3])).assign [1])
      ∧ ¬ SameObservations ((ofClauses [[1, 2], []]).divide false (.ofList [1, 2]))
          ((ofClauses [[1, 2], []]).divide true (.ofList [1, 2])) :=
  ⟨fun same => absurd same.assignment (by decide),
    fun same => absurd same.hasEmptyClause (by decide)⟩

end KnowledgeCompiler.Residual
