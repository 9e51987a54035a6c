import KnowledgeCompiler.Proofs.Reduction
import KnowledgeCompiler.Proofs.Residual.Scopes

/-! What a residual formula shows is the formula under its assignment.

What is left of the clauses is never stored: it follows from the active positions, the values and an index of the
clauses. In every session these belong together, and all views of them agree. A new formula under literals shows what
conditioning its clauses on these literals gives.
-/

namespace KnowledgeCompiler

namespace Residual

variable {g h : Residual}

-----------------------------------------------------------------------------------------
-- Active clauses
-----------------------------------------------------------------------------------------

/-- No active clause has a literal that the values make true. -/
def Unsatisfied (g : Residual) : Prop :=
  ∀ position, position ∈ g.active → ∀ l ∈ g.clauses.getD position [], g.values[l.var]? ≠ some l.isPositive

/-- Nothing becomes true when clauses become inactive. -/
theorem Unsatisfied.of_active (unsatisfied : g.Unsatisfied) (clauses : h.clauses = g.clauses)
    (values : ∀ v : Var, h.values[v]? = g.values[v]?) (active : ∀ position, position ∈ h.active → position ∈ g.active)
    : h.Unsatisfied := by
  intro position member l inside
  rw [values]
  exact unsatisfied position (active position member) l (clauses ▸ inside)

/-- Of a formula without values nothing is true. -/
theorem unsatisfied_of_values (values : g.values = ∅) : g.Unsatisfied := by
  intro position _ l _
  simp [values]

/-- A literal that is assigned is in no clause that stays active. -/
theorem Unsatisfied.assignLiteral (unsatisfied : g.Unsatisfied) (wf : g.WellFormed) (l : Lit)
    : (g.assignLiteral l).Unsatisfied := by
  cases valued : g.values.contains l.var with
  | true =>
      rw [Residual.assignLiteral, if_pos valued]
      exact unsatisfied
  | false =>
      obtain ⟨clauses, _, values, _, active⟩ := assignLiteral_free wf valued
      intro position member k inside
      rw [← SortedSet.mem_toList, active, List.mem_filter] at member
      obtain ⟨before, lacks⟩ := member
      rw [clauses] at inside
      rw [values, Std.TreeMap.getElem?_insert]
      split
      · rename_i same
        intro sign
        have equal : l = k :=
          Lit.eq_of_var_eq (Std.LawfulEqCmp.eq_of_compare same) (Option.some.inj sign)
        rw [equal, List.contains_iff_mem.mpr inside] at lacks
        exact Bool.noConfusion lacks
      · exact unsatisfied position before k inside

/-- Active clauses without a true literal, in a formula whose parts belong together. -/
structure Sane (g : Residual) : Prop where
  wellFormed : g.WellFormed
  unsatisfied : g.Unsatisfied

namespace Sane

theorem ofClauses (clauses : Clauses) : Sane (.ofClauses clauses) :=
  ⟨.ofClauses clauses, unsatisfied_of_values rfl⟩

theorem congr (same : g.SameState h) (sane : h.Sane) : g.Sane where
  wellFormed := by
    obtain ⟨indexed, inRange, recorded⟩ := sane.wellFormed
    refine ⟨by rw [same.positions, same.clauses, indexed], ?_, fun v valued => ?_⟩
    · rw [same.active, same.clauses]
      exact inRange
    · rw [assignment, same.trail]
      refine recorded v ?_
      rwa [Std.TreeMap.contains_eq_isSome_getElem?, ← same.values, ← Std.TreeMap.contains_eq_isSome_getElem?]
  unsatisfied := sane.unsatisfied.of_active same.clauses same.values fun _ member => same.active ▸ member

theorem assign (sane : g.Sane) (literals : List Lit) : (g.assign literals).Sane := by
  induction literals generalizing g with
  | nil => exact sane
  | cons l rest ih => exact ih ⟨sane.wellFormed.assignLiteral l, sane.unsatisfied.assignLiteral sane.wellFormed l⟩

theorem fix (sane : g.Sane) (literals : List Lit) : (g.fix literals).Sane := by
  induction literals generalizing g with
  | nil => exact sane
  | cons l rest ih =>
      obtain ⟨clauses, _, values, active⟩ := fixLiteral_fields g l
      refine ih ⟨sane.wellFormed.fixLiteral l, sane.unsatisfied.of_active clauses (fun _ => by rw [values]) ?_⟩
      exact fun _ member => active ▸ member

theorem restrict (sane : g.Sane) (vars : SortedSet Var) : (g.restrict vars).Sane where
  wellFormed := sane.wellFormed.restrict vars
  unsatisfied := by
    have same := sameBesideActive_restrict g vars
    refine sane.unsatisfied.of_active same.clauses (fun _ => by rw [same.values]) fun position member => ?_
    exact (mem_active_restrict.mp member).1

theorem inside (sane : g.Sane) (opening : Opening) : (opening.inside g).Sane := by
  cases opening with
  | assign literals => exact sane.assign literals
  | fix literals => exact sane.fix literals
  | restrict vars => exact sane.restrict vars
  | part vars => exact ⟨.part g vars, unsatisfied_of_values rfl⟩

end Sane

theorem sane_of_reachable {clauses : Clauses} {s : Session}
    (reachable : Session.Reachable clauses s)
    : s.current.Sane := reachable.holds Sane.congr (fun opening sane => sane.inside opening) (.ofClauses clauses)

-----------------------------------------------------------------------------------------
-- Views
-----------------------------------------------------------------------------------------

/-- All views of a formula agree with its clauses. -/
structure LiveView (g : Residual) : Prop where
  unsatisfied : g.Unsatisfied
  emptyClause : g.hasEmptyClause = true ↔ [] ∈ g.current
  vars : g.vars.toList = g.occurrenceCounts.keys
  occurrences : ∀ v, g.occurrences v = g.occurrenceCounts.getD v 0

theorem Sane.liveView (sane : g.Sane) : g.LiveView where
  unsatisfied := sane.unsatisfied
  emptyClause := hasEmptyClause_iff
  vars := by
    refine SortedSet.ascending_ext g.vars.ascending ?_ fun v => ?_
    · simpa only [Nat.compare_eq_lt] using Std.TreeMap.ordered_keys (t := g.occurrenceCounts)
    · rw [SortedSet.mem_toList, Std.TreeMap.mem_keys]
      exact Clauses.mem_occurrenceCounts.symm
  occurrences v := by
    rw [occurrences_eq sane.wellFormed, Std.TreeMap.getD_eq_getD_getElem?, occurrenceCounts,
      Clauses.getElem?_occurrenceCounts]
    split
    · rfl
    · rename_i absent
      rw [Option.getD_none, List.countP_eq_zero]
      intro l member
      obtain ⟨clause, inside, found⟩ := List.mem_flatten.mp member
      have occurs := Clauses.var_mem_vars inside found
      exact fun same => absent (of_decide_eq_true same ▸ occurs)

/-- In every session that begins with proper clauses, all views of the formula at hand agree. Assigning literals without
a complementary pair to the clauses at first shows what conditioning them gives, which has no result if a clause loses
its last literal.
-/
theorem live_view_conditions {clauses : Clauses} (proper : clauses.Proper)
    : (∀ s, Session.Reachable clauses s → s.current.LiveView)
      ∧ ∀ literals, (∀ l ∈ literals, ¬ -l ∈ literals) →
        let g := (ofClauses clauses).assign literals
        clauses.condition literals = .ok (if g.hasEmptyClause then none else some g.current) := by
  refine ⟨fun s reachable => (sane_of_reachable reachable).liveView, fun literals consistent => ?_⟩
  have shown : ((ofClauses clauses).assign literals).current = clauses.under literals := by
    rw [current_assign (.ofClauses clauses), current_ofClauses, Clauses.assignEach_eq_under consistent]
  rw [Clauses.condition_eq_under proper, ← shown]
  simp only [hasEmptyClause_iff]

/-- Three clauses, under literals that leave something of each clause, and under literals that take all of a clause. -/
theorem live_view_conditions_three_clauses
    : let clauses : Clauses := [[1, 2, -3], [-1, 3, 3], [4]]
      let steps : List Session.Step :=
        [.opened (.assign [1, 1, -1]), .opened (.fix [2, 0]), .opened (.part (.ofList [3])), .opened (.assign [-3])]
      clauses.Proper
      ∧ (Session.run { current := .ofClauses clauses } steps).current.LiveView
      ∧ clauses.condition [2, 1] = .ok (some [[3, 3], [4]])
      ∧ clauses.condition [-3, 1] = .ok none := by
  intro clauses steps
  have proper : ∀ clause ∈ clauses, ∀ l ∈ clause, Lit.Proper l := by decide
  obtain ⟨live, conditioned⟩ := live_view_conditions proper
  refine ⟨proper, live _ ⟨steps, rfl⟩, ?_, ?_⟩
  · exact (conditioned [2, 1] (by decide)).trans (by decide +kernel)
  · exact (conditioned [-3, 1] (by decide)).trans (by decide +kernel)

end Residual

end KnowledgeCompiler
