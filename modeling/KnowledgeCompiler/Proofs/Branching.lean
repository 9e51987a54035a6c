import KnowledgeCompiler.Branching
import KnowledgeCompiler.Proofs.Residual
import KnowledgeCompiler.Proofs.Sorting

/-! The variable to branch on occurs in the formula, whatever the rule and the cut set, and there is one
as long as a variable is left. Probing stays within the variables it is offered.
-/

namespace KnowledgeCompiler

/-- Keeping the better of two candidates stays within the candidates; induction on the list. -/
theorem foldl_better_mem {α β : Type} (better : β → β → Bool) (score : α → β) (items : List α)
    (start : α × β)
    : (items.foldl
        (fun best b =>
          let rated := score b
          if better rated best.2 then (b, rated) else best)
        start).1 ∈ start.1 :: items := by
  induction items generalizing start with
  | nil => simp
  | cons b rest ih =>
      rw [List.foldl_cons]
      dsimp only
      split
      · exact List.mem_cons_of_mem _ (ih (b, score b))
      · have found := ih start
        simp only [List.mem_cons] at found ⊢
        exact found.imp_right Or.inr

theorem bestBy_mem {α β : Type} {better : β → β → Bool} {score : α → β} {items : List α} {a : α}
    (best : bestBy better score items = some a)
    : a ∈ items := by
  cases items with
  | nil => simp [bestBy] at best
  | cons first rest =>
      simp only [bestBy, Option.some.injEq] at best
      rw [← best]
      exact foldl_better_mem better score rest (first, score first)

theorem bestBy_isSome {α β : Type} {better : β → β → Bool} {score : α → β} {items : List α}
    (nonempty : items ≠ [])
    : (bestBy better score items).isSome = true := by
  cases items with
  | nil => exact absurd rfl nonempty
  | cons first rest => rfl

/-- The variables of the formula are those with an occurrence. -/
theorem Residual.occurrences_pos_iff {g : Residual} (wf : g.WellFormed) {v : Var}
    : 0 < g.occurrences v ↔ v ∈ g.vars := by
  rw [occurrences_eq wf, List.countP_pos_iff, vars, Clauses.mem_vars]
  constructor
  · rintro ⟨l, member, same⟩
    obtain ⟨clause, inside, found⟩ := List.mem_flatten.mp member
    exact ⟨clause, inside, l, found, by simpa using same⟩
  · rintro ⟨clause, inside, l, found, same⟩
    exact ⟨l, List.mem_flatten.mpr ⟨clause, inside, found⟩, by simpa using same⟩

theorem branchingCandidates_mem {g : Residual} (wf : g.WellFormed) {cut : SortedSet Var} {v : Var}
    (candidate : v ∈ branchingCandidates cut g)
    : v ∈ g.vars := by
  unfold branchingCandidates at candidate
  dsimp only at candidate
  split at candidate
  · exact candidate
  · exact (g.occurrences_pos_iff wf).mp (by simpa using (List.mem_filter.mp candidate).2)

theorem branchingCandidates_ne_nil {g : Residual} {cut : SortedSet Var} {v : Var}
    (member : v ∈ g.vars)
    : branchingCandidates cut g ≠ [] := by
  unfold branchingCandidates
  dsimp only
  split
  · exact List.ne_nil_of_mem (SortedSet.mem_toList.mpr member)
  · rename_i nonempty
    simpa using nonempty

/-- The chosen variable is one of the formula. -/
theorem BranchingRule.choose_mem {g : Residual} (wf : g.WellFormed) {rule : BranchingRule}
    {cut : SortedSet Var} {v : Var} (chosen : rule.choose cut g = some v)
    : v ∈ g.vars := by
  suffices candidate : v ∈ branchingCandidates cut g from branchingCandidates_mem wf candidate
  unfold BranchingRule.choose at chosen
  cases rule with
  | mostOccurrences => exact bestBy_mem chosen
  | jeroslowWang => exact bestBy_mem chosen
  | firstCutVariable => exact List.mem_of_head? chosen

/-- A variable is chosen as long as one is left. -/
theorem BranchingRule.choose_isSome {g : Residual} {rule : BranchingRule} {cut : SortedSet Var}
    {v : Var} (member : v ∈ g.vars)
    : (rule.choose cut g).isSome = true := by
  have candidates : branchingCandidates cut g ≠ [] := branchingCandidates_ne_nil member
  unfold BranchingRule.choose
  cases rule with
  | mostOccurrences => exact bestBy_isSome candidates
  | jeroslowWang => exact bestBy_isSome candidates
  | firstCutVariable => exact List.isSome_head?.mpr candidates

/-- Where clauses are left and none of them is empty, every rule chooses a variable of a current clause, whatever the
cut set.
-/
theorem BranchingRule.exists_choice {g : Residual} (wf : g.WellFormed) (nonempty : ¬ [] ∈ g.current)
    (unfinished : g.current ≠ []) (rule : BranchingRule) (cut : SortedSet Var)
    : ∃ v, rule.choose cut g = some v ∧ v ∈ g.vars := by
  obtain ⟨clause, inside⟩ := List.exists_mem_of_ne_nil _ unfinished
  obtain ⟨l, member⟩ := List.exists_mem_of_ne_nil clause fun same => nonempty (same ▸ inside)
  have some_ := @choose_isSome g rule cut l.var (Clauses.var_mem_vars inside member)
  obtain ⟨v, chosen⟩ := Option.isSome_iff_exists.mp some_
  exact ⟨v, chosen, choose_mem wf chosen⟩

-----------------------------------------------------------------------------------------
-- Probed variables
-----------------------------------------------------------------------------------------

/-- The probed variables are current. -/
theorem ProbingRule.choose_subset (rule : ProbingRule) (g : Residual)
    : ∀ v ∈ rule.choose g.vars g, v ∈ g.vars := by
  intro v member
  cases rule with
  | all => exact SortedSet.mem_toList.mp (List.mem_of_mem_filter member)
  | mostOccurrences limit =>
      have chosen := List.mem_of_mem_take member
      rw [mem_sortBy] at chosen
      exact SortedSet.mem_toList.mp (List.mem_of_mem_filter chosen)

/-- The probed variables depend on the current clauses only. -/
theorem ProbingRule.choose_congr {g h : Residual} (same : Residual.SameView g h) (rule : ProbingRule)
    : rule.choose g.vars g = rule.choose h.vars h := by
  cases rule with
  | all =>
      have free : ∀ {g : Residual}, ProbingRule.all.choose g.vars g = g.vars.toList := by
        intro g
        refine List.filter_eq_self.mpr (fun v member => ?_)
        simpa [Residual.isAssigned] using Residual.value_of_mem_vars (SortedSet.mem_toList.mp member)
      rw [free, free, same.vars]
  | mostOccurrences limit =>
      simp only [ProbingRule.choose, same.vars, same.occurrenceCounts]

-----------------------------------------------------------------------------------------
-- Branches
-----------------------------------------------------------------------------------------

/-- The variable of the literal of a branch is the variable that was chosen. -/
theorem var_of_branch {clauses : Clauses} (tidy : clauses.Tidy) {v : Var} (member : v ∈ clauses.vars)
    {l : Lit} (chosen : l = Lit.word v ∨ Lit.negate (Lit.word v) = .ok l)
    : l.var = v := by
  obtain ⟨positive, small⟩ := tidy.vars_bound member
  have proper : Lit.Proper (v : Int) := ⟨by grind, by simpa [Lit.var] using small⟩
  rw [Lit.word_eq_self small] at chosen
  rcases chosen with rfl | negated
  · rfl
  · rw [proper.negate] at negated
    injection negated with equal
    rw [← equal, Lit.var_neg]
    rfl

end KnowledgeCompiler
