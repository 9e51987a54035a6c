import KnowledgeCompiler.Proofs.Components
import KnowledgeCompiler.Proofs.Materialization
import KnowledgeCompiler.Proofs.Solver

/-! Components in their place within the whole formula.

The trail of a component reduces the whole formula to the clauses of the component. This is kept when
literals over the component are assigned, and when one component of several is set apart with values of
a model for the variables of the others.
-/

namespace KnowledgeCompiler

-----------------------------------------------------------------------------------------
-- Several literals
-----------------------------------------------------------------------------------------

/-- What several literals without a complementary pair leave of clauses. -/
theorem Clauses.mem_assignEach {clauses : Clauses} {literals : List Lit}
    (consistent : ∀ l ∈ literals, ¬ -l ∈ literals) {clause : Clause}
    : clause ∈ clauses.assignEach literals
      ↔ ∃ source ∈ clauses, (∀ l ∈ literals, ¬ l ∈ source) ∧ source.under literals = clause := by
  rw [assignEach_eq_under consistent, mem_under]

/-- More literals, over distinct variables that are not in the trail; induction on the literals. -/
theorem Reduces.assignEach {clauses reduced : Clauses} {trail literals : List Lit}
    (reduces : Reduces clauses trail reduced) (proper : ∀ l ∈ literals, l.Proper)
    (fresh : ∀ l ∈ literals, ∀ k ∈ trail, k.var ≠ l.var) (distinct : (literals.map Lit.var).Nodup)
    : Reduces clauses (trail ++ literals) (reduced.assignEach literals) := by
  induction literals generalizing trail reduced with
  | nil => simpa [Clauses.assignEach] using reduces
  | cons l rest ih =>
      obtain ⟨first, properRest⟩ := List.forall_mem_cons.mp proper
      obtain ⟨freshFirst, freshRest⟩ := List.forall_mem_cons.mp fresh
      obtain ⟨apart, distinctRest⟩ := List.nodup_cons.mp distinct
      have freshGrown : ∀ k ∈ rest, ∀ m ∈ trail ++ [l], m.var ≠ k.var := by
        intro k member m known
        rcases List.mem_append.mp known with old | new
        · exact freshRest k member m old
        · rw [List.mem_singleton.mp new]
          exact fun equal => apart (equal ▸ List.mem_map_of_mem member)
      have done := ih (reduces.assign first freshFirst) properRest freshGrown distinctRest
      rwa [List.append_assoc] at done

namespace Residual

/-- The trail of a residual formula is over variables of a formula and reduces it to the current
clauses.
-/
structure Placed (formula : Formula) (g : Residual) : Prop where
  wellFormed : g.WellFormed
  reduces : Reduces formula.clauses g.assignment g.current
  occurring : ∀ l ∈ g.assignment, l.var ∈ Clauses.vars formula.clauses

variable {formula : Formula} {g : Residual}

theorem Placed.ofClauses (formula : Formula) : Placed formula (ofClauses formula.clauses) where
  wellFormed := .ofClauses _
  reduces := by
    rw [current_ofClauses, assignment_ofClauses]
    exact .refl _
  occurring := by simp

theorem Placed.tidy (placed : g.Placed formula) (normal : formula.Normal) : g.current.Tidy :=
  placed.reduces.tidy normal.tidy

/-- The solver can be asked about the assignment. -/
theorem Placed.asked (placed : g.Placed formula) : Solver.Asked formula g.assignment where
  proper := placed.reduces.proper
  covered l member := Solver.le_occurringReach (placed.occurring l member)
  consistent := placed.reduces.consistent

/-- A literal is assigned whose variable occurs, and which has a value or is not in the trail. -/
theorem Placed.assignLiteral (placed : g.Placed formula) {l : Lit} (proper : l.Proper)
    (occurs : l.var ∈ Clauses.vars formula.clauses)
    (fresh : g.isAssigned l.var = true ∨ ∀ k ∈ g.assignment, k.var ≠ l.var)
    : (g.assignLiteral l).Placed formula := by
  have wf := placed.wellFormed
  cases valued : g.isAssigned l.var with
  | true =>
      have unchanged : g.assignLiteral l = g := if_pos valued
      rw [unchanged]
      exact placed
  | false =>
      have apart := fresh.resolve_left (by simp [valued])
      have trail : (g.assignLiteral l).assignment = g.assignment ++ [l] := by
        rw [assignment_assignLiteral wf, valued]
        rfl
      refine ⟨wf.assignLiteral l, ?_, ?_⟩
      · rw [trail, current_assignLiteral wf]
        exact placed.reduces.assign proper apart
      · rw [trail]
        exact List.forall_mem_append.mpr ⟨placed.occurring, by simpa using occurs⟩

/-- Literals over current variables are assigned; induction on the literals. -/
theorem Placed.assign (placed : g.Placed formula) {literals : List Lit}
    (proper : ∀ l ∈ literals, l.Proper) (inside : ∀ l ∈ literals, l.var ∈ g.vars)
    : (g.assign literals).Placed formula := by
  have occurs : ∀ l ∈ literals, l.var ∈ Clauses.vars formula.clauses := fun l member =>
    placed.reduces.vars_subset (inside l member)
  have fresh : ∀ l ∈ literals, g.isAssigned l.var = true ∨ ∀ k ∈ g.assignment, k.var ≠ l.var :=
    fun l member => .inr fun k known same =>
      placed.reduces.apart known (same ▸ inside l member)
  clear inside
  induction literals generalizing g with
  | nil => exact placed
  | cons l rest ih =>
      obtain ⟨first, properRest⟩ := List.forall_mem_cons.mp proper
      obtain ⟨occursFirst, occursRest⟩ := List.forall_mem_cons.mp occurs
      obtain ⟨freshFirst, freshRest⟩ := List.forall_mem_cons.mp fresh
      refine ih (placed.assignLiteral first occursFirst freshFirst) properRest occursRest ?_
      intro k member
      rw [isAssigned_assignLiteral placed.wellFormed, assignment_assignLiteral placed.wellFormed]
      -- A variable that is new in the trail has got a value with it.
      rcases freshRest k member with valued | apart
      · exact .inl (by simp [valued])
      · by_cases same : l.var = k.var
        · exact .inl (by simp [same])
        · refine .inr (fun m known => ?_)
          split at known
          · exact apart m known
          · rcases List.mem_append.mp known with old | new
            · exact apart m old
            · rw [List.mem_singleton.mp new]
              exact same

/-- A model of the formula that extends the trail still extends it when implied literals are added. -/
theorem Placed.shows_append (placed : g.Placed formula) {model : Model}
    (shows_ : Solver.Shows formula g.assignment model) {more : List Lit}
    (implied : ∀ l ∈ more, Entailed g.current [] l)
    : Solver.Shows formula (g.assignment ++ more) model where
  reach := shows_.reach
  holds := shows_.holds
  extends_ := by
    have model := (placed.reduces.trueIn_iff shows_.extends_).mpr shows_.holds
    exact List.forall_mem_append.mpr
      ⟨shows_.extends_, fun l member => implied l member _ (by simp) model⟩

-----------------------------------------------------------------------------------------
-- Setting a component apart
-----------------------------------------------------------------------------------------

/-- The values that a model gives to the variables outside a component. -/
theorem siblings_spec (placed : g.Placed formula) (normal : formula.Normal) {model : Model}
    (reach : model.reach = Solver.occurringReach formula) (component : SortedSet Var)
    : let others := (SortedSet.unionAll g.components).diff component
      let siblings := others.toList.filterMap model.literal?
      siblings.map Lit.var = others.toList
      ∧ ∀ l, l ∈ siblings ↔ l.Proper ∧ l.var ∈ others ∧ Lit.TrueIn model.assignment l := by
  intro others siblings
  have present : ∀ v, v ∈ others → 0 < v ∧ v < 2147483648 ∧ v ≤ model.reach := by
    intro v member
    have inside : v ∈ g.vars := mem_unionAll_components.mp (SortedSet.mem_diff.mp member).1
    obtain ⟨positive, small⟩ := (placed.tidy normal).vars_bound inside
    refine ⟨positive, small, ?_⟩
    rw [reach]
    exact Solver.le_occurringReach (placed.reduces.vars_subset inside)
  constructor
  · rw [List.map_filterMap]
    conv_rhs => rw [← @List.filterMap_some _ others.toList]
    refine List.filterMap_congr (fun v member => ?_)
    obtain ⟨positive, _, inRange⟩ := present v member
    have found := Model.literal?_eq positive inRange
    rw [found, Option.map_some, (Model.literal?_trueIn found).2.2.1]
  · intro l
    simp only [siblings, List.mem_filterMap, SortedSet.mem_toList]
    constructor
    · rintro ⟨v, member, found⟩
      obtain ⟨_, _, rfl, nonzero, holds⟩ := Model.literal?_trueIn found
      exact ⟨⟨nonzero, (present _ member).2.1⟩, member, holds⟩
    · rintro ⟨proper, member, holds⟩
      refine ⟨l.var, member, ?_⟩
      have found := (Model.contains_iff proper.1 (present _ member).2.2).mpr holds
      simpa [Model.contains] using found

/-- The trail of a component that is set apart. -/
theorem assignment_isolate (placed : g.Placed formula) (normal : formula.Normal) {model : Model}
    (reach : model.reach = Solver.occurringReach formula) (materialize : Bool)
    (component : SortedSet Var)
    : (Compiling.isolate materialize g (SortedSet.unionAll g.components) (some model)
        component).assignment
      = g.assignment
        ++ ((SortedSet.unionAll g.components).diff component).toList.filterMap model.literal? := by
  obtain ⟨vars, members⟩ := siblings_spec placed normal reach component
  have wf := placed.wellFormed.divide materialize component
  have start : (g.divide materialize component).assignment = g.assignment :=
    assignment_divide materialize g component
  rw [← start]
  refine assignment_fix wf ?_ ?_
  · intro l member k known same
    rw [assignment_divide] at known
    have inside : l.var ∈ g.vars :=
      mem_unionAll_components.mp (SortedSet.mem_diff.mp ((members l).mp member).2.1).1
    exact placed.reduces.apart known (same ▸ inside)
  · rw [vars]
    exact SortedSet.nodup _

/-- A component that is set apart is in its place. The clauses of the other components are satisfied by
the model, and those of the component do not see its values.
-/
theorem Placed.isolate (placed : g.Placed formula) (normal : formula.Normal) {model : Model}
    (shows_ : Solver.Shows formula g.assignment model) (nonempty : ¬ [] ∈ g.current)
    (materialize : Bool) {component : SortedSet Var} (found : component ∈ g.components)
    : (Compiling.isolate materialize g (SortedSet.unionAll g.components) (some model)
        component).Placed formula := by
  have trail := assignment_isolate placed normal shows_.reach materialize component
  obtain ⟨vars, members⟩ := siblings_spec placed normal shows_.reach component
  generalize ((SortedSet.unionAll g.components).diff component).toList.filterMap model.literal?
    = siblings at trail vars members
  have outside : ∀ l ∈ siblings, l.var ∈ g.vars ∧ ¬ l.var ∈ component := by
    intro l member
    obtain ⟨inAll, notHere⟩ := SortedSet.mem_diff.mp ((members l).mp member).2.1
    exact ⟨mem_unionAll_components.mp inAll, notHere⟩
  have untouched {clause : Clause} (within : ∀ k ∈ clause, k.var ∈ component) : clause.under siblings = clause :=
    Clause.under_eq_self fun k occurs opposite => (outside _ opposite).2 ((Lit.var_neg k).symm ▸ within k occurs)
  have distinct : (siblings.map Lit.var).Nodup := vars ▸ SortedSet.nodup _
  have consistent : ∀ l ∈ siblings, ¬ -l ∈ siblings := by
    intro l member opposite
    exact ((members l).mp member).1.ne_neg
      (List.inj_on_of_nodup_map distinct member opposite (Lit.var_neg l).symm)
  have reduced := placed.reduces.assignEach (fun l member => ((members l).mp member).1)
    (fun l member k known same =>
      placed.reduces.apart known (same ▸ (outside l member).1)) distinct
  refine ⟨(placed.wellFormed.divide materialize component).fix _, ?_, ?_⟩
  · rw [trail, current_isolate materialize nonempty]
    refine reduced.congr (fun clause => ?_)
    rw [current_restrict, Clauses.mem_assignEach consistent, List.mem_filter]
    constructor
    · rintro ⟨inside, touches⟩
      have holds : ∀ k ∈ clause, k.var ∈ component := by
        cases clause with
        | nil => exact absurd inside nonempty
        | cons k rest =>
            obtain ⟨l, member, touching⟩ : ∃ l ∈ k :: rest, l.var ∈ component := by
              simpa using touches
            exact within_component found inside member touching
      exact ⟨clause, inside, fun l member occurs => (outside l member).2 (holds l occurs), untouched holds⟩
    · rintro ⟨source, inside, untrue, rfl⟩
      -- A clause of another component has a literal that the model makes true.
      have holds : ∃ l ∈ source, l.var ∈ component := by
        by_contra nowhere
        simp only [not_exists, not_and] at nowhere
        have model := (placed.reduces.trueIn_iff shows_.extends_).mpr shows_.holds
        obtain ⟨l, member, holds⟩ := model source inside
        refine untrue l ((members l).mpr ⟨(placed.tidy normal source inside).proper l member, ?_,
          holds⟩) member
        refine SortedSet.mem_diff.mpr ⟨mem_unionAll_components.mpr ?_, nowhere l member⟩
        exact Clauses.var_mem_vars inside member
      obtain ⟨l, member, touching⟩ := holds
      rw [untouched (within_component found inside member touching)]
      refine ⟨inside, ?_⟩
      simp only [Bool.or_eq_true, List.any_eq_true, SortedSet.contains_iff]
      exact .inr ⟨l, member, touching⟩
  · rw [trail]
    refine List.forall_mem_append.mpr ⟨placed.occurring, fun l member => ?_⟩
    exact placed.reduces.vars_subset (outside l member).1

end Residual

end KnowledgeCompiler
