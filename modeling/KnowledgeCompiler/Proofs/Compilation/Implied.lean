import KnowledgeCompiler.Compilation.Component
import KnowledgeCompiler.Proofs.Branching
import KnowledgeCompiler.Proofs.Placement
import KnowledgeCompiler.Proofs.Probing.Saturation

/-! The implied literals of a component.

What is found depends on the clauses of the component alone: `Found` says so in terms of these clauses,
for each way to look for implied literals. The solver and the trail leave no mark on it.
-/

namespace KnowledgeCompiler.Compiling

open Residual

-----------------------------------------------------------------------------------------
-- What is found
-----------------------------------------------------------------------------------------

/-- What is found of the literals that clauses imply. -/
def Found (clauses : Clauses) (candidates : List Var)
    : Implication → Option (List Lit) → Prop
  | .propagation, none => Refuted clauses []
  | .propagation, some literals =>
      ¬ Refuted clauses [] ∧ (literals.map Lit.var).Nodup
      ∧ ∀ l, l ∈ literals ↔ Derived clauses [] l
  | .probing iterate, found =>
      ((Propagator.ofClauses clauses).probe [] candidates iterate).map
        (Option.map Std.TreeMap.values) = .ok found
  | .backbone, none => ∀ σ, ¬ Clauses.TrueIn σ clauses
  | .backbone, some literals =>
      (∃ σ, Clauses.TrueIn σ clauses) ∧ (literals.Pairwise fun l k => k.var < l.var)
      ∧ ∀ l, l ∈ literals ↔ l.var ∈ clauses.vars ∧ Entailed clauses [] l

variable {clauses : Clauses} {candidates : List Var} {kind : Implication}

/-- What is found is implied and over distinct variables, and nothing is found only if there is no
model.
-/
theorem Found.sound (tidy : clauses.Tidy) (occur : ∀ v ∈ candidates, v ∈ clauses.vars)
    {found : Option (List Lit)} (result : Found clauses candidates kind found)
    : (found = none → ∀ σ, ¬ Clauses.TrueIn σ clauses)
      ∧ ∀ literals, found = some literals
        → (literals.map Lit.var).Nodup ∧ ∀ l ∈ literals, Entailed clauses [] l := by
  have nonzero : ∀ clause ∈ clauses, ∀ l ∈ clause, l ≠ 0 := fun clause inside l member =>
    ((tidy clause inside).proper l member).1
  cases kind with
  | propagation =>
      cases found with
      | none => exact ⟨fun _ σ => Refuted.not_trueIn nonzero (by simp) result (by simp), by simp⟩
      | some literals =>
          refine ⟨by simp, fun _ same => ?_⟩
          obtain rfl := Option.some.inj same
          refine ⟨result.2.1, fun l member σ extends_ model => ?_⟩
          exact ((result.2.2 l).mp member).trueIn nonzero model extends_
  | probing iterate =>
      obtain ⟨forced, done, none_, some_⟩ := Propagator.probe_outcome tidy occur iterate
      simp only [Found, done, Except.map, Except.ok.injEq] at result
      subst result
      refine ⟨fun nothing => none_ (Option.map_eq_none_iff.mp nothing), fun literals same => ?_⟩
      obtain ⟨table, rfl, rfl⟩ := Option.map_eq_some_iff.mp same
      obtain ⟨distinct, entailed⟩ := some_ table rfl
      exact ⟨distinct, fun l member σ _ model => entailed l member σ model⟩
  | backbone =>
      cases found with
      | none => exact ⟨fun _ => result, by simp⟩
      | some literals =>
          refine ⟨by simp, fun _ same => ?_⟩
          obtain rfl := Option.some.inj same
          refine ⟨List.pairwise_map.mpr (result.2.1.imp fun below => ?_), fun l member => ?_⟩
          · exact fun same => Nat.lt_irrefl _ (same ▸ below)
          · exact ((result.2.2 l).mp member).2

/-- The literals over the variables of clauses, by ascending variable. -/
def inOrder (clauses : Clauses) (literals : List Lit) : List Lit :=
  dropRepeats
    (sortBy (fun l k => decide (l.var ≤ k.var)) (literals.filter fun l => clauses.vars.contains l.var))

theorem mem_inOrder {literals : List Lit} {l : Lit}
    : l ∈ inOrder clauses literals ↔ l ∈ literals ∧ l.var ∈ clauses.vars := by
  rw [inOrder, mem_dropRepeats, mem_sortBy, List.mem_filter, SortedSet.contains_iff]

/-- Clauses determine which implied literals are found. -/
theorem Found.unique {found found' : Option (List Lit)}
    (result : Found clauses candidates kind found) (result' : Found clauses candidates kind found')
    : found.map (inOrder clauses) = found'.map (inOrder clauses)
      ∧ (kind = .backbone → found = found') := by
  cases kind with
  | propagation =>
      refine ⟨?_, by simp⟩
      cases found <;> cases found'
      · rfl
      · exact absurd result result'.1
      · exact absurd result' result.1
      · rename_i literals literals'
        have same : ∀ l, l ∈ literals ↔ l ∈ literals' := fun l =>
          (result.2.2 l).trans (result'.2.2 l).symm
        refine congrArg some (@dropRepeats_sortBy_congr _ _ Lit.var _ _ (fun l => ?_) ?_)
        · rw [List.mem_filter, List.mem_filter, same]
        · intro l left k right vars
          exact List.inj_on_of_nodup_map result.2.1 (List.mem_of_mem_filter left)
            (List.mem_of_mem_filter right) vars
  | probing iterate =>
      simp only [Found] at result result'
      rw [result] at result'
      exact ⟨by rw [Except.ok.inj result'], by simp⟩
  | backbone =>
      have same : found = found' := by
        cases found <;> cases found'
        · rfl
        · obtain ⟨σ, model⟩ := result'.1
          exact absurd model (result σ)
        · obtain ⟨σ, model⟩ := result.1
          exact absurd model (result' σ)
        · rename_i literals literals'
          have reversed : literals.reverse = literals'.reverse := by
            refine @eq_of_ascending_keys _ Lit.var _ _ (List.pairwise_reverse.mpr result.2.1)
              (List.pairwise_reverse.mpr result'.2.1) (fun l => ?_)
            rw [List.mem_reverse, List.mem_reverse]
            exact (result.2.2 l).trans (result'.2.2 l).symm
          exact congrArg some (List.reverse_injective reversed)
      exact ⟨by rw [same], fun _ => same⟩

-----------------------------------------------------------------------------------------
-- How it is found
-----------------------------------------------------------------------------------------

/-- The journal after implied literals were found; only the backbone is recorded. -/
def recordImplied (kind : Implication) (assigned : Nat) (found : Option (List Lit))
    (journal : Journal) : Journal :=
  match kind, found with
  | .backbone, some literals => journal.push (.backbone assigned literals.length)
  | _, _ => journal

variable {formula : Formula} {g : Residual} {s : Compiler}

theorem Found.of_propagate {trail : List Lit} {whole : Clauses}
    (reduces : Reduces whole trail clauses) (tidy : whole.Tidy)
    : ∃ found, (Propagator.ofClauses whole).propagate trail = .ok found
      ∧ Found clauses candidates .propagation found := by
  have members : ∀ l, l ∈ trail ↔ l ∈ trail ∨ l ∈ ([] : List Lit) := by simp
  rcases reduces.propagate_eq tidy.proper members (by simp) (by simp) with
    ⟨found, found', done, done', distinct, _, same, _⟩ | ⟨done, done'⟩
  · refine ⟨some found, done, ?_⟩
    rcases Propagator.propagate_spec (reduces.tidy tidy).proper (by simp : ∀ l ∈ ([] : List Lit), l.Proper)
      with ⟨literals, run, unrefuted, _, meaning⟩ | ⟨run, _⟩
    · rw [done', Except.ok.injEq, Option.some.injEq] at run
      refine ⟨unrefuted, distinct, fun l => (same l).trans ?_⟩
      rw [run, meaning]
      simp
    · rw [done'] at run
      simp at run
  · refine ⟨none, done, ?_⟩
    rcases Propagator.propagate_spec (reduces.tidy tidy).proper (by simp : ∀ l ∈ ([] : List Lit), l.Proper)
      with ⟨literals, run, _⟩ | ⟨_, refuted⟩
    · rw [done'] at run
      simp at run
    · exact refuted

theorem Found.of_probe {trail : List Lit} {whole : Clauses} (reduces : Reduces whole trail clauses)
    (tidy : whole.Tidy) (occur : ∀ v ∈ candidates, v ∈ clauses.vars) (iterate : Bool)
    : ∃ found, (Propagator.ofClauses whole).probe trail candidates iterate = .ok found
      ∧ Found clauses candidates (.probing iterate) (found.map Std.TreeMap.values) := by
  have same := Propagator.probe_values reduces tidy occur iterate
  obtain ⟨forced, done, _⟩ := Propagator.probe_outcome (reduces.tidy tidy) occur iterate
  cases run : (Propagator.ofClauses whole).probe trail candidates iterate with
  | error cause =>
      rw [run, done] at same
      simp [Except.map] at same
  | ok found =>
      refine ⟨found, rfl, ?_⟩
      rw [run] at same
      exact same.symm

/-- The backbone of the whole formula beyond the trail is that of the current clauses. A literal over
another variable is not in it, since the variable can take the other value.
-/
theorem Found.of_backbone (placed : g.Placed formula) (normal : formula.Normal)
    {found : Option (List Lit)}
    (isBackbone : IsBackbone formula.clauses (Solver.occurringReach formula) g.assignment found)
    : Found g.current candidates .backbone found := by
  have reduces := placed.reduces
  cases found with
  | none =>
      intro σ model
      obtain ⟨τ, extends_, holds, _⟩ := reduces.exists_model model
      exact isBackbone τ extends_ holds
  | some literals =>
      obtain ⟨⟨σ, extends_, holds⟩, descending, meaning⟩ := isBackbone
      have model := (reduces.trueIn_iff extends_).mpr holds
      refine ⟨⟨σ, model⟩, descending, fun l => ?_⟩
      rw [meaning]
      constructor
      · rintro ⟨nonzero, _, fresh, entailed⟩
        have within_ : Entailed g.current g.assignment l := fun τ kept holds =>
          entailed τ kept ((reduces.trueIn_iff kept).mp holds)
        have occurs := within_.occurs extends_ model fresh
        refine ⟨occurs, fun σ _ model => ?_⟩
        obtain ⟨τ, extends_, holds, agree⟩ := reduces.exists_model model
        exact (Lit.trueIn_congr (agree _ occurs)).mp (entailed τ extends_ holds)
      · rintro ⟨occurs, entailed⟩
        have positive := ((placed.tidy normal).vars_bound occurs).1
        refine ⟨Int.natAbs_pos.mp positive,
          Solver.le_occurringReach (reduces.vars_subset occurs), fun k known same => ?_, ?_⟩
        · exact reduces.apart known (same ▸ occurs)
        · intro σ extends_ holds
          exact entailed σ (by simp) ((reduces.trueIn_iff extends_).mpr holds)

theorem config_bind {α : Type} (next : CompilerConfig → Compiling α) (s : Compiler) (journal : Journal)
    : (config >>= next) ⟨s, journal⟩ = next s.config ⟨s, journal⟩ := rfl

/-- Implied literals are found with a solver. -/
theorem findImplied_run {solver : Solver} (used : s.solver = some solver)
    (fits : solver.Fits formula) (placed : g.Placed formula) (normal : formula.Normal)
    (journal : Journal)
    : ∃ found after, findImplied g ⟨s, journal⟩
        = .ok found ⟨{ s with solver := some after },
          recordImplied s.config.implied g.assignment.length found journal⟩
      ∧ after.Fits formula
      ∧ Found g.current (s.config.probing.choose g.vars g) s.config.implied found := by
  unfold findImplied
  rw [config_bind, Action.current_bind, used]
  dsimp only
  cases s.config.implied with
  | propagation =>
      obtain ⟨found, done, result⟩ := Found.of_propagate placed.reduces normal.tidy
      refine ⟨found, solver, ?_, fits, result⟩
      have run : (Solver.propagate g.assignment : Action CompileError Solver _) ⟨solver, journal⟩
          = .ok found ⟨solver, journal⟩ := by
        show (liftM (solver.propagator.propagate g.assignment) : Action CompileError Solver _) _ = _
        rw [fits.propagator, done]
        rfl
      simp only [onSolver, Action.within, run]
      rfl
  | probing iterate =>
      obtain ⟨found, done, result⟩ := Found.of_probe placed.reduces normal.tidy
        (s.config.probing.choose_subset g) iterate
      refine ⟨found.map Std.TreeMap.values, solver, ?_, fits, result⟩
      have run : (Solver.probe g.assignment (s.config.probing.choose g.vars g) iterate
            : Action CompileError Solver _) ⟨solver, journal⟩
          = .ok found ⟨solver, journal⟩ := by
        show (liftM (solver.propagator.probe g.assignment (s.config.probing.choose g.vars g) iterate)
          : Action CompileError Solver _) _ = _
        rw [fits.propagator, done]
        rfl
      show EStateM.bind _ _ _ = _
      simp only [EStateM.bind, onSolver, Action.within, run]
      rfl
  | backbone =>
      obtain ⟨found, after, run, afterFits, isBackbone⟩ :=
        @Solver.backbone?_spec CompileError _ _ _ normal fits placed.asked journal
      refine ⟨found, after, ?_, afterFits, Found.of_backbone placed normal isBackbone⟩
      simp only [onSolver, Action.within, run]
      cases found <;> rfl

end KnowledgeCompiler.Compiling
