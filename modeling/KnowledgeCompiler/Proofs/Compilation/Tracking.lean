import KnowledgeCompiler.Proofs.Compilation.Materialization
import KnowledgeCompiler.Proofs.Compilation.ModelIndependence

/-! The solver speaks about the component at hand.

A solver knows the whole formula and is asked under the trail of a component. `Residual.Tracks` says that the trail
leaves of the formula just the active clauses of the component. `Compiling.Leads` lists the steps from one residual
formula to the next one in a compilation with a solver, and each of them keeps this. So a compilation that raises an
alarm wherever it is not so (`compileWatched`) cannot be told from one that does not look.
-/

namespace KnowledgeCompiler

variable {formula : Formula} {g h : Residual}

namespace Residual

-----------------------------------------------------------------------------------------
-- The formula under the trail
-----------------------------------------------------------------------------------------

/-- The trail of a residual formula leaves of a formula just the active clauses, none of which is over a variable with
a value.
-/
structure Tracks (formula : Formula) (g : Residual) : Prop where
  /-- A clause has a true literal, or its literals that are not false are what is left of an active clause. -/
  covered
    : ∀ clause ∈ formula.clauses,
        (∃ l ∈ clause, l ∈ g.assignment)
        ∨ ∃ position ∈ g.active.toList, g.residualClause position = clause.under g.assignment
  /-- What is left of an active clause is what is left of a clause without a true literal. -/
  arises
    : ∀ position ∈ g.active.toList, ∃ clause ∈ formula.clauses,
        (∀ l ∈ clause, ¬ l ∈ g.assignment) ∧ g.residualClause position = clause.under g.assignment
  /-- No variable that is assigned occurs in what is left of an active clause. -/
  apart
    : ∀ position ∈ g.active.toList, ∀ l ∈ g.residualClause position,
        g.isAssigned l.var = false ∧ ∀ k ∈ g.assignment, k.var ≠ l.var
  /-- No two literals of the trail are complementary. -/
  consistent : ∀ l ∈ g.assignment, ¬ -l ∈ g.assignment
  /-- The trail is over variables of the formula. -/
  occurring : ∀ l ∈ g.assignment, l.var ∈ Clauses.vars formula.clauses

instance (formula : Formula) (g : Residual) : Decidable (g.Tracks formula) :=
  decidable_of_iff _
    ⟨fun ⟨covered, arises, apart, consistent, occurring⟩ => ⟨covered, arises, apart, consistent, occurring⟩,
      fun ⟨covered, arises, apart, consistent, occurring⟩ =>
        And.intro covered (And.intro arises (And.intro apart (And.intro consistent occurring)))⟩

theorem Placed.tracks (placed : g.Placed formula) : g.Tracks formula where
  covered clause listed := by
    refine (placed.reduces.down clause listed).imp_right fun left => ?_
    simpa only [SortedSet.mem_toList] using mem_current.mp left
  arises position active := by
    obtain ⟨source, origin, untrue, same⟩ := placed.reduces.up _ (List.mem_map_of_mem active)
    exact ⟨source, origin, untrue, same.symm⟩
  apart position active l member := by
    have occurs : l.var ∈ g.vars := Clauses.var_mem_vars (List.mem_map_of_mem active) member
    exact ⟨value_of_mem_vars occurs, fun k known same => placed.reduces.apart known (same ▸ occurs)⟩
  consistent := placed.reduces.consistent
  occurring := placed.occurring

theorem Tracks.placed (tracks : g.Tracks formula) (normal : formula.Normal) (wf : g.WellFormed)
    : g.Placed formula where
  wellFormed := wf
  reduces := {
    proper := fun l member => by
      obtain ⟨positive, small⟩ := normal.tidy.vars_bound (tracks.occurring l member)
      exact ⟨Int.natAbs_pos.mp positive, small⟩
    consistent := tracks.consistent
    down := fun clause listed => (tracks.covered clause listed).imp_right fun ⟨position, active, same⟩ =>
      mem_current.mpr ⟨position, SortedSet.mem_toList.mp active, same⟩
    up := fun clause inside => by
      obtain ⟨position, active, rfl⟩ := mem_current.mp inside
      obtain ⟨source, origin, untrue, same⟩ := tracks.arises position (SortedSet.mem_toList.mpr active)
      exact ⟨source, origin, untrue, same.symm⟩
  }
  occurring := tracks.occurring

/-- The models of the formula that extend the trail are the models of the residual formula, as far as its variables are
concerned.
-/
theorem Placed.models_iff (placed : g.Placed formula) (σ : Assignment)
    : Clauses.TrueIn σ g.current
      ↔ ∃ τ : Assignment, (∀ l ∈ g.assignment, Lit.TrueIn τ l) ∧ Clauses.TrueIn τ formula.clauses
          ∧ ∀ v, v ∈ g.vars → τ v = σ v := by
  constructor
  · exact placed.reduces.exists_model
  · rintro ⟨τ, extends_, model, agree⟩
    exact (Clauses.trueIn_congr agree).mp ((placed.reduces.trueIn_iff extends_).mpr model)

end Residual

namespace Compiling

open KnowledgeCompiler.Action Residual

-----------------------------------------------------------------------------------------
-- One step
-----------------------------------------------------------------------------------------

/-- The steps from a residual formula to the next one in a compilation with a solver. The implied literals that are
found are assigned; one of the components is set apart, in place or as a formula of its own, and a model of the whole
formula fixes the variables of the others; or a branching variable gets one of its two values.
-/
inductive Leads (formula : Formula) (g : Residual) : Residual → Prop where
  | implied {s t : Journaled Compiler} {literals : List Lit} (found : impliedLiterals g s = .ok (some literals) t)
    : Leads formula g (g.assign literals)
  | component {component : SortedSet Var} {model : Model} (found : component ∈ g.components)
    (shows_ : Solver.Shows formula g.assignment model) (materialize : Bool)
    : Leads formula g (isolate materialize g (SortedSet.unionAll g.components) (some model) component)
  | side {rule : BranchingRule} {cut : SortedSet Var} {v : Var} {l : Lit} (chosen : rule.choose cut g = some v)
    (either : l = Lit.word v ∨ Lit.negate (Lit.word v) = .ok l)
    : Leads formula g (g.assign [l])

theorem impliedLiterals_within {s t : Journaled Compiler} {literals : List Lit}
    (found : impliedLiterals g s = .ok (some literals) t)
    : ∀ l ∈ literals, l.var ∈ g.vars := by
  obtain ⟨all, u, _, last⟩ := exists_of_bind_ok found
  cases all with
  | none => cases last
  | some all =>
      cases last
      exact impliedLiterals_inside g all

/-- Each step stays in place. -/
theorem Leads.placed (leads : Leads formula g h) (normal : formula.Normal) (placed : g.Placed formula)
    : h.Placed formula := by
  have assigns {literals : List Lit} (inside : ∀ l ∈ literals, l.var ∈ g.vars)
      : (g.assign literals).Placed formula :=
    placed.assign (fun l member => (placed.tidy normal).proper_of_var (inside l member)) inside
  cases leads with
  | implied found => exact assigns (impliedLiterals_within found)
  | component found shows_ materialize =>
      -- A model of the formula that extends the trail leaves no clause empty.
      have nonempty : ¬ [] ∈ g.current := fun empty =>
        Clauses.not_trueIn_of_nil empty ((placed.reduces.trueIn_iff shows_.extends_).mpr shows_.holds)
      exact placed.isolate normal shows_ nonempty materialize found
  | side chosen either =>
      have occurs := BranchingRule.choose_mem placed.wellFormed chosen
      refine assigns fun l member => ?_
      rw [List.mem_singleton.mp member, var_of_branch (placed.tidy normal) occurs either]
      exact occurs

-----------------------------------------------------------------------------------------
-- Compiling under watch
-----------------------------------------------------------------------------------------

/-- Has a formula compiled in a given way if it tracks the whole formula, and raises an alarm otherwise. -/
def watched (formula : Formula) (alarm : Compiling NodeId) (reduced : ReducedCall) : ReducedCall :=
  fun g frame model => if g.Tracks formula then reduced g frame model else alarm

/-- The compilation of a component with a bound on the depth and with an alarm. The alarm is raised when a component is
entered that does not track the formula, or when what its implied literals leave does not.
-/
def watchedWithin (formula : Formula) (alarm : Compiling NodeId) : Nat → CompileCall
  | 0, _, _ => throw (.fault .exhausted)
  | bound + 1, g, frame =>
      if g.Tracks formula then
        compileStepBy (watched formula alarm (compileReduced (watchedWithin formula alarm bound))) g frame
      else alarm

/-- The compilation of a residual formula with an alarm. -/
def watchedResidual (formula : Formula) (alarm : Compiling NodeId) (g : Residual) : Compiling NodeId :=
  watchedWithin formula alarm (g.vars.size + 1) g {}

/-- What implied literals leave of a formula in its place raises no alarm. -/
theorem watched_agree {reduced reduced' : ReducedCall}
    (inner : ReducedAgree (BothFit formula) (SamePlace formula) (BothShow formula) reduced reduced')
    (alarm : Compiling NodeId)
    : ReducedAgree (BothFit formula) (SamePlace formula) (BothShow formula) (watched formula alarm reduced)
        reduced' := by
  intro g h frame m n s t same
  rw [watched, if_pos same.left.tracks]
  exact inner g h frame m n s t same

/-- A component in its place is compiled under watch as it is without; induction on the bound of the depth. -/
theorem watchedWithin_agree (normal : formula.Normal) (alarm : Compiling NodeId) (bound : Nat)
    : CallsAgree (BothFit formula) (SamePlace formula) (watchedWithin formula alarm bound) (compileWithin bound) := by
  induction bound with
  | zero => exact fun _ _ _ _ _ _ _ _ => rfl
  | succ bound ih =>
      intro g h frame s t same
      have simulation := samePlace_simulation normal
      have inner := watched_agree (compileReduced_agree simulation ih) alarm
      rw [watchedWithin, if_pos same.left.tracks]
      exact compileStepBy_agree simulation inner g h frame s t same

end Compiling

/-- Compiles a formula with models from a given oracle, with an alarm. -/
def Formula.compileWatched (formula : Formula) (config : CompilerConfig) (oracle : Oracle) (alarm : Compiling NodeId)
    : EStateM.Result (Failure CompileError) (Journaled Compiler) Compilation :=
  (Compiling.formulaBy (Compiling.watchedResidual formula alarm) formula oracle).run { state := .start config none }

/-- With a solver the alarm is never raised. -/
theorem Formula.Normal.compileWatched_agrees (normal : formula.Normal) {config : CompilerConfig}
    (uses : config.useSolver = true) {oracle : Oracle} (complete : oracle.Complete formula)
    (alarm : Compiling NodeId)
    : Compiling.SameOutcome (formula.compileWatched config oracle alarm) (formula.compileWith config oracle) := by
  have start : Compiling.SamePlace formula (.ofClauses formula.clauses) (.ofClauses formula.clauses) :=
    ⟨.ofClauses formula, .ofClauses formula, rfl, rfl⟩
  refine Compiling.SameOutcome.of_agree
    (Compiling.formulaBy_agree rfl
      (fun s t alike => Compiling.watchedWithin_agree normal alarm _ _ _ _ s t start alike) (fun unused => ?_) ?_
      ⟨rfl, rfl, trivial, rfl, rfl, rfl⟩)
    (fun _ _ _ _ equal => equal.1)
  · exact absurd (uses.symm.trans unused) (by decide)
  · intro solver solver' made made'
    exact ⟨solver, solver', rfl, rfl, Solver.fits_of_ofOracle complete made, Solver.fits_of_ofOracle complete made'⟩

/-- In a compilation with a solver, whatever its options and models, every component that is entered and what its
implied literals leave track the formula, and so do those that each step leads to. Where this is so, the solver's
answers about the whole formula under the trail are answers about the component.
-/
theorem compilation_tracks_formula (variableCount : Nat) (raw : Clauses)
    (proper : ∀ clause ∈ raw, ∀ l ∈ clause, Lit.Proper l)
    : ∃ formula, Formula.ofClauses variableCount raw = .ok formula
      ∧ (∀ (config : CompilerConfig) (oracle : Oracle), config.useSolver = true → oracle.Complete formula
        → ∀ alarm, Compiling.SameOutcome (formula.compileWatched config oracle alarm)
            (formula.compileWith config oracle))
      ∧ (∀ g h : Residual, g.WellFormed → g.Tracks formula → Compiling.Leads formula g h
        → h.WellFormed ∧ h.Tracks formula)
      ∧ ∀ g : Residual, g.WellFormed → g.Tracks formula
        → ∀ σ, Clauses.TrueIn σ g.current
          ↔ ∃ τ : Assignment, (∀ l ∈ g.assignment, Lit.TrueIn τ l) ∧ Clauses.TrueIn τ formula.clauses
              ∧ ∀ v, v ∈ g.vars → τ v = σ v := by
  obtain ⟨formula, loaded, normal, _⟩ := Formula.ofClauses_ok variableCount proper
  refine ⟨formula, loaded, fun config oracle uses complete => normal.compileWatched_agrees uses complete, ?_, ?_⟩
  · intro g h wf tracks leads
    have placed := leads.placed normal (tracks.placed normal wf)
    exact ⟨placed.wellFormed, placed.tracks⟩
  · exact fun g wf tracks => (tracks.placed normal wf).models_iff

/-- Two independent clauses: their compilation raises no alarm. When the first of them is set apart, a model of both
fixes the variables of the second one, and the clause tracks the formula; without a model it does not.
-/
theorem two_components_track_formula
    : let formula : Formula := { variableCount := 4, clauses := [[1, 2], [3, 4]] }
      let whole := Residual.ofClauses formula.clauses
      let first := fun model =>
        Compiling.isolate true whole (SortedSet.unionAll whole.components) model (.ofList [1, 2])
      Formula.ofClauses 4 [[1, 2], [3, 4]] = .ok formula
      ∧ (∀ alarm, Compiling.SameOutcome (formula.compileWatched {} (.ofFormula formula) alarm) (formula.compile {}))
      ∧ (first (some (.ofLiterals 4 [1, -2, -3, 4]))).assignment = [-3, 4]
      ∧ (first (some (.ofLiterals 4 [1, -2, -3, 4]))).Tracks formula
      ∧ ¬ (first none).Tracks formula
      ∧ ∀ σ : Assignment, Clauses.TrueIn σ [[1, 2]]
        ↔ ∃ τ : Assignment, (∀ l ∈ [-3, 4], Lit.TrueIn τ l) ∧ Clauses.TrueIn τ [[1, 2], [3, 4]]
            ∧ ∀ v, v ∈ SortedSet.ofList [1, 2] → τ v = σ v := by
  intro formula whole first
  have proper : ∀ clause ∈ ([[1, 2], [3, 4]] : Clauses), ∀ l ∈ clause, Lit.Proper l := by
    simp [Lit.Proper, Lit.var]
  obtain ⟨loaded, found, agrees, steps, models⟩ := compilation_tracks_formula 4 [[1, 2], [3, 4]] proper
  obtain ⟨other, found', normal, _⟩ := Formula.ofClauses_ok 4 proper
  have known : Formula.ofClauses 4 [[1, 2], [3, 4]] = .ok formula := by decide
  obtain rfl : loaded = formula := Except.ok.inj (found.symm.trans known)
  obtain rfl : other = formula := Except.ok.inj (found'.symm.trans known)
  have shows_ : Solver.Shows formula whole.assignment (.ofLiterals 4 [1, -2, -3, 4]) :=
    ⟨by decide +kernel, by decide +kernel, by decide +kernel⟩
  obtain ⟨wf, tracks⟩ := steps whole (first (some (.ofLiterals 4 [1, -2, -3, 4]))) (.ofClauses _)
    (by decide +kernel) (.component (by decide +kernel) shows_ true)
  refine ⟨known, agrees {} _ rfl (Oracle.ofFormula_complete normal), by decide +kernel, tracks, by decide +kernel, ?_⟩
  intro σ
  have clause : (first (some (.ofLiterals 4 [1, -2, -3, 4]))).current = [[1, 2]] := by decide +kernel
  have trail : (first (some (.ofLiterals 4 [1, -2, -3, 4]))).assignment = [-3, 4] := by decide +kernel
  have vars : (first (some (.ofLiterals 4 [1, -2, -3, 4]))).vars = .ofList [1, 2] := by decide +kernel
  have same := models _ wf tracks σ
  rwa [clause, trail, vars] at same

end KnowledgeCompiler
