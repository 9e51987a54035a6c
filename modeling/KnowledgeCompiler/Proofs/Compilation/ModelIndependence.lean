import KnowledgeCompiler.Proofs.Search
import KnowledgeCompiler.Proofs.Compilation.Implied
import KnowledgeCompiler.Proofs.Compilation.Simulation

/-! A compilation does not depend on which models the solver finds.

Two compilations with different sources of models keep residual formulas with the same clauses, whose
trails are over the same variables but may differ in the values of variables outside the component. Each
trail reduces the whole formula to the clauses of the component, so these values have no influence.
-/

namespace KnowledgeCompiler.Compiling

open KnowledgeCompiler.Action Residual

-----------------------------------------------------------------------------------------
-- The relations
-----------------------------------------------------------------------------------------

/-- Two solvers of one formula with complete oracles. -/
def BothFit (formula : Formula) (s t : Option Solver) : Prop :=
  ∃ a b, s = some a ∧ t = some b ∧ a.Fits formula ∧ b.Fits formula

/-- Residual formulas with the same clauses, both in their place within a formula, whose trails are over
the same variables.
-/
structure SamePlace (formula : Formula) (g h : Residual) : Prop where
  left : g.Placed formula
  right : h.Placed formula
  current : g.current = h.current
  vars : g.assignment.map Lit.var = h.assignment.map Lit.var

/-- Models of the formula, each of which extends the trail of its run. -/
def BothShow (formula : Formula) (g h : Residual) (m n : Option Model) : Prop :=
  ∃ a b, m = some a ∧ n = some b
    ∧ Solver.Shows formula g.assignment a ∧ Solver.Shows formula h.assignment b

variable {formula : Formula} {g h : Residual} {s t : Compiler}

theorem SamePlace.view (same : SamePlace formula g h) : SameView g h :=
  ⟨same.left.wellFormed, same.right.wellFormed, same.current⟩

/-- Assigning appends the same literals to both trails; induction on the literals. -/
theorem assignment_assign_both {g h : Residual} (wf : g.WellFormed) (wf' : h.WellFormed)
    {literals : List Lit} (alike : ∀ l ∈ literals, g.isAssigned l.var = h.isAssigned l.var)
    : ∃ more, (g.assign literals).assignment = g.assignment ++ more
      ∧ (h.assign literals).assignment = h.assignment ++ more
      ∧ ∀ l ∈ more, l ∈ literals := by
  induction literals generalizing g h with
  | nil => exact ⟨[], by simp [assign], by simp [assign], by simp⟩
  | cons l rest ih =>
      obtain ⟨first, later⟩ := List.forall_mem_cons.mp alike
      obtain ⟨more, left, right, inside⟩ :=
        @ih (g.assignLiteral l) (h.assignLiteral l) (wf.assignLiteral l) (wf'.assignLiteral l)
          fun k member => by
            rw [isAssigned_assignLiteral wf, isAssigned_assignLiteral wf', later k member]
      rw [assignment_assignLiteral wf] at left
      rw [assignment_assignLiteral wf', ← first] at right
      cases valued : g.isAssigned l.var with
      | true =>
          rw [valued, if_pos rfl] at left right
          exact ⟨more, left, right, fun k member => by simp [inside k member]⟩
      | false =>
          simp only [valued, Bool.false_eq_true, if_false, List.append_assoc] at left right
          refine ⟨[l] ++ more, left, right, fun k member => ?_⟩
          rcases List.mem_append.mp member with new | old
          · simp [List.mem_singleton.mp new]
          · simp [inside k old]

/-- Assigning literals over current variables. -/
theorem SamePlace.assign (same : SamePlace formula g h) {literals : List Lit}
    (proper : ∀ l ∈ literals, l.Proper) (inside : ∀ l ∈ literals, l.var ∈ g.vars)
    : SamePlace formula (g.assign literals) (h.assign literals)
      ∧ ∃ more, (g.assign literals).assignment = g.assignment ++ more
        ∧ (h.assign literals).assignment = h.assignment ++ more
        ∧ ∀ l ∈ more, l ∈ literals := by
  have inside' : ∀ l ∈ literals, l.var ∈ h.vars := fun l member => same.view.vars ▸ inside l member
  obtain ⟨more, left, right, subset⟩ :=
    @assignment_assign_both g h same.left.wellFormed same.right.wellFormed literals
      fun l member => by
        rw [isAssigned, isAssigned, value_of_mem_vars (inside l member),
          value_of_mem_vars (inside' l member)]
  refine ⟨⟨same.left.assign proper inside, same.right.assign proper inside',
    (same.view.assign literals).current, ?_⟩, more, left, right, subset⟩
  rw [left, right, List.map_append, List.map_append, same.vars]

-----------------------------------------------------------------------------------------
-- The lock step
-----------------------------------------------------------------------------------------

/-- Both solvers find a model, or neither does: there is one exactly if the clauses of the component
have one.
-/
theorem askModel_agree_models (normal : formula.Normal) (same : SamePlace formula g h)
    (alike : Alike (BothFit formula) s t)
    : Agree (askModel g) (askModel h) s t fun p s q t =>
        RelatedProspects (BothShow formula g h) p q ∧ Alike (BothFit formula) s t := by
  obtain ⟨a, b, used, used', fits, fits'⟩ := alike.solver
  refine Agree.current ?_
  rw [used, used']
  dsimp only
  have asked : Agree (onSolver a (Solver.model? g.assignment))
      (onSolver b (Solver.model? h.assignment)) s t fun m s n t =>
        ((m = none ∧ n = none) ∨ BothShow formula g h m n) ∧ Alike (BothFit formula) s t := by
    refine Agree.within ((Agree.of_returns (Solver.model?_spec normal fits same.left.asked)
      (Solver.model?_spec normal fits' same.right.asked)).mono ?_)
    rintro m a' n b' ⟨⟨fits, none_, some_⟩, fits', none', some'⟩
    refine ⟨?_, alike.config, alike.circuit, ⟨a', b', rfl, rfl, fits, fits'⟩, alike.cache, alike.cuts,
      alike.statistics⟩
    have unsat : (∀ σ, ¬ Clauses.TrueIn σ g.current) ∨ ∃ σ, Clauses.TrueIn σ g.current := by
      by_cases sat : ∃ σ, Clauses.TrueIn σ g.current
      · exact .inr sat
      · exact .inl (not_exists.mp sat)
    have refuted : ∀ {k : Residual} {m : Model}, k.Placed formula
        → Solver.Shows formula k.assignment m → ¬ ∀ σ, ¬ Clauses.TrueIn σ k.current :=
      fun placed shows_ none_ =>
        none_ _ ((placed.reduces.trueIn_iff shows_.extends_).mpr shows_.holds)
    have open_ : ∀ {k : Residual}, k.Placed formula
        → (∀ σ, (∀ l ∈ k.assignment, Lit.TrueIn σ l) → ¬ Clauses.TrueIn σ formula.clauses)
        → ¬ ∃ σ, Clauses.TrueIn σ k.current := by
      rintro k placed none_ ⟨σ, model⟩
      obtain ⟨τ, extends_, holds, _⟩ := placed.reduces.exists_model model
      exact none_ τ extends_ holds
    cases m with
    | none =>
        cases n with
        | none => exact .inl ⟨rfl, rfl⟩
        | some n =>
            have nothing := open_ same.left (none_ rfl)
            rw [same.current] at nothing
            exact absurd (not_exists.mp nothing) (refuted same.right (some' n rfl))
    | some m =>
        cases n with
        | none =>
            have nothing := open_ same.right (none' rfl)
            rw [← same.current] at nothing
            exact absurd (not_exists.mp nothing) (refuted same.left (some_ m rfl))
        | some n => exact .inr ⟨m, n, rfl, rfl, some_ m rfl, some' n rfl⟩
  refine Agree.bind asked (fun m s n t result => ?_)
  obtain ⟨⟨rfl, rfl⟩ | shown, alike⟩ := result
  · exact Agree.pure ⟨trivial, alike⟩
  · obtain ⟨m, n, rfl, rfl, shows_⟩ := shown
    exact Agree.pure ⟨⟨m, n, rfl, rfl, shows_⟩, alike⟩

/-- Both runs find the same implied literals, and these are true in the models at hand. -/
theorem impliedLiterals_agree_models (normal : formula.Normal) (same : SamePlace formula g h)
    (alike : Alike (BothFit formula) s t)
    : Agree (impliedLiterals g) (impliedLiterals h) s t fun found s found' t =>
        Equal (BothFit formula) found s found' t
        ∧ ∀ literals, found = some literals
          → ∀ l ∈ literals, l.var ∈ g.vars ∧ Entailed g.current [] l := by
  obtain ⟨a, b, used, used', fits, fits'⟩ := alike.solver
  have kinds : t.config.implied = s.config.implied := by rw [alike.config]
  have rules : t.config.probing = s.config.probing := by rw [alike.config]
  intro journal
  obtain ⟨found, after, run, afterFits, result⟩ := findImplied_run used fits same.left normal journal
  obtain ⟨found', after', run', afterFits', result'⟩ :=
    findImplied_run used' fits' same.right normal journal
  rw [kinds, rules, ← same.current, ← ProbingRule.choose_congr same.view] at result'
  have assigned : g.assignment.length = h.assignment.length := by
    simpa using congrArg List.length same.vars
  obtain ⟨equal, backbones⟩ := result.unique result'
  have journals : recordImplied s.config.implied g.assignment.length found journal
      = recordImplied t.config.implied h.assignment.length found' journal := by
    rw [kinds, assigned]
    cases kind : s.config.implied with
    | propagation => rfl
    | probing iterate => rfl
    | backbone => rw [backbones kind]
  have unfolded : ∀ (k : Residual) (u : Compiler) (journal : Journal),
      impliedLiterals k ⟨u, journal⟩
        = EStateM.bind (findImplied k) (fun found => pure (found.map (inOrder k.current)))
            ⟨u, journal⟩ :=
    fun _ _ _ => rfl
  rw [unfolded, unfolded, EStateM.bind, EStateM.bind, run, run', ← same.current]
  refine ⟨⟨⟨equal, alike.config, alike.circuit, ⟨after, after', rfl, rfl, afterFits, afterFits'⟩,
    alike.cache, alike.cuts, alike.statistics⟩, fun literals made l member => ?_⟩, journals⟩
  obtain ⟨all, rfl, rfl⟩ := Option.map_eq_some_iff.mp made
  obtain ⟨inside, occurs⟩ := mem_inOrder.mp member
  have sound := result.sound (same.left.tidy normal) (s.config.probing.choose_subset g)
  exact ⟨occurs, (sound.2 all rfl).2 l inside⟩

/-- One component of several, set apart with two models. -/
theorem SamePlace.isolate (same : SamePlace formula g h) (normal : formula.Normal) {m n : Model}
    (shows_ : Solver.Shows formula g.assignment m) (shows' : Solver.Shows formula h.assignment n)
    (nonempty : ¬ [] ∈ g.current) (materialize materialize' : Bool) {component : SortedSet Var}
    (found : component ∈ g.components)
    : SamePlace formula
        (isolate materialize g (SortedSet.unionAll g.components) (some m) component)
        (isolate materialize' h (SortedSet.unionAll g.components) (some n) component) := by
  have components := same.view.components
  have nonempty' : ¬ [] ∈ h.current := same.current ▸ nonempty
  rw [components] at found
  have placed' := same.right.isolate normal shows' nonempty' materialize' found
  have trail' := assignment_isolate same.right normal shows'.reach materialize' component
  have vars' := (siblings_spec same.right normal shows'.reach component).1
  rw [← components] at found placed' trail' vars'
  refine ⟨same.left.isolate normal shows_ nonempty materialize found, placed', ?_, ?_⟩
  · rw [current_isolate materialize nonempty, current_isolate materialize' nonempty',
      current_restrict, current_restrict, same.current]
  · rw [assignment_isolate same.left normal shows_.reach, trail', List.map_append, List.map_append,
      same.vars, (siblings_spec same.left normal shows_.reach component).1, vars']

/-- Formulas in the same place go through the same steps, whatever models the solvers find. -/
theorem samePlace_simulation (normal : formula.Normal)
    : Simulation (BothFit formula) (SamePlace formula) (BothShow formula) where
  used := by
    rintro s t ⟨a, b, rfl, rfl, _⟩
    rfl
  view related := related.view
  trail related := by simpa using congrArg List.length related.vars
  ask related alike := askModel_agree_models normal related alike
  implied related alike := by
    refine (impliedLiterals_agree_models normal related alike).mono (fun found s found' t result => ?_)
    obtain ⟨equal, implied⟩ := result
    refine ⟨equal, fun literals made => ?_⟩
    have proper : ∀ l ∈ literals, l.Proper := fun l member =>
      (related.left.tidy normal).proper_of_var (implied literals made l member).1
    obtain ⟨assigned, more, left, right, subset⟩ :=
      related.assign proper fun l member => (implied literals made l member).1
    refine ⟨assigned, ?_⟩
    rintro m n ⟨a, b, rfl, rfl, shows_, shows'⟩
    refine ⟨a, b, rfl, rfl, left ▸ related.left.shows_append shows_ ?_,
      right ▸ related.right.shows_append shows' ?_⟩
    · exact fun l member => (implied literals made l (subset l member)).2
    · rw [← related.current]
      exact fun l member => (implied literals made l (subset l member)).2
  branch {g h v l} related member chosen := by
    have vars := var_of_branch (related.left.tidy normal) member chosen
    have inside : ∀ k ∈ [l], k.var ∈ g.vars := by simpa [vars] using member
    have proper : ∀ k ∈ [l], k.Proper := fun k found =>
      (related.left.tidy normal).proper_of_var (inside k found)
    exact (related.assign proper inside).1
  isolate related models nonempty found := by
    obtain ⟨m, n, rfl, rfl, shows_, shows'⟩ := models
    exact related.isolate normal shows_ shows' nonempty _ _ found

end KnowledgeCompiler.Compiling

namespace KnowledgeCompiler

/-- A compilation that uses a solver has the same outcome for all complete sources of models that have room for the
same variables.
-/
theorem Formula.Normal.compileWith_oracle {formula : Formula} (normal : formula.Normal)
    {config : CompilerConfig} (uses : config.useSolver = true) {oracle oracle' : Oracle}
    (room : oracle.limit = oracle'.limit) (complete : oracle.Complete formula) (complete' : oracle'.Complete formula)
    : Compiling.SameOutcome (formula.compileWith config oracle)
        (formula.compileWith config oracle') := by
  have start : Compiling.SamePlace formula (.ofClauses formula.clauses) (.ofClauses formula.clauses) :=
    ⟨.ofClauses formula, .ofClauses formula, rfl, rfl⟩
  refine Compiling.SameOutcome.of_agree
    (Compiling.formula_agree (Compiling.samePlace_simulation normal) room start (fun unused => ?_) ?_
      ⟨rfl, rfl, trivial, rfl, rfl, rfl⟩)
    (fun _ _ _ _ equal => equal.1)
  · exact absurd (uses.symm.trans unused) (by decide)
  · intro solver solver' made made'
    exact ⟨solver, solver', rfl, rfl, Solver.fits_of_ofOracle complete made,
      Solver.fits_of_ofOracle complete' made'⟩

/-- Compilations of clauses have the same circuit, the same root and the same counts, whatever answers their source
of models gives, as long as it is complete.
-/
theorem compilation_independent_of_models (variableCount : Nat) (raw : Clauses)
    (proper : ∀ clause ∈ raw, ∀ l ∈ clause, Lit.Proper l)
    : ∃ formula, Formula.ofClauses variableCount raw = .ok formula
      ∧ ∀ (config : CompilerConfig) (oracle : Oracle) (answer : Nat → List Lit → Option (List Lit)),
          config.useSolver = true → oracle.Complete formula → Oracle.Complete { oracle with answer } formula
          → Compiling.SameOutcome (formula.compileWith config oracle)
              (formula.compileWith config { oracle with answer }) := by
  obtain ⟨formula, loaded, normal, _⟩ := Formula.ofClauses_ok variableCount proper
  exact ⟨formula, loaded, fun config oracle answer uses complete complete' =>
    normal.compileWith_oracle uses rfl complete complete'⟩

/-- The models of two independent clauses, listed in one order and in the opposite one, lead to the same
compilation.
-/
theorem compilation_of_two_components
    : let models : List (List Lit) :=
        [[1, 2, 3, 4], [1, 2, 3, -4], [1, 2, -3, 4], [1, -2, 3, 4], [1, -2, 3, -4], [1, -2, -3, 4],
          [-1, 2, 3, 4], [-1, 2, 3, -4], [-1, 2, -3, 4]]
      ∃ formula, Formula.ofClauses 4 [[1, 2], [3, 4]] = .ok formula
        ∧ Compiling.SameOutcome
          (formula.compileWith { twoCnfLeaves := false, hornLeaves := false } (.ofModels models))
          (formula.compileWith { twoCnfLeaves := false, hornLeaves := false }
            (.ofModels models.reverse)) := by
  intro models
  obtain ⟨formula, loaded, same⟩ :=
    compilation_independent_of_models 4 [[1, 2], [3, 4]] (by simp [Lit.Proper, Lit.var])
  have known : formula = { variableCount := 4, clauses := [[1, 2], [3, 4]] } :=
    Except.ok.inj (loaded.symm.trans (by decide))
  have sound : ∀ model ∈ models,
      Clauses.TrueIn (fun v => (Model.valuesOf model).getD v false) formula.clauses
      ∧ ∀ l ∈ model, Lit.TrueIn (fun v => (Model.valuesOf model).getD v false) l := by
    rw [known]
    decide
  have full : ∀ σ, Clauses.TrueIn σ formula.clauses → ∃ model ∈ models,
      ∀ l : Lit, l ≠ 0 → l.var ≤ formula.variableCount → Lit.TrueIn σ l → l ∈ model := by
    intro σ holds
    refine ⟨[1, 2, 3, 4].map fun v : Nat => if σ v then (v : Int) else -(v : Int), ?_, ?_⟩
    · have clauses : Clauses.TrueIn σ [[1, 2], [3, 4]] := by rwa [known] at holds
      have either : (σ 1 || σ 2) = true ∧ (σ 3 || σ 4) = true := by
        simpa [Clauses.TrueIn, Clause.TrueIn, Lit.TrueIn, Lit.var, Lit.isPositive] using clauses
      have listed : ∀ a b c d : Bool, (a || b) = true → (c || d) = true
          → [if a then (1 : Int) else -1, if b then 2 else -2, if c then 3 else -3,
              if d then 4 else -4] ∈ models := by
        decide
      exact listed _ _ _ _ either.1 either.2
    · intro l nonzero small holds
      rw [known] at small
      refine List.mem_map.mpr ⟨l.var, ?_, (Lit.eq_of_trueIn_sign nonzero holds).symm⟩
      have positive : 0 < l.var := Int.natAbs_pos.mpr nonzero
      simp only [List.mem_cons, List.not_mem_nil, or_false]
      grind
  refine ⟨formula, loaded, same _ _ (Oracle.ofModels models.reverse).answer rfl (Oracle.ofModels_complete sound full)
    (Oracle.ofModels_complete (fun model listed => sound model (List.mem_reverse.mp listed)) ?_)⟩
  intro σ holds
  obtain ⟨model, listed, all⟩ := full σ holds
  exact ⟨model, List.mem_reverse.mpr listed, all⟩

end KnowledgeCompiler
