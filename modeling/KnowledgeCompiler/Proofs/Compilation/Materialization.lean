import KnowledgeCompiler.Proofs.Formula
import KnowledgeCompiler.Proofs.Materialization
import KnowledgeCompiler.Proofs.Sorting
import KnowledgeCompiler.Proofs.Compilation.Simulation

/-! The size from which formulas are materialised changes nothing.

The two compilations keep residual formulas with the same clauses and the same assignment. The assigned
literals are over variables of the current clauses, which have a value on neither side.
-/

namespace KnowledgeCompiler.Compiling

open KnowledgeCompiler.Action Residual

-----------------------------------------------------------------------------------------
-- Related formulas
-----------------------------------------------------------------------------------------

/-- Residual formulas with the same views, whose clauses are tidy. -/
structure TidyViews (g h : Residual) : Prop extends SameViews g h where
  tidy : g.current.Tidy

/-- Assigning literals over current variables. -/
theorem TidyViews.assign {g h : Residual} (same : TidyViews g h) {literals : List Lit}
    (inside : ∀ l ∈ literals, l.var ∈ g.vars)
    : TidyViews (g.assign literals) (h.assign literals) := by
  refine ⟨same.toSameViews.assign (fun l member => ?_), ?_⟩
  · rw [isAssigned, isAssigned, value_of_mem_vars (inside l member),
      value_of_mem_vars (same.vars ▸ inside l member)]
  · rw [current_assign same.left]
    exact same.tidy.assignEach literals

theorem TidyViews.isolate {g h : Residual} (same : TidyViews g h) (nonempty : ¬ [] ∈ g.current)
    (materialize materialize' : Bool) (all : SortedSet Var) (model : Option Model)
    (component : SortedSet Var)
    : TidyViews (isolate materialize g all model component)
        (isolate materialize' h all model component) := by
  have divided : SameViews (g.divide materialize component) (h.divide materialize' component) :=
    same.toSameViews.divide
      (fun empty => absurd (hasEmptyClause_iff.mp empty) nonempty) component
  refine ⟨divided.fix _, fun clause inside => ?_⟩
  rw [current_isolate materialize nonempty, current_restrict] at inside
  exact same.tidy clause (List.mem_of_mem_filter inside)

/-- The implied literals are over current variables. -/
theorem impliedLiterals_inside (g : Residual) (literals : List Lit)
    : ∀ l ∈ dropRepeats
          (sortBy (fun l k => decide (l.var ≤ k.var))
            (literals.filter fun l => g.vars.contains l.var)),
        l.var ∈ g.vars := by
  intro l member
  rw [mem_dropRepeats, mem_sortBy, List.mem_filter] at member
  exact SortedSet.contains_iff.mp member.2

-----------------------------------------------------------------------------------------
-- The lock step
-----------------------------------------------------------------------------------------

variable {s t : Compiler}

/-- Asking one solver the same question. -/
theorem onSolver_agree {α : Type} (solver : Solver) (question : Action CompileError Solver α)
    (alike : Alike Eq s t)
    : Agree (onSolver solver question) (onSolver solver question) s t (Equal Eq) := by
  refine Agree.within ((Agree.refl question solver).mono (fun a c b d equal => ⟨equal.1, ?_⟩))
  exact ⟨alike.config, alike.circuit, congrArg some equal.2, alike.cache, alike.cuts,
    alike.statistics⟩

theorem askModel_agree {g h : Residual} (same : SameViews g h) (alike : Alike Eq s t)
    : Agree (askModel g) (askModel h) s t fun p s q t => p = q ∧ Alike Eq s t := by
  refine Agree.current ?_
  rw [alike.solver, same.assignment]
  cases t.solver with
  | none => exact Agree.pure ⟨rfl, alike⟩
  | some solver =>
      refine Agree.bind (onSolver_agree solver _ alike) (fun found s found' t equal => ?_)
      obtain ⟨rfl, alike⟩ := equal
      cases found with
      | none => exact Agree.pure ⟨rfl, alike⟩
      | some model => exact Agree.pure ⟨rfl, alike⟩

theorem findImplied_agree {g h : Residual} (same : SameViews g h) (alike : Alike Eq s t)
    : Agree (findImplied g) (findImplied h) s t (Equal Eq) := by
  unfold findImplied
  rw [same.assignment, same.current]
  simp only [ProbingRule.choose_congr same.toSameView]
  refine config_agree alike (fun materializeAbove => Agree.current ?_)
  rw [alike.solver]
  dsimp only
  cases s.config.implied with
  | propagation =>
      cases t.solver with
      | none =>
          cases (Propagator.ofClauses h.current).propagate [] with
          | error cause => exact fun _ => rfl
          | ok found => exact fun _ => ⟨⟨rfl, alike⟩, rfl⟩
      | some solver => exact onSolver_agree solver _ alike
  | probing iterate =>
      cases t.solver with
      | none => exact Agree.checked (fun found _ => Agree.pure ⟨rfl, alike⟩)
      | some solver =>
          refine Agree.bind (onSolver_agree solver _ alike) (fun found s found' t equal => ?_)
          exact Agree.pure ⟨congrArg _ equal.1, equal.2⟩
  | backbone =>
      cases t.solver with
      | none => exact fun _ => rfl
      | some solver => exact onSolver_agree solver _ alike

theorem impliedLiterals_agree {g h : Residual} (same : SameViews g h) (alike : Alike Eq s t)
    : Agree (impliedLiterals g) (impliedLiterals h) s t fun found s found' t =>
        Equal Eq found s found' t
        ∧ ∀ literals, found = some literals → ∀ l ∈ literals, l.var ∈ g.vars := by
  unfold impliedLiterals
  rw [← same.vars]
  refine Agree.bind (findImplied_agree same alike) (fun found s found' t equal => ?_)
  obtain ⟨rfl, alike⟩ := equal
  refine Agree.pure ⟨⟨rfl, alike⟩, fun literals result => ?_⟩
  obtain ⟨all, _, rfl⟩ := Option.map_eq_some_iff.mp result
  exact impliedLiterals_inside g all

/-- Formulas with the same views, the same models and the same solver go through the same steps. -/
theorem sameViews_simulation
    : Simulation Eq TidyViews (fun _ _ => Eq : Residual → Residual → _ → _ → Prop) where
  used equal := congrArg Option.isSome equal
  view related := related.toSameView
  trail related := congrArg List.length related.assignment
  ask related alike := by
    refine (askModel_agree related.toSameViews alike).mono (fun p s q t result => ?_)
    obtain ⟨rfl, alike⟩ := result
    refine ⟨?_, alike⟩
    cases p <;> simp [RelatedProspects]
  implied related alike := by
    refine (impliedLiterals_agree related.toSameViews alike).mono (fun p s q t result => ?_)
    obtain ⟨equal, inside⟩ := result
    exact ⟨equal, fun literals found => ⟨related.assign (inside literals found), fun _ _ => id⟩⟩
  branch related member chosen := by
    refine related.assign (fun l inside => ?_)
    rw [List.mem_singleton.mp inside, var_of_branch related.tidy member chosen]
    exact member
  isolate related models nonempty _ := by
    subst models
    exact related.isolate nonempty _ _ _ _ _

end KnowledgeCompiler.Compiling

namespace KnowledgeCompiler

/-- The compilation of a formula does not depend on the size from which formulas are materialised. -/
theorem Formula.Normal.compileWith_materializeAbove {formula : Formula} (normal : formula.Normal)
    (config : CompilerConfig) (materializeAbove : Nat) (oracle : Oracle)
    : Compiling.SameOutcome (formula.compileWith config oracle)
        (formula.compileWith { config with materializeAbove } oracle) := by
  have start : Compiling.TidyViews (.ofClauses formula.clauses) (.ofClauses formula.clauses) :=
    ⟨.refl (.ofClauses _), by rw [Residual.current_ofClauses]; exact normal.tidy⟩
  refine Compiling.SameOutcome.of_agree
    (Compiling.formula_agree Compiling.sameViews_simulation rfl start (fun _ => rfl) ?_
      ⟨rfl, rfl, trivial, rfl, rfl, rfl⟩)
    (fun _ _ _ _ equal => equal.1)
  intro solver solver' made made'
  rw [made] at made'
  injection made' with equal
  rw [equal]

/-- Splitting in place and splitting into copies are the same: the size from which formulas are
materialised changes no compilation, and twins cannot be told apart.
-/
theorem splitting_in_place_or_apart (variableCount : Nat) (raw : Clauses)
    (proper : ∀ clause ∈ raw, ∀ l ∈ clause, Lit.Proper l)
    : (∃ formula, Formula.ofClauses variableCount raw = .ok formula
        ∧ ∀ config materializeAbove oracle,
          Compiling.SameOutcome (formula.compileWith config oracle)
            (formula.compileWith { config with materializeAbove } oracle))
      ∧ ∀ g h, Residual.Twins g h → Residual.SameObservations g h := by
  obtain ⟨formula, loaded, normal, _⟩ := Formula.ofClauses_ok variableCount proper
  refine ⟨⟨formula, loaded, ?_⟩, fun g h twins => twins.sameViews.sameObservations⟩
  exact fun config materializeAbove oracle =>
    normal.compileWith_materializeAbove config materializeAbove oracle

/-- The first component of three clauses under a literal, in place and as a part, before and after its
variable is assigned.
-/
theorem splitting_three_clauses
    : (∃ formula, Formula.ofClauses 5 [[1, 2], [-1, 3], [4, 5]] = .ok formula
        ∧ ∀ config materializeAbove oracle,
          Compiling.SameOutcome (formula.compileWith config oracle)
            (formula.compileWith { config with materializeAbove } oracle))
      ∧ Residual.SameObservations
          ((((Residual.ofClauses [[1, 2], [-1, 3], [4, 5]]).assign [1]).divide false
            (.ofList [3])).assign [3])
          ((((Residual.ofClauses [[1, 2], [-1, 3], [4, 5]]).assign [1]).divide true
            (.ofList [3])).assign [3]) := by
  obtain ⟨compilations, twins⟩ := splitting_in_place_or_apart 5 [[1, 2], [-1, 3], [4, 5]]
    (by simp [Lit.Proper, Lit.var])
  refine ⟨compilations, twins _ _ ?_⟩
  have start := Residual.Twins.ofClauses [[1, 2], [-1, 3], [4, 5]]
  have assigned := Residual.Twins.assign (fun l (_ : l ∈ [1]) => rfl) start
  exact (assigned.divide (by decide) (.ofList [3])).assign (by decide)

end KnowledgeCompiler
