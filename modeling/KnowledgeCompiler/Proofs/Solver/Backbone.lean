import KnowledgeCompiler.Proofs.Search

/-! The backbone is exact for every complete source of models.

A solver may have answered other questions before. Then it has met more variables than occur, but an implied literal
over a variable that the assignment leaves open occurs in the formula, whatever values the models list. Two limits of a
solver remain: it cannot negate the least literal, and it has no room for variables beyond the largest one.
-/

namespace KnowledgeCompiler

theorem IsBackbone.congr {clauses others : Clauses} {last : Var} {assignment : List Lit} {found : Option (List Lit)}
    (same : ∀ σ, Clauses.TrueIn σ clauses ↔ Clauses.TrueIn σ others) (holds : IsBackbone clauses last assignment found)
    : IsBackbone others last assignment found := by
  cases found with
  | none => simpa only [IsBackbone, same] using holds
  | some literals => simpa only [IsBackbone, Entailed, same] using holds

/-- The last variable does not matter as long as no variable beyond it occurs. -/
theorem IsBackbone.widen {clauses : Clauses} {last wider : Var} {assignment : List Lit} {found : Option (List Lit)}
    (holds : IsBackbone clauses last assignment found) (wide : last ≤ wider)
    (occurring : ∀ v, v ∈ clauses.vars → v ≤ last)
    : IsBackbone clauses wider assignment found := by
  cases found with
  | none => exact holds
  | some literals =>
      obtain ⟨⟨σ, extends_, model⟩, descending, meaning⟩ := holds
      refine ⟨⟨σ, extends_, model⟩, descending, fun l => (meaning l).trans ?_⟩
      constructor
      · rintro ⟨present, inRange, fresh, entailed⟩
        exact ⟨present, Nat.le_trans inRange wide, fresh, entailed⟩
      · rintro ⟨present, _, fresh, entailed⟩
        exact ⟨present, occurring _ (entailed.occurs extends_ model fresh), fresh, entailed⟩

namespace Solver

-----------------------------------------------------------------------------------------
-- Solvers in use
-----------------------------------------------------------------------------------------

/-- One of the questions that a solver answers. -/
inductive Query where
  | isSatisfiable (assignment : List Lit)
  | model (assignment : List Lit)
  | propagation (assignment : List Lit)
  | probing (assignment : List Lit) (vars : List Var) (iterate : Bool)
  | backbone (assignment : List Lit)

/-- Answers a question, whatever the answer is. -/
def Query.answer {ε : Type} : Query → Action ε Solver Unit
  | .isSatisfiable assignment => discard (Solver.isSatisfiable assignment)
  | .model assignment => discard (model? assignment)
  | .propagation assignment => discard (propagate assignment)
  | .probing assignment vars iterate => discard (probe assignment vars iterate)
  | .backbone assignment => discard (backbone? assignment)

/-- A solver for a formula that has answered any number of questions since it was made. -/
inductive InUse (formula : Formula) (oracle : Oracle) : Solver → Prop where
  | made {solver : Solver} (made : ofOracle formula oracle = .ok solver) : InUse formula oracle solver
  | answered {ε : Type} {solver : Solver} {journal : Journal} {next : Journaled Solver}
    (before : InUse formula oracle solver) (query : Query)
    (run : (query.answer : Action ε Solver Unit) ⟨solver, journal⟩ = .ok () next)
    : InUse formula oracle next.state

/-- A solver with a given source of models that has met at least the variables that occur, and none beyond those of the
formula.
-/
structure Ready (formula : Formula) (oracle : Oracle) (solver : Solver) : Prop where
  source : solver.oracle = oracle
  fits : FitsWithin formula solver.reach solver
  met : occurringReach formula ≤ solver.reach
  covered : solver.reach ≤ formula.variableCount

variable {ε : Type} {formula : Formula} {oracle : Oracle} {solver : Solver} {assignment : List Lit}

theorem ready_of_ofOracle (normal : formula.Normal) (complete : oracle.Complete formula)
    (made : ofOracle formula oracle = .ok solver)
    : Ready formula oracle solver := by
  have fits := fits_of_ofOracle complete made
  exact ⟨oracle_of_ofOracle made, fits.reach ▸ fits, Nat.le_of_eq fits.reach.symm,
    fits.reach ▸ occurringReach_le normal⟩

section Ensures

variable {stop : Solver → Prop} (ready : Ready formula oracle solver)

include ready

/-- Questions are asked about variables of the formula only. -/
theorem ask_ready (assignment : List Lit)
    : Action.Ensures (ask assignment : Action ε Solver _) solver (fun _ next => Ready formula oracle next) stop := by
  obtain ⟨source, fits, met, covered⟩ := ready
  unfold ask
  refine Action.Ensures.current ?_
  dsimp only
  split
  · exact Action.Ensures.fault.bind fun _ _ => False.elim
  · rename_i room
    have room := Nat.not_lt.mp room
    refine Action.Ensures.update (Action.Ensures.pure
      ⟨source, ⟨fits.variableCount, rfl, room, fits.propagator, fits.complete⟩,
        Nat.le_trans met (le_reachOf _ _).1, reachOf_le covered fun l member => ?_⟩)
    rw [← fits.variableCount]
    simpa using List.of_mem_filter member

theorem model?_ready (assignment : List Lit)
    : Action.Ensures (model? assignment : Action ε Solver _) solver (fun _ next => Ready formula oracle next) stop := by
  unfold model?
  refine Action.Ensures.checked fun complementary _ => ?_
  split
  · exact .pure ready
  · exact ask_ready ready assignment

/-- Induction on the number of candidates. -/
theorem backboneAmong_ready (assignment candidates : List Lit)
    : Action.Ensures (backboneAmong assignment candidates : Action ε Solver _) solver
        (fun _ next => Ready formula oracle next) stop := by
  induction count : candidates.length using Nat.strongRecOn generalizing candidates solver with
  | ind count ih =>
  subst count
  cases candidates with
  | nil =>
      rw [backboneAmong]
      exact .pure ready
  | cons l rest =>
      rw [backboneAmong]
      refine (model?_ready ready _).bind fun answer next ready => ?_
      cases answer with
      | none => exact (ih _ (Nat.lt_succ_self _) ready rest rfl).bind fun _ _ ready => .pure ready
      | some model => exact ih _ (Nat.lt_succ_of_le (List.length_filter_le _ _)) ready _ rfl

theorem backbone?_ready (assignment : List Lit)
    : Action.Ensures (backbone? assignment : Action ε Solver _) solver (fun _ next => Ready formula oracle next)
        stop := by
  unfold backbone?
  refine (model?_ready ready _).bind fun answer next ready => ?_
  cases answer with
  | none => exact .pure ready
  | some model => exact (backboneAmong_ready ready _ _).bind fun _ _ ready => .note (.pure ready)

theorem answer_ready (query : Query)
    : Action.Ensures (query.answer : Action ε Solver Unit) solver (fun _ next => Ready formula oracle next) stop := by
  cases query with
  | isSatisfiable assignment => exact .discarded ((model?_ready ready assignment).bind fun _ _ ready => .pure ready)
  | model assignment => exact .discarded (model?_ready ready assignment)
  | propagation assignment => exact .discarded (.current (.lifted fun _ _ => ready))
  | probing assignment vars iterate => exact .discarded (.current (.lifted fun _ _ => ready))
  | backbone assignment => exact .discarded (backbone?_ready ready assignment)

end Ensures

/-- Induction on the questions. -/
theorem InUse.ready (normal : formula.Normal) (complete : oracle.Complete formula) (inUse : InUse formula oracle solver)
    : Ready formula oracle solver := by
  induction inUse with
  | made made => exact ready_of_ofOracle normal complete made
  | @answered ε solver journal next _ query run ready =>
      have ends : Action.Ensures (query.answer : Action ε Solver Unit) solver (fun _ next => Ready formula oracle next)
          fun _ => True :=
        answer_ready ready query
      replace ends := ends journal
      rw [run] at ends
      exact ends

-----------------------------------------------------------------------------------------
-- The backbone of a formula
-----------------------------------------------------------------------------------------

/-- The search for complementary literals stops at a literal without a negation. -/
theorem backbone?_of_error {cause : Fault} (stops : hasComplements assignment = .error cause) (journal : Journal)
    : (backbone? assignment : Action ε Solver _) ⟨solver, journal⟩ = .error (.fault cause) ⟨solver, journal⟩ := by
  simp only [backbone?, model?, stops]
  rfl

theorem backbone?_of_complements (complementary : hasComplements assignment = .ok true) (journal : Journal)
    : (backbone? assignment : Action ε Solver _) ⟨solver, journal⟩ = .ok none ⟨solver, journal⟩ := by
  simp only [backbone?, model?, complementary]
  rfl

/-- The solver has no room for a variable of the assignment. -/
theorem backbone?_of_large (ready : Ready formula oracle solver) (consistent : hasComplements assignment = .ok false)
    (covered : ∀ l ∈ assignment, l.var ≤ formula.variableCount)
    (large : solver.oracle.limit < reachOf solver.reach assignment) (journal : Journal)
    : (backbone? assignment : Action ε Solver _) ⟨solver, journal⟩
      = .error (.fault .variableTooLarge) ⟨solver, journal⟩ := by
  have asked : (model? assignment : Action ε Solver _) ⟨solver, journal⟩
      = .error (.fault .variableTooLarge) ⟨solver, journal⟩ := by
    simp only [model?, consistent]
    show (ask assignment : Action ε Solver _) ⟨solver, journal⟩ = _
    rw [ask, Action.current_bind]
    dsimp only
    rw [ready.fits.filter_covered covered, if_pos large]
    rfl
  rw [backbone?, Action.bind_of_error asked]

/-- What a ready solver finds is the backbone. The cases are those of the search for complementary literals: it may stop
at the least literal, or find a pair, or find none. In the last case the solver still may lack room for a variable.
-/
theorem Ready.exact (ready : Ready formula oracle solver) (nonzero : ∀ l ∈ assignment, l ≠ 0)
    (covered : ∀ l ∈ assignment, l.var ≤ formula.variableCount) (journal : Journal)
    : (∀ found after, (backbone? assignment : Action ε Solver _) ⟨solver, journal⟩ = .ok found after
        → IsBackbone formula.clauses formula.variableCount assignment found)
      ∧ (¬ Lit.least ∈ assignment
        → (∃ l ∈ assignment, -l ∈ assignment) ∨ (∀ l ∈ assignment, l.var ≤ oracle.limit)
        → ∃ found after, (backbone? assignment : Action ε Solver _) ⟨solver, journal⟩ = .ok found after) := by
  cases search : hasComplements assignment with
  | error cause =>
      have run := @backbone?_of_error ε solver _ _ search journal
      refine ⟨fun found after returned => absurd (run.symm.trans returned) (by simp), fun negatable _ => ?_⟩
      rw [hasComplements_eq fun l member (extreme : l = Lit.least) => negatable (extreme ▸ member)] at search
      cases search
  | ok complementary =>
      rcases hasComplements_cases search with ⟨rfl, l, member, opposite⟩ | ⟨rfl, apart⟩
      · have run := @backbone?_of_complements ε solver _ search journal
        refine ⟨fun found after returned => ?_, fun _ _ => ⟨_, _, run⟩⟩
        rw [run] at returned
        cases returned
        exact fun σ extends_ _ =>
          (Lit.trueIn_neg (nonzero l member)).mp (extends_ (-l) opposite) (extends_ l member)
      · by_cases room : reachOf solver.reach assignment ≤ solver.oracle.limit
        · have small : ∀ l ∈ assignment, l.var ≤ solver.oracle.limit := fun l member =>
            Nat.le_trans ((le_reachOf solver.reach assignment).2 l member) room
          have asked : AskedWithin (reachOf solver.reach assignment) assignment :=
            ⟨fun l member => ⟨nonzero l member, Nat.lt_of_le_of_lt (small l member) ready.fits.complete.representable⟩,
              (le_reachOf solver.reach assignment).2, fun l member => (apart l member).2⟩
          have covers := reachOf_le ready.covered covered
          obtain ⟨found, after, run, _, isBackbone⟩ :=
            @backbone?_within ε _ _ _ _ _ ready.fits asked rfl room covers journal
          refine ⟨fun found' after' returned => ?_, fun _ _ => ⟨_, _, run⟩⟩
          cases run.symm.trans returned
          refine isBackbone.widen covers fun v occurs => ?_
          exact Nat.le_trans (Nat.le_trans (le_occurringReach occurs) ready.met) (le_reachOf solver.reach assignment).1
        · have run := @backbone?_of_large ε formula oracle solver _ ready search covered (Nat.not_le.mp room) journal
          refine ⟨fun found after returned => absurd (run.symm.trans returned) (by simp), fun _ either => ?_⟩
          rcases either with ⟨l, member, opposite⟩ | small
          · exact absurd opposite (apart l member).2
          · exact absurd (reachOf_le ready.fits.small (ready.source ▸ small)) room

/-- The backbone is exact: clauses over proper literals are loaded, and a solver for them is made if it has room for
their variables. Whatever it has been asked before, and whichever models a complete source chooses, what it then returns
for an assignment is the backbone of the clauses. It does return if the assignment has a complementary pair or variables
for which there is room, unless it holds the least literal.
-/
theorem backbone_exact (variableCount : Nat) {raw : Clauses} (proper : raw.Proper)
    : ∃ formula, Formula.ofClauses variableCount raw = .ok formula
      ∧ (∀ oracle : Oracle, (∀ v, v ∈ formula.occurring → v ≤ oracle.limit)
        → ∃ solver, ofOracle formula oracle = .ok solver)
      ∧ ∀ oracle, oracle.Complete formula → ∀ solver, InUse formula oracle solver → ∀ assignment,
        (∀ l ∈ assignment, l ≠ 0 ∧ l.var ≤ formula.variableCount) → ∀ journal,
        (∀ found after, (backbone? assignment : Action ε Solver _) ⟨solver, journal⟩ = .ok found after
          → IsBackbone raw formula.variableCount assignment found)
        ∧ (¬ Lit.least ∈ assignment
          → (∃ l ∈ assignment, -l ∈ assignment) ∨ (∀ l ∈ assignment, l.var ≤ oracle.limit)
          → ∃ found after, (backbone? assignment : Action ε Solver _) ⟨solver, journal⟩ = .ok found after) := by
  obtain ⟨formula, loaded, normal, meaning, _⟩ := Formula.ofClauses_ok variableCount proper
  refine ⟨formula, loaded, fun oracle small => ?_, fun oracle complete solver inUse assignment covered journal => ?_⟩
  · exact ⟨_, (ofOracle_eq formula oracle).trans (if_neg (Nat.not_lt.mpr (occurringReach_le_of_forall small)))⟩
  · obtain ⟨exact_, returns⟩ := @Ready.exact ε _ _ _ _ (inUse.ready normal complete)
      (fun l member => (covered l member).1) (fun l member => (covered l member).2) journal
    exact ⟨fun found after returned => (exact_ found after returned).congr meaning, returns⟩

/-- Two literals are implied beside variables that stay open, when the solver has met a variable before that occurs in
no clause.
-/
theorem backbone_exact_after_question
    : let raw : Clauses := [[1, 2], [-1, 2], [3, 4, -2]]
      let formula : Formula := { variableCount := 7, clauses := [[1, 2], [-1, 2], [-2, 3, 4]] }
      ∃ solver next found after, Formula.ofClauses 7 raw = .ok formula
        ∧ ofFormula formula = .ok solver
        ∧ (Query.answer (.model [7]) : Action Empty Solver Unit) ⟨solver, #[]⟩ = .ok () next
        ∧ (backbone? [-4, 5] : Action Empty Solver _) next = .ok found after
        ∧ IsBackbone raw 7 [-4, 5] found := by
  intro raw formula
  have proper : ∀ clause ∈ raw, ∀ l ∈ clause, Lit.Proper l := by decide
  obtain ⟨other, loaded, _, finds⟩ := @backbone_exact Empty 7 raw proper
  obtain rfl : other = formula := Except.ok.inj (loaded.symm.trans (by decide))
  obtain ⟨_, same, normal, _⟩ := Formula.ofClauses_ok 7 proper
  obtain rfl := Except.ok.inj (same.symm.trans loaded)
  let solver : Solver :=
    { variableCount := 7, reach := 4, propagator := .ofClauses formula.clauses, oracle := .ofFormula formula }
  have made : ofFormula formula = .ok solver := rfl
  obtain ⟨next, run⟩ : ∃ next, (Query.answer (.model [7]) : Action Empty Solver Unit) ⟨solver, #[]⟩ = .ok () next :=
    ⟨_, rfl⟩
  have inUse : InUse formula (.ofFormula formula) next.state := .answered (.made made) _ run
  obtain ⟨exact_, returns⟩ := finds _ (Oracle.ofFormula_complete normal) _ inUse [-4, 5] (by decide) next.journal
  obtain ⟨found, after, returned⟩ := returns (by decide) (.inr (by decide))
  exact ⟨_, next, found, after, loaded, made, run, returned, exact_ found after returned⟩

/-- Complete sources of models do not help against the two limits of a solver: the least literal, which has no negation,
stops the search for complementary literals; and there is no room for a variable beyond the largest one.
-/
theorem backbone_of_unrepresentable_literals
    : let empty : Formula := { variableCount := 2147483648 }
      let single : Formula := { variableCount := 268435457, clauses := [[1]] }
      (Formula.ofClauses 2147483648 [] = .ok empty
        ∧ (Oracle.ofFormula empty).Complete empty
        ∧ Lit.least ≠ 0 ∧ Lit.least.var ≤ 2147483648
        ∧ ∃ solver, ofFormula empty = .ok solver
          ∧ (backbone? [Lit.least] : Action Empty Solver _) ⟨solver, #[]⟩
            = .error (.fault .negationOverflow) ⟨solver, #[]⟩)
      ∧ Formula.ofClauses 268435457 [[1]] = .ok single
        ∧ (Oracle.ofFormula single).Complete single
        ∧ ∃ solver, ofFormula single = .ok solver
          ∧ (backbone? [268435457] : Action Empty Solver _) ⟨solver, #[]⟩
            = .error (.fault .variableTooLarge) ⟨solver, #[]⟩ := by
  intro empty single
  obtain ⟨_, loaded, normal, _⟩ := @Formula.ofClauses_ok 2147483648 [] (by simp)
  obtain rfl : _ = empty := Except.ok.inj (loaded.symm.trans (by decide))
  obtain ⟨_, loaded', normal', _⟩ := @Formula.ofClauses_ok 268435457 [[1]] (by decide)
  obtain rfl : _ = single := Except.ok.inj (loaded'.symm.trans (by decide))
  refine ⟨⟨loaded, Oracle.ofFormula_complete normal, by decide, by decide, _, rfl, ?_⟩, loaded',
    Oracle.ofFormula_complete normal', _, rfl, rfl⟩
  exact backbone?_of_error (by decide) _

end Solver

end KnowledgeCompiler
