import KnowledgeCompiler.Solver
import KnowledgeCompiler.Proofs.Action
import KnowledgeCompiler.Proofs.Formula
import KnowledgeCompiler.Proofs.Reduction

/-! What a solver answers, given a complete source of models.

A question about an assignment has an answer exactly if a model extends the assignment. The backbone is
the same list of literals for all sources.
-/

namespace KnowledgeCompiler

-----------------------------------------------------------------------------------------
-- Models
-----------------------------------------------------------------------------------------

/-- The total assignment of a model; what it does not mention is false. -/
def Model.assignment (model : Model) : Assignment := fun v => model.values.getD v false

namespace Model

theorem literal?_eq {model : Model} {v : Var} (positive : 0 < v) (inRange : v ≤ model.reach)
    : model.literal? v = some (if model.assignment v then (v : Int) else -(v : Int)) := by
  have present : (v == 0 || decide (model.reach < v)) = false := by
    simp only [Bool.or_eq_false_iff, beq_eq_false_iff_ne, decide_eq_false_iff_not]
    exact ⟨Nat.ne_of_gt positive, Nat.not_lt.mpr inRange⟩
  unfold literal? assignment
  rw [present]
  cases model.values.getD v false <;> rfl

/-- The literal of a variable is true, and it is a literal of the variable. -/
theorem literal?_trueIn {model : Model} {v : Var} {l : Lit} (found : model.literal? v = some l)
    : 0 < v ∧ v ≤ model.reach ∧ l.var = v ∧ l ≠ 0 ∧ Lit.TrueIn model.assignment l := by
  have bounds : 0 < v ∧ v ≤ model.reach := by
    by_contra outside
    have absent : model.literal? v = none := by
      unfold literal?
      rw [if_pos]
      simp only [Bool.or_eq_true, beq_iff_eq, decide_eq_true_eq]
      grind
    simp [absent] at found
  obtain ⟨positive, inRange⟩ := bounds
  rw [literal?_eq positive inRange] at found
  refine ⟨positive, inRange, ?_⟩
  cases value : model.assignment v with
  | true =>
      simp only [value, if_true, Option.some.injEq] at found
      subst found
      exact ⟨rfl, by grind, (Lit.trueIn_ofNat positive).mpr value⟩
  | false =>
      simp only [value, Bool.false_eq_true, if_false, Option.some.injEq] at found
      subst found
      exact ⟨Lit.var_neg _, by grind, (Lit.trueIn_neg_ofNat positive).mpr value⟩

/-- A model contains the literals within its reach that are true. -/
theorem contains_iff {model : Model} {l : Lit} (nonzero : l ≠ 0) (inRange : l.var ≤ model.reach)
    : model.contains l = true ↔ Lit.TrueIn model.assignment l := by
  have positive : 0 < l.var := Int.natAbs_pos.mpr nonzero
  have found := literal?_eq positive inRange
  obtain ⟨_, _, same, _, holds⟩ := literal?_trueIn found
  rw [contains, found, beq_iff_eq, Option.some.injEq]
  constructor
  · intro equal
    exact equal ▸ holds
  · exact fun holds' => Lit.eq_of_trueIn same holds holds'

end Model

-----------------------------------------------------------------------------------------
-- Complete oracles
-----------------------------------------------------------------------------------------

/-- A question that may be put to an oracle: literals over variables of the formula without a
complementary pair.
-/
structure Formula.Question (formula : Formula) (assumption : List Lit) : Prop where
  proper : ∀ l ∈ assumption, l.Proper
  covered : ∀ l ∈ assumption, l.var ≤ formula.variableCount
  consistent : ∀ l ∈ assumption, ¬ -l ∈ assumption

/-- A complete source of models: what it answers is a model that extends the assumption, and it has no
answer only if there is none. The variables that it can represent are variables of literals.
-/
structure Oracle.Complete (oracle : Oracle) (formula : Formula) : Prop where
  representable : oracle.limit < 2147483648
  model : ∀ {call assumption literals}, formula.Question assumption
    → oracle.answer call assumption = some literals
    → Clauses.TrueIn (fun v => (Model.valuesOf literals).getD v false) formula.clauses
      ∧ ∀ l ∈ assumption, Lit.TrueIn (fun v => (Model.valuesOf literals).getD v false) l
  none : ∀ {call assumption}, formula.Question assumption → oracle.answer call assumption = none
    → ∀ σ, (∀ l ∈ assumption, Lit.TrueIn σ l) → ¬ Clauses.TrueIn σ formula.clauses

/-- A literal that is true in every model that extends the assignment. -/
def Entailed (clauses : Clauses) (assignment : List Lit) (l : Lit) : Prop :=
  ∀ σ, (∀ k ∈ assignment, Lit.TrueIn σ k) → Clauses.TrueIn σ clauses → Lit.TrueIn σ l

/-- An implied literal over a variable without a value occurs, unless there is no model at all. -/
theorem Entailed.occurs {clauses : Clauses} {assignment : List Lit} {l : Lit} (entailed : Entailed clauses assignment l)
    {σ : Assignment} (extends_ : ∀ k ∈ assignment, Lit.TrueIn σ k) (model : Clauses.TrueIn σ clauses)
    (fresh : ∀ k ∈ assignment, k.var ≠ l.var)
    : l.var ∈ clauses.vars := by
  by_contra absent
  let τ : Assignment := Function.update σ l.var !l.isPositive
  have kept : ∀ k ∈ assignment, Lit.TrueIn τ k := fun k known =>
    (Lit.trueIn_congr (Function.update_of_ne (fresh k known) ..)).mpr (extends_ k known)
  have agree : ∀ v, v ∈ clauses.vars → τ v = σ v := fun v member =>
    Function.update_of_ne (fun same : v = l.var => absent (same ▸ member)) ..
  have holds : Lit.TrueIn τ l := entailed τ kept ((Clauses.trueIn_congr agree).mpr model)
  simp [Lit.TrueIn, τ] at holds

/-- What is to be found under an assignment: nothing if no model extends it; otherwise, by descending variable, the
literals over other variables up to the last one that are true in every model that extends it.
-/
def IsBackbone (clauses : Clauses) (last : Var) (assignment : List Lit) : Option (List Lit) → Prop
  | none => ∀ σ, (∀ l ∈ assignment, Lit.TrueIn σ l) → ¬ Clauses.TrueIn σ clauses
  | some literals =>
      (∃ σ, (∀ l ∈ assignment, Lit.TrueIn σ l) ∧ Clauses.TrueIn σ clauses)
      ∧ (literals.Pairwise fun l k => k.var < l.var)
      ∧ ∀ l, l ∈ literals ↔ l ≠ 0 ∧ l.var ≤ last ∧ (∀ k ∈ assignment, k.var ≠ l.var) ∧ Entailed clauses assignment l

namespace Solver

theorem reachOf_le {start bound : Nat} {literals : List Lit} (small : start ≤ bound)
    (each : ∀ l ∈ literals, l.var ≤ bound)
    : reachOf start literals ≤ bound := by
  induction literals generalizing start with
  | nil => exact small
  | cons l rest ih =>
      obtain ⟨first, later⟩ := List.forall_mem_cons.mp each
      exact ih (Nat.max_le.mpr ⟨small, first⟩) later

theorem le_reachOf (start : Nat) (literals : List Lit)
    : start ≤ reachOf start literals ∧ ∀ l ∈ literals, l.var ≤ reachOf start literals :=
  Formula.foldl_max_var literals start

/-- The largest variable that occurs in a formula. -/
def occurringReach (formula : Formula) : Nat := reachOf 0 formula.clauses.flatten

theorem le_occurringReach {formula : Formula} {v : Var} (occurs : v ∈ Clauses.vars formula.clauses)
    : v ≤ occurringReach formula := by
  obtain ⟨clause, inside, l, member, rfl⟩ := Clauses.mem_vars.mp occurs
  exact (le_reachOf 0 _).2 l (List.mem_flatten.mpr ⟨clause, inside, member⟩)

theorem occurringReach_le_of_forall {formula : Formula} {bound : Nat}
    (each : ∀ v, v ∈ formula.occurring → v ≤ bound)
    : occurringReach formula ≤ bound := by
  refine reachOf_le (Nat.zero_le _) fun l member => each l.var ?_
  obtain ⟨clause, listed, inside⟩ := List.mem_flatten.mp member
  exact Clauses.var_mem_vars listed inside

/-- A solver of a formula with a complete oracle, which has met the variables up to some reach and has room for them. -/
structure FitsWithin (formula : Formula) (bound : Nat) (solver : Solver) : Prop where
  variableCount : solver.variableCount = formula.variableCount
  reach : solver.reach = bound
  small : bound ≤ solver.oracle.limit
  propagator : solver.propagator = .ofClauses formula.clauses
  complete : solver.oracle.Complete formula

/-- An assignment over variables within reach, without a complementary pair. -/
structure AskedWithin (reach : Nat) (assignment : List Lit) : Prop where
  proper : ∀ l ∈ assignment, l.Proper
  covered : ∀ l ∈ assignment, l.var ≤ reach
  consistent : ∀ l ∈ assignment, ¬ -l ∈ assignment

/-- A model of a formula that extends an assignment and has values for the variables within reach. -/
structure ShowsWithin (formula : Formula) (bound : Nat) (assignment : List Lit) (model : Model) : Prop where
  reach : model.reach = bound
  holds : Clauses.TrueIn model.assignment formula.clauses
  extends_ : ∀ l ∈ assignment, Lit.TrueIn model.assignment l

/-- A solver of a formula with a complete oracle, which has met no variables but those that occur. -/
abbrev Fits (formula : Formula) (solver : Solver) : Prop := FitsWithin formula (occurringReach formula) solver

/-- An assignment over variables that occur, without a complementary pair. -/
abbrev Asked (formula : Formula) (assignment : List Lit) : Prop := AskedWithin (occurringReach formula) assignment

/-- A model of a formula that extends an assignment, with values for the variables that occur. -/
abbrev Shows (formula : Formula) (assignment : List Lit) (model : Model) : Prop :=
  ShowsWithin formula (occurringReach formula) assignment model

section

variable {ε : Type} {formula : Formula} {solver : Solver} {assignment : List Lit} {start reach : Nat}

theorem occurringReach_le (normal : formula.Normal)
    : occurringReach formula ≤ formula.variableCount := occurringReach_le_of_forall normal.covered

/-- No variable of the literals is beyond the reach. -/
theorem reachOf_eq {literals : List Lit} (each : ∀ l ∈ literals, l.var ≤ reach) : reachOf reach literals = reach :=
  Nat.le_antisymm (reachOf_le (Nat.le_refl _) each) (le_reachOf reach literals).1

/-- Solvers for one formula exist for all oracles or for none, and differ in the oracle only. -/
theorem ofOracle_eq (formula : Formula) (oracle : Oracle)
    : ofOracle formula oracle
      = if oracle.limit < reachOf 0 formula.clauses.flatten
        then .error .variableTooLarge
        else .ok {
          variableCount := formula.variableCount
          reach := reachOf 0 formula.clauses.flatten
          propagator := .ofClauses formula.clauses
          oracle := oracle
        } := rfl

theorem oracle_of_ofOracle {oracle : Oracle} (made : ofOracle formula oracle = .ok solver)
    : solver.oracle = oracle := by
  rw [ofOracle_eq] at made
  split at made
  · cases made
  · exact Except.ok.inj made ▸ rfl

/-- A solver with a complete oracle fits its formula. -/
theorem fits_of_ofOracle {oracle : Oracle} (complete : oracle.Complete formula)
    (made : ofOracle formula oracle = .ok solver)
    : solver.Fits formula := by
  rw [ofOracle_eq] at made
  split at made
  · simp at made
  · rename_i small
    obtain rfl := Except.ok.inj made
    exact ⟨rfl, rfl, Nat.not_lt.mp small, rfl, complete⟩

theorem AskedWithin.append (asked : AskedWithin reach assignment) {l : Lit} (proper : l.Proper)
    (covered : l.var ≤ reach) (fresh : ∀ k ∈ assignment, k.var ≠ l.var)
    : AskedWithin reach (assignment ++ [l]) where
  proper := List.forall_mem_append.mpr ⟨asked.proper, by simpa using proper⟩
  covered := List.forall_mem_append.mpr ⟨asked.covered, by simpa using covered⟩
  consistent k member opposite := by
    simp only [List.mem_append, List.mem_singleton] at member opposite
    rcases member with old | rfl <;> rcases opposite with old' | same
    · exact asked.consistent k old old'
    · exact fresh k old (by rw [← same, Lit.var_neg])
    · exact fresh _ old' (Lit.var_neg k)
    · exact proper.ne_neg same.symm

/-- The solver disregards no literal over variables of the formula. -/
theorem FitsWithin.filter_covered (fits : FitsWithin formula start solver)
    (covered : ∀ l ∈ assignment, l.var ≤ formula.variableCount)
    : (assignment.filter fun l => decide (l.var ≤ solver.variableCount)) = assignment := by
  refine List.filter_eq_self.mpr fun l member => ?_
  rw [decide_eq_true_eq, fits.variableCount]
  exact covered l member

/-- A question is answered by a model if there is one. The solver then has met the variables of the question as well. -/
theorem ask_within (fits : FitsWithin formula start solver) (asked : AskedWithin reach assignment)
    (grown : reachOf start assignment = reach) (small : reach ≤ solver.oracle.limit)
    (covered : reach ≤ formula.variableCount)
    : Action.Returns (ask assignment : Action ε Solver _) solver fun found solver =>
        FitsWithin formula reach solver
        ∧ (found = none → ∀ σ, (∀ l ∈ assignment, Lit.TrueIn σ l)
          → ¬ Clauses.TrueIn σ formula.clauses)
        ∧ ∀ model, found = some model → ShowsWithin formula reach assignment model := by
  have question : formula.Question assignment :=
    ⟨asked.proper, fun l member => Nat.le_trans (asked.covered l member) covered, asked.consistent⟩
  unfold ask
  refine Action.Returns.current ?_
  dsimp only
  rw [fits.filter_covered question.covered, fits.reach, grown, if_neg (Nat.not_lt.mpr small)]
  refine Action.Returns.update (Action.Returns.pure ?_)
  refine ⟨⟨fits.variableCount, rfl, small, fits.propagator, fits.complete⟩, ?_, ?_⟩
  · intro nothing
    exact fits.complete.none question (Option.map_eq_none_iff.mp nothing)
  · intro model found
    obtain ⟨literals, answer, rfl⟩ := Option.map_eq_some_iff.mp found
    obtain ⟨holds, extends_⟩ := fits.complete.model question answer
    exact ⟨rfl, holds, extends_⟩

theorem hasComplements_consistent (asked : AskedWithin reach assignment)
    : hasComplements assignment = .ok false := by
  rw [hasComplements_ok asked.proper]
  congr
  rw [List.any_eq_false]
  intro l member
  simpa using asked.consistent l member

theorem model?_within (fits : FitsWithin formula start solver) (asked : AskedWithin reach assignment)
    (grown : reachOf start assignment = reach) (small : reach ≤ solver.oracle.limit)
    (covered : reach ≤ formula.variableCount)
    : Action.Returns (model? assignment : Action ε Solver _) solver fun found solver =>
        FitsWithin formula reach solver
        ∧ (found = none → ∀ σ, (∀ l ∈ assignment, Lit.TrueIn σ l)
          → ¬ Clauses.TrueIn σ formula.clauses)
        ∧ ∀ model, found = some model → ShowsWithin formula reach assignment model := by
  unfold model?
  exact Action.Returns.checked (hasComplements_consistent asked) (ask_within fits asked grown small covered)

theorem model?_spec (normal : formula.Normal) (fits : Fits formula solver)
    (asked : Asked formula assignment)
    : Action.Returns (model? assignment : Action ε Solver _) solver fun found solver =>
        Fits formula solver
        ∧ (found = none → ∀ σ, (∀ l ∈ assignment, Lit.TrueIn σ l)
          → ¬ Clauses.TrueIn σ formula.clauses)
        ∧ ∀ model, found = some model → Shows formula assignment model :=
  model?_within fits asked (reachOf_eq asked.covered) fits.small (occurringReach_le normal)

-----------------------------------------------------------------------------------------
-- The backbone
-----------------------------------------------------------------------------------------

/-- A literal that is false in a model is not entailed. -/
theorem ShowsWithin.not_entailed {model : Model} (shows_ : ShowsWithin formula reach assignment model) {l : Lit}
    (untrue : ¬ Lit.TrueIn model.assignment l)
    : ¬ Entailed formula.clauses assignment l :=
  fun entailed => untrue (entailed _ shows_.extends_ shows_.holds)

/-- The candidates that are kept are those that are entailed. A model in which one of them is false rules out this one
and others that are not entailed; induction on the number of candidates.
-/
theorem backboneAmong_within (covered : reach ≤ formula.variableCount) (asked : AskedWithin reach assignment)
    {candidates : List Lit} (fit : ∀ l ∈ candidates, l.Proper ∧ l.var ≤ reach)
    (fresh : ∀ l ∈ candidates, ∀ k ∈ assignment, k.var ≠ l.var) (fits : FitsWithin formula reach solver)
    : Action.Returns (backboneAmong assignment candidates : Action ε Solver _) solver
        fun found solver =>
          FitsWithin formula reach solver
          ∧ found.Sublist candidates
          ∧ ∀ l ∈ candidates, l ∈ found ↔ Entailed formula.clauses assignment l := by
  induction count : candidates.length using Nat.strongRecOn generalizing candidates solver with
  | ind count ih =>
  subst count
  cases candidates with
  | nil =>
      rw [backboneAmong]
      exact Action.Returns.pure ⟨fits, List.nil_sublist _, by simp⟩
  | cons l rest =>
      obtain ⟨⟨proper, inRange⟩, fitRest⟩ := List.forall_mem_cons.mp fit
      obtain ⟨freshFirst, freshRest⟩ := List.forall_mem_cons.mp fresh
      have asksOpposite : AskedWithin reach (assignment ++ [-l]) :=
        asked.append proper.neg (by simpa using inRange) (by simpa using freshFirst)
      rw [backboneAmong]
      refine Action.Returns.bind (model?_within fits asksOpposite (reachOf_eq asksOpposite.covered) fits.small covered)
        fun answer solver result => ?_
      obtain ⟨fits, none_, some_⟩ := result
      cases answer with
      | none =>
          have entailed : Entailed formula.clauses assignment l := by
            intro σ extends_ holds
            by_contra untrue
            refine none_ rfl σ (List.forall_mem_append.mpr ⟨extends_, ?_⟩) holds
            simpa using (Lit.trueIn_neg proper.1).mpr untrue
          refine Action.Returns.bind (ih _ (Nat.lt_succ_self _) fitRest freshRest fits rfl)
            fun found solver result => ?_
          obtain ⟨fits, sublist, meaning⟩ := result
          refine Action.Returns.pure ⟨fits, sublist.cons_cons l, List.forall_mem_cons.mpr ⟨by simp [entailed], ?_⟩⟩
          intro k member
          rw [List.mem_cons, meaning k member]
          exact or_iff_right_of_imp fun same => same ▸ entailed
      | some model =>
          have opposite := some_ model rfl
          have shows_ : ShowsWithin formula reach assignment model :=
            ⟨opposite.reach, opposite.holds, fun k member => opposite.extends_ k (List.mem_append_left _ member)⟩
          have untrue : ¬ Lit.TrueIn model.assignment l :=
            (Lit.trueIn_neg proper.1).mp (opposite.extends_ (-l) (by simp))
          have contained : ∀ k ∈ l :: rest, model.contains k = true ↔ Lit.TrueIn model.assignment k := fun k member =>
            Model.contains_iff (fit k member).1.1 (shows_.reach ▸ (fit k member).2)
          have kept : ∀ k, k ∈ rest.filter model.contains → k ∈ rest := fun k => List.mem_of_mem_filter
          refine (ih _ (Nat.lt_succ_of_le (List.length_filter_le _ _)) (fun k member => fitRest k (kept k member))
            (fun k member => freshRest k (kept k member)) fits rfl).mono ?_
          rintro found solver ⟨fits, sublist, meaning⟩
          refine ⟨fits, (sublist.trans List.filter_sublist).cons l, fun k member => ?_⟩
          by_cases holds : Lit.TrueIn model.assignment k
          · have later : k ∈ rest := (List.mem_cons.mp member).resolve_left fun same => untrue (same ▸ holds)
            exact meaning k (List.mem_filter.mpr ⟨later, (contained k member).mpr holds⟩)
          · refine iff_of_false (fun inside => holds ?_) (shows_.not_entailed holds)
            exact (contained k member).mp (List.mem_filter.mp (sublist.subset inside)).2

/-- The literals of a model by ascending variable. -/
theorem pairwise_literals (model : Model)
    : model.literals.Pairwise fun l k => l.var < k.var := by
  rw [Model.literals, List.pairwise_filterMap]
  refine List.Pairwise.imp (fun {v w} below l found k found' => ?_) List.pairwise_lt_range'
  rw [(Model.literal?_trueIn found).2.2.1, (Model.literal?_trueIn found').2.2.1]
  exact below

theorem mem_literals {model : Model} {l : Lit}
    : l ∈ model.literals ↔ l ≠ 0 ∧ l.var ≤ model.reach ∧ Lit.TrueIn model.assignment l := by
  simp only [Model.literals, List.mem_filterMap, List.mem_range'_1]
  constructor
  · rintro ⟨v, _, found⟩
    obtain ⟨_, inRange, rfl, nonzero, holds⟩ := Model.literal?_trueIn found
    exact ⟨nonzero, inRange, holds⟩
  · rintro ⟨nonzero, inRange, holds⟩
    have positive : 0 < l.var := Int.natAbs_pos.mpr nonzero
    refine ⟨l.var, ⟨positive, by grind⟩, ?_⟩
    have found := (Model.contains_iff nonzero inRange).mpr holds
    simpa [Model.contains] using found

/-- The backbone is found: each candidate is a literal of the first model, and none is missing. -/
theorem backbone?_within (fits : FitsWithin formula start solver) (asked : AskedWithin reach assignment)
    (grown : reachOf start assignment = reach) (small : reach ≤ solver.oracle.limit)
    (covered : reach ≤ formula.variableCount) (journal : Journal)
    : ∃ found after,
      (backbone? assignment : Action ε Solver _) ⟨solver, journal⟩
        = .ok found ⟨after, found.elim journal fun literals =>
            journal.push (.backbone assignment.length literals.length)⟩
      ∧ FitsWithin formula reach after
      ∧ IsBackbone formula.clauses reach assignment found := by
  obtain ⟨answer, next, run, nextFits, none_, some_⟩ :=
    @model?_within ε _ _ _ _ _ fits asked grown small covered journal
  cases answer with
  | none =>
      refine ⟨none, next, ?_, nextFits, none_ rfl⟩
      show EStateM.bind _ _ _ = _
      rw [EStateM.bind, run]
      rfl
  | some model =>
      have shows_ := some_ model rfl
      let candidates := (model.literals.filter fun l =>
        !assignment.any fun a => a.var == l.var).reverse
      have candidate : ∀ l, l ∈ candidates ↔ l ≠ 0 ∧ l.var ≤ reach
          ∧ (∀ k ∈ assignment, k.var ≠ l.var) ∧ Lit.TrueIn model.assignment l := by
        intro l
        simp only [candidates, List.mem_reverse, List.mem_filter, mem_literals, shows_.reach]
        simp only [Bool.not_eq_true', List.any_eq_false, beq_iff_eq]
        tauto
      have descending : candidates.Pairwise fun l k => k.var < l.var := by
        rw [List.pairwise_reverse]
        exact (pairwise_literals model).filter _
      have fit : ∀ l ∈ candidates, l.Proper ∧ l.var ≤ reach := by
        intro l member
        obtain ⟨nonzero, inRange, _⟩ := (candidate l).mp member
        exact ⟨⟨nonzero, Nat.lt_of_le_of_lt (Nat.le_trans inRange small) fits.complete.representable⟩, inRange⟩
      obtain ⟨found, last, run', lastFits, sublist, meaning⟩ :=
        @backboneAmong_within ε formula next assignment reach covered asked candidates fit
          (fun l member => ((candidate l).mp member).2.2.1) nextFits journal
      refine ⟨some found, last, ?_, lastFits, ⟨_, shows_.extends_, shows_.holds⟩, descending.sublist sublist,
        fun l => ?_⟩
      · show EStateM.bind _ _ _ = _
        rw [EStateM.bind, run]
        show EStateM.bind _ _ _ = _
        rw [EStateM.bind, run']
        rfl
      · constructor
        · intro member
          have inside := sublist.subset member
          obtain ⟨nonzero, inRange, fresh, _⟩ := (candidate l).mp inside
          exact ⟨nonzero, inRange, fresh, (meaning l inside).mp member⟩
        · rintro ⟨nonzero, inRange, fresh, entailed⟩
          have holds := entailed _ shows_.extends_ shows_.holds
          exact (meaning l ((candidate l).mpr ⟨nonzero, inRange, fresh, holds⟩)).mpr entailed

theorem backbone?_spec (normal : formula.Normal) (fits : Fits formula solver)
    (asked : Asked formula assignment) (journal : Journal)
    : ∃ found after,
      (backbone? assignment : Action ε Solver _) ⟨solver, journal⟩
        = .ok found ⟨after, found.elim journal fun literals =>
            journal.push (.backbone assignment.length literals.length)⟩
      ∧ Fits formula after
      ∧ IsBackbone formula.clauses (occurringReach formula) assignment found :=
  backbone?_within fits asked (reachOf_eq asked.covered) fits.small (occurringReach_le normal) journal

end

end Solver

end KnowledgeCompiler
