import KnowledgeCompiler.Proofs.Solver

/-! The search for models is a complete source of models.

The evidence of the learning search is checked, so only two things matter: that resolution is sound, and
that the plain search finds a model if there is one.
-/

namespace KnowledgeCompiler

-----------------------------------------------------------------------------------------
-- Values of literals
-----------------------------------------------------------------------------------------

namespace Model

theorem getElem?_foldl_values (literals : List Lit) (values : Std.TreeMap Var Bool) (v : Var) (b : Bool)
    (distinct : ∀ l ∈ literals, ∀ k ∈ literals, l.var = k.var → l = k)
    : (literals.foldl (fun values l => values.insert l.var l.isPositive) values)[v]? = some b
      ↔ (∃ l ∈ literals, l.var = v ∧ l.isPositive = b)
        ∨ (∀ l ∈ literals, l.var ≠ v) ∧ values[v]? = some b := by
  induction literals generalizing values with
  | nil => simp
  | cons l rest ih =>
      have later : ∀ k ∈ rest, ∀ m ∈ rest, k.var = m.var → k = m := fun k left m right =>
        distinct k (by simp [left]) m (by simp [right])
      rw [List.foldl_cons, ih _ later]
      simp only [Std.TreeMap.getElem?_insert, Nat.compare_eq_eq, List.mem_cons, exists_eq_or_imp,
        forall_eq_or_imp]
      by_cases same : l.var = v
      · subst same
        simp only [if_true, Option.some.injEq, true_and, ne_eq, not_true_eq_false, false_and, or_false]
        constructor
        · rintro (found | ⟨_, sign⟩)
          · exact .inr found
          · exact .inl sign
        · rintro (sign | found)
          · by_cases repeated : ∃ k ∈ rest, k.var = l.var
            · obtain ⟨k, member, vars⟩ := repeated
              have equal := distinct k (by simp [member]) l (by simp) vars
              exact .inl ⟨k, member, vars, equal ▸ sign⟩
            · simp only [not_exists, not_and] at repeated
              exact .inr ⟨repeated, sign⟩
          · exact .inl found
      · simp only [same, if_false, false_and, false_or, ne_eq, not_false_eq_true, true_and]

/-- The values of literals over distinct variables. -/
theorem getElem?_valuesOf {literals : List Lit}
    (distinct : ∀ l ∈ literals, ∀ k ∈ literals, l.var = k.var → l = k) (v : Var) (b : Bool)
    : (valuesOf literals)[v]? = some b ↔ ∃ l ∈ literals, l.var = v ∧ l.isPositive = b := by
  rw [valuesOf, getElem?_foldl_values literals ∅ v b distinct]
  simp

end Model

/-- A satisfied clause is true under the values, whatever value the other variables have. -/
theorem Clause.trueIn_of_isSatisfied {values : Std.TreeMap Var Bool} {clause : Clause} {σ : Assignment}
    (satisfied : clause.isSatisfied values = true)
    (agree : ∀ l ∈ clause, ∀ b, values[l.var]? = some b → σ l.var = b)
    : Clause.TrueIn σ clause := by
  obtain ⟨l, member, holds⟩ := List.any_eq_true.mp satisfied
  exact ⟨l, member, agree l member _ (by simpa using holds)⟩

-----------------------------------------------------------------------------------------
-- Resolution
-----------------------------------------------------------------------------------------

/-- A clause of literals other than zero that follows from clauses. -/
structure Clauses.Yields (clauses : Clauses) (clause : Clause) : Prop where
  nonzero : ∀ l ∈ clause, l ≠ 0
  follows : ∀ σ, Clauses.TrueIn σ clauses → Clause.TrueIn σ clause

theorem Clauses.Yields.resolve {clauses : Clauses} {clause other : Clause}
    (left : clauses.Yields clause) (right : clauses.Yields other) (l : Lit)
    : clauses.Yields (clause.resolve l other) where
  nonzero k member := by
    rcases List.mem_append.mp member with first | second
    · exact left.nonzero k (List.mem_of_mem_filter first)
    · exact right.nonzero k (List.mem_of_mem_filter second)
  follows σ model := by
    obtain ⟨k, member, holds⟩ := left.follows σ model
    by_cases pivot : k = -l
    · -- The pivot is false, so the other clause has another true literal.
      have nonzero : l ≠ 0 := fun zero => left.nonzero k member (by rw [pivot, zero, Int.neg_zero])
      have untrue : ¬ Lit.TrueIn σ l := (Lit.trueIn_neg nonzero).mp (pivot ▸ holds)
      obtain ⟨m, found, holds'⟩ := right.follows σ model
      have differ : m ≠ l := fun same => untrue (same ▸ holds')
      by_cases repeated : m ∈ clause.filter (· != -l)
      · exact ⟨m, List.mem_append_left _ repeated, holds'⟩
      · refine ⟨m, List.mem_append_right _ (List.mem_filter.mpr ⟨found, ?_⟩), holds'⟩
        simp only [Bool.and_eq_true, bne_iff_ne, ne_eq, Bool.not_eq_true', List.contains_eq_mem,
          decide_eq_false_iff_not]
        exact ⟨differ, repeated⟩
    · refine ⟨k, List.mem_append_left _ (List.mem_filter.mpr ⟨member, ?_⟩), holds⟩
      simpa using pivot

theorem Derivation.follow_yields {clauses : Clauses} {table : Array Clause}
    (sound : ∀ clause ∈ table, clauses.Yields clause) {steps : List (Lit × Nat)} {clause result : Clause}
    (start : clauses.Yields clause) (followed : follow table steps clause = some result)
    : clauses.Yields result := by
  induction steps generalizing clause with
  | nil =>
      obtain rfl := Option.some.inj followed
      exact start
  | cons step rest ih =>
      obtain ⟨l, number⟩ := step
      rw [follow] at followed
      cases found : table[number]? with
      | none => simp [found] at followed
      | some other =>
          rw [found] at followed
          exact ih (start.resolve (sound other (Array.mem_of_getElem? found)) l) followed

/-- Derivations that reach the empty clause refute the clauses; induction on the derivations. -/
theorem refutes_sound {clauses : Clauses} {table : Array Clause} {derivations : List Derivation}
    (sound : ∀ clause ∈ table, clauses.Yields clause) (refuted : refutes table derivations = true)
    (σ : Assignment)
    : ¬ Clauses.TrueIn σ clauses := by
  induction derivations generalizing table with
  | nil => simp [refutes] at refuted
  | cons derivation rest ih =>
      rw [refutes] at refuted
      cases result : derivation.result? table with
      | none => simp [result] at refuted
      | some clause =>
          have yields : clauses.Yields clause := by
            rw [Derivation.result?] at result
            cases found : table[derivation.start]? with
            | none => simp [found] at result
            | some start =>
                rw [found] at result
                exact Derivation.follow_yields sound (sound start (Array.mem_of_getElem? found)) result
          rw [result] at refuted
          cases clause with
          | nil =>
              intro model
              obtain ⟨l, member, _⟩ := yields.follows σ model
              simp at member
          | cons l others =>
              refine ih (fun d member => ?_) refuted
              rcases Array.mem_push.mp member with old | rfl
              · exact sound d old
              · exact yields

-----------------------------------------------------------------------------------------
-- The plain search
-----------------------------------------------------------------------------------------

namespace Clauses

theorem shortest?_eq_none {clauses : Clauses} (none_ : clauses.shortest? = none) : clauses = [] := by
  cases clauses with
  | nil => rfl
  | cons clause rest =>
      rw [shortest?] at none_
      split at none_
      · simp at none_
      · split at none_ <;> simp at none_

theorem shortest?_mem {clauses : Clauses} {clause : Clause} (found : clauses.shortest? = some clause)
    : clause ∈ clauses := by
  induction clauses generalizing clause with
  | nil => simp [shortest?] at found
  | cons first rest ih =>
      rw [shortest?] at found
      split at found
      · exact Option.some.inj found ▸ List.mem_cons_self
      · rename_i other rest_
        split at found
        · exact Option.some.inj found ▸ List.mem_cons_self
        · exact List.mem_cons_of_mem _ (ih (Option.some.inj found ▸ rest_))

/-- What the search finds: literals over distinct variables that occur, one in every clause. -/
structure Solved (clauses : Clauses) (literals : List Lit) : Prop where
  inside : ∀ l ∈ literals, l.var ∈ clauses.vars
  distinct : (literals.map Lit.var).Nodup
  hits : ∀ clause ∈ clauses, ∃ l ∈ clause, l ∈ literals

theorem Solved.cons {clauses : Clauses} {l : Lit} {literals : List Lit} (occurs : l.var ∈ clauses.vars)
    (solved : (clauses.assign l).Solved literals)
    : clauses.Solved (l :: literals) where
  inside := List.forall_mem_cons.mpr
    ⟨occurs, fun k member => (mem_vars_assign (solved.inside k member)).1⟩
  distinct := by
    refine List.nodup_cons.mpr ⟨fun repeated => ?_, solved.distinct⟩
    obtain ⟨k, member, same⟩ := List.mem_map.mp repeated
    exact (mem_vars_assign (solved.inside k member)).2 same
  hits clause inside := by
    by_cases member : l ∈ clause
    · exact ⟨l, member, by simp⟩
    · obtain ⟨k, found, holds⟩ := solved.hits _ (mem_assign.mpr ⟨clause, inside, member, rfl⟩)
      exact ⟨k, List.mem_of_mem_filter found, by simp [holds]⟩

/-- The search solves clauses that have a model. Each step settles a variable; induction on the fuel. -/
theorem search_spec {fuel : Nat} {clauses : Clauses} (tidy : clauses.Tidy)
    (enough : clauses.vars.size < fuel)
    : (∃ literals, clauses.search fuel = some literals ∧ clauses.Solved literals)
      ∨ clauses.search fuel = none ∧ ∀ σ, ¬ TrueIn σ clauses := by
  induction fuel generalizing clauses with
  | zero => omega
  | succ fuel ih =>
      rw [search]
      cases shortest : clauses.shortest? with
      | none =>
          obtain rfl := shortest?_eq_none shortest
          exact .inl ⟨[], rfl, by simp, by simp, by simp⟩
      | some clause =>
          have inside := shortest?_mem shortest
          cases clause with
          | nil =>
              exact .inr ⟨rfl, fun σ => not_trueIn_of_nil inside⟩
          | cons l others =>
              have nonzero := ((tidy _ inside).proper l (by simp)).1
              have occurs : l.var ∈ clauses.vars := var_mem_vars inside (by simp)
              have opposite : (-l).var ∈ clauses.vars := (Lit.var_neg l).symm ▸ occurs
              have first := ih (tidy.assign l)
                (Nat.lt_of_lt_of_le (size_vars_assign_lt occurs) (Nat.le_of_lt_succ enough))
              have second := ih (tidy.assign (-l))
                (Nat.lt_of_lt_of_le (size_vars_assign_lt opposite) (Nat.le_of_lt_succ enough))
              cases others with
              | nil =>
                  rcases first with ⟨literals, found, solved⟩ | ⟨fails, unsat⟩
                  · exact .inl ⟨l :: literals, by simp [found], solved.cons occurs⟩
                  · refine .inr ⟨by simp [fails], fun σ model => ?_⟩
                    obtain ⟨k, member, holds⟩ := model _ inside
                    rw [List.mem_singleton.mp member] at holds
                    exact unsat σ ((trueIn_assign nonzero holds).mpr model)
              | cons k others =>
                  rcases first with ⟨literals, found, solved⟩ | ⟨fails, unsat⟩
                  · exact .inl ⟨l :: literals, by simp [found], solved.cons occurs⟩
                  · rcases second with ⟨literals, found, solved⟩ | ⟨fails', unsat'⟩
                    · exact .inl ⟨-l :: literals, by simp [fails, found], solved.cons opposite⟩
                    · refine .inr ⟨by simp [fails, fails'], fun σ model => ?_⟩
                      by_cases holds : Lit.TrueIn σ l
                      · exact unsat σ ((trueIn_assign nonzero holds).mpr model)
                      · exact unsat' σ ((trueIn_assign (Int.neg_ne_zero.mpr nonzero)
                          ((Lit.trueIn_neg nonzero).mpr holds)).mpr model)

theorem Solved.isSatisfied {clauses : Clauses} {literals : List Lit} (solved : clauses.Solved literals)
    : ∀ clause ∈ clauses, clause.isSatisfied (Model.valuesOf literals) = true := by
  intro clause inside
  obtain ⟨l, member, found⟩ := solved.hits clause inside
  have distinct : ∀ l ∈ literals, ∀ k ∈ literals, l.var = k.var → l = k := fun l left k right =>
    List.inj_on_of_nodup_map solved.distinct left right
  refine List.any_eq_true.mpr ⟨l, member, ?_⟩
  rw [beq_iff_eq, Model.getElem?_valuesOf distinct]
  exact ⟨l, found, rfl, rfl⟩

/-- The literals that are found satisfy the clauses, and without any the clauses have no model. -/
theorem findModel?_spec {clauses : Clauses} (tidy : clauses.Tidy)
    : (∀ literals, clauses.findModel? = some literals
        → ∀ clause ∈ clauses, clause.isSatisfied (Model.valuesOf literals) = true)
      ∧ (clauses.findModel? = none → ∀ σ, ¬ TrueIn σ clauses) := by
  have plain : (∀ literals, clauses.search (clauses.vars.size + 1) = some literals
        → ∀ clause ∈ clauses, clause.isSatisfied (Model.valuesOf literals) = true)
      ∧ (clauses.search (clauses.vars.size + 1) = none → ∀ σ, ¬ TrueIn σ clauses) := by
    rcases search_spec tidy (Nat.lt_succ_self _) with ⟨literals, found, solved⟩ | ⟨fails, unsat⟩
    · rw [found]
      exact ⟨fun _ same => Option.some.inj same ▸ solved.isSatisfied, by simp⟩
    · rw [fails]
      exact ⟨by simp, fun _ => unsat⟩
  unfold findModel?
  dsimp only
  split
  · rename_i literals _
    split
    · rename_i checked
      exact ⟨fun _ same => Option.some.inj same ▸ List.all_eq_true.mp checked, by simp⟩
    · exact plain
  · split
    · rename_i refuted
      refine ⟨by simp, fun _ σ => refutes_sound (fun clause member => ?_) refuted σ⟩
      have inside : clause ∈ clauses := by simpa using member
      exact ⟨fun l found => ((tidy clause inside).proper l found).1, fun σ model => model clause inside⟩
    · exact plain
  · exact plain

end Clauses

-----------------------------------------------------------------------------------------
-- The oracle
-----------------------------------------------------------------------------------------

/-- Assigning the values of literals without a complementary pair reduces the clauses. -/
theorem reduces_assignAll {clauses : Clauses} {assumption : List Lit}
    (proper : ∀ l ∈ assumption, l.Proper) (consistent : ∀ l ∈ assumption, ¬ -l ∈ assumption)
    : Reduces clauses assumption (clauses.assignAll (Model.valuesOf assumption)) := by
  have distinct : ∀ l ∈ assumption, ∀ k ∈ assumption, l.var = k.var → l = k := by
    intro l left k right same
    rcases Lit.eq_or_eq_neg same with equal | opposite
    · exact equal
    · exact absurd (opposite ▸ left) (consistent k right)
  have satisfied : ∀ clause : Clause, clause.isSatisfied (Model.valuesOf assumption) = true
      ↔ ∃ l ∈ clause, l ∈ assumption := by
    intro clause
    simp only [Clause.isSatisfied, List.any_eq_true, beq_iff_eq, Model.getElem?_valuesOf distinct]
    constructor
    · rintro ⟨l, member, k, found, vars, signs⟩
      exact ⟨l, member, Lit.eq_of_var_eq vars signs ▸ found⟩
    · rintro ⟨l, member, found⟩
      exact ⟨l, member, l, found, rfl, rfl⟩
  have valued : ∀ l, (Model.valuesOf assumption).contains l.var = true
      ↔ l ∈ assumption ∨ -l ∈ assumption := by
    intro l
    rw [Std.TreeMap.contains_eq_isSome_getElem?, Option.isSome_iff_exists]
    simp only [Model.getElem?_valuesOf distinct]
    constructor
    · rintro ⟨b, k, found, vars, _⟩
      rcases Lit.eq_or_eq_neg vars with rfl | rfl
      · exact .inl found
      · exact .inr found
    · rintro (found | found)
      · exact ⟨_, l, found, rfl, rfl⟩
      · exact ⟨_, -l, found, Lit.var_neg l, rfl⟩
  have under : ∀ clause : Clause, (∀ l ∈ clause, ¬ l ∈ assumption)
      → (clause.filter fun l => !(Model.valuesOf assumption).contains l.var)
        = clause.under assumption := by
    intro clause untrue
    refine List.filter_congr (fun l member => ?_)
    have known := valued l
    rw [Bool.eq_iff_iff]
    simp only [Bool.not_eq_true', ← Bool.not_eq_true, known, List.contains_eq_mem,
      decide_eq_true_eq, untrue l member, false_or]
  refine ⟨proper, consistent, fun clause inside => ?_, fun clause inside => ?_⟩
  · by_cases holds : ∃ l ∈ clause, l ∈ assumption
    · exact .inl holds
    · refine .inr (List.mem_map.mpr ⟨clause, List.mem_filter.mpr ⟨inside, ?_⟩, under clause ?_⟩)
      · rw [Bool.not_eq_true', ← Bool.not_eq_true, satisfied]
        exact holds
      · exact fun l member found => holds ⟨l, member, found⟩
  · obtain ⟨source, kept, rfl⟩ := List.mem_map.mp inside
    obtain ⟨origin, unsatisfied⟩ := List.mem_filter.mp kept
    rw [Bool.not_eq_true', ← Bool.not_eq_true, satisfied] at unsatisfied
    have untrue : ∀ l ∈ source, ¬ l ∈ assumption := fun l member found =>
      unsatisfied ⟨l, member, found⟩
    exact ⟨source, origin, untrue, (under source untrue).symm⟩

/-- The search for models of a formula is a complete source of models. -/
theorem Oracle.ofFormula_complete {formula : Formula} (normal : formula.Normal)
    : (Oracle.ofFormula formula).Complete formula := by
  have reduction : ∀ {assumption}, formula.Question assumption
      → Reduces formula.clauses assumption
        (formula.clauses.assignAll (Model.valuesOf assumption)) :=
    fun question => reduces_assignAll question.proper question.consistent
  refine ⟨(by decide : Formula.largestVariable < 2147483648), fun {call assumption literals} question answer => ?_,
    fun {call assumption} question answer σ extends_ => ?_⟩
  · have reduces := reduction question
    obtain ⟨found, result, rfl⟩ := Option.map_eq_some_iff.mp answer
    have satisfied := (Clauses.findModel?_spec (reduces.tidy normal.tidy)).1 found result
    have distinct : ∀ l ∈ assumption, ∀ k ∈ assumption, l.var = k.var → l = k := by
      intro l left k right same
      rcases Lit.eq_or_eq_neg same with equal | opposite
      · exact equal
      · exact absurd (opposite ▸ left) (question.consistent k right)
    -- The assumption comes last, so its values are the ones that count.
    have values : ∀ v b, (Model.valuesOf (found ++ assumption))[v]? = some b
        ↔ (∃ l ∈ assumption, l.var = v ∧ l.isPositive = b)
          ∨ (∀ l ∈ assumption, l.var ≠ v) ∧ (Model.valuesOf found)[v]? = some b := by
      intro v b
      rw [Model.valuesOf, List.foldl_append]
      exact Model.getElem?_foldl_values assumption _ v b distinct
    have total : ∀ v b, (Model.valuesOf (found ++ assumption))[v]? = some b
        → (Model.valuesOf (found ++ assumption)).getD v false = b := by
      intro v b value
      rw [Std.TreeMap.getD_eq_getD_getElem?, value]
      rfl
    have extends_ : ∀ l ∈ assumption,
        Lit.TrueIn (fun v => (Model.valuesOf (found ++ assumption)).getD v false) l :=
      fun l member => total _ _ ((values _ _).mpr (.inl ⟨l, member, rfl, rfl⟩))
    refine ⟨(reduces.trueIn_iff extends_).mp (fun clause inside => ?_), extends_⟩
    refine Clause.trueIn_of_isSatisfied (satisfied clause inside) (fun l member b value => ?_)
    refine total _ _ ((values _ _).mpr (.inr ⟨fun k known same => ?_, value⟩))
    exact reduces.apart known (same ▸ Clauses.var_mem_vars inside member)
  · have reduces := reduction question
    have nothing := (Clauses.findModel?_spec (reduces.tidy normal.tidy)).2
      (Option.map_eq_none_iff.mp answer) σ
    exact fun model => nothing ((reduces.trueIn_iff extends_).mpr model)

/-- The oracle that answers with the first of some models that extends the assumption. -/
def Oracle.ofModels (models : List (List Lit)) : Oracle where
  limit := Formula.largestVariable
  answer _ assumption := models.find? fun model => assumption.all model.contains

/-- A list of models is a complete source if it lacks none. -/
theorem Oracle.ofModels_complete {formula : Formula} {models : List (List Lit)}
    (sound : ∀ model ∈ models,
      Clauses.TrueIn (fun v => (Model.valuesOf model).getD v false) formula.clauses
      ∧ ∀ l ∈ model, Lit.TrueIn (fun v => (Model.valuesOf model).getD v false) l)
    (full : ∀ σ, Clauses.TrueIn σ formula.clauses → ∃ model ∈ models,
      ∀ l : Lit, l ≠ 0 → l.var ≤ formula.variableCount → Lit.TrueIn σ l → l ∈ model)
    : (Oracle.ofModels models).Complete formula where
  representable := (by decide : Formula.largestVariable < 2147483648)
  model question answer := by
    obtain ⟨holds, each⟩ := sound _ (List.mem_of_find?_eq_some answer)
    have within_ := List.find?_some answer
    simp only [List.all_eq_true, List.contains_iff_mem] at within_
    exact ⟨holds, fun l member => each l (within_ l member)⟩
  none question answer σ extends_ holds := by
    obtain ⟨model, listed, all⟩ := full σ holds
    refine List.find?_eq_none.mp answer model listed ?_
    simp only [List.all_eq_true, List.contains_iff_mem]
    exact fun l member =>
      all l (question.proper l member).1 (question.covered l member) (extends_ l member)

end KnowledgeCompiler
