import KnowledgeCompiler.Proofs.Solver

/-! Unit propagation is sound, ends in a fixpoint, and does not depend on any order.

What propagation finds are the derived literals, and what ends it are refuted clauses. Both notions only see which
clauses there are, how often a clause holds a literal, and which literals are assumed. So permuted clauses lead to
the same literals or to a conflict again, although the queue is worked off in another order.
-/

namespace KnowledgeCompiler

variable {clauses others : Clauses} {assumption literals found : List Lit}

-----------------------------------------------------------------------------------------
-- Fixpoints
-----------------------------------------------------------------------------------------

/-- All literals of a clause are false. -/
def Clause.FalsifiedBy (literals : List Lit) (clause : Clause) : Prop := ∀ l ∈ clause, -l ∈ literals

/-- All literals of a clause are false but one, whose variable has no value. -/
def Clause.UnitUnder (literals : List Lit) (clause : Clause) : Prop :=
  ∃ l ∈ clause, (∀ k ∈ literals, k.var ≠ l.var) ∧ ∀ k ∈ clause, k ≠ l → -k ∈ literals

/-- Literals that an assumption implies, over distinct variables without a value. Together with the assumption they
falsify no clause, and they leave no clause unit unless it repeats a literal.
-/
structure Closure (clauses : Clauses) (assumption found : List Lit) : Prop where
  entailed : ∀ l ∈ found, Entailed clauses assumption l
  distinct : (found.map Lit.var).Nodup
  fresh : ∀ l ∈ found, ∀ k ∈ assumption, l.var ≠ k.var
  unfalsified : ∀ clause ∈ clauses, ¬ clause.FalsifiedBy (assumption ++ found)
  settled : ∀ clause ∈ clauses, clause.Nodup → ¬ clause.UnitUnder (assumption ++ found)

/-- The derived literals beyond an assumption are such literals, if the assumption does not refute the clauses. -/
theorem Closure.of_derived (nonzero : ∀ clause ∈ clauses, ∀ l ∈ clause, l ≠ 0)
    (unrefuted : ¬ Refuted clauses assumption) (distinct : (found.map Lit.var).Nodup)
    (meaning : ∀ l, l ∈ found ↔ Derived clauses assumption l ∧ ¬ l ∈ assumption)
    : Closure clauses assumption found := by
  have derived : ∀ l, l ∈ assumption ++ found ↔ Derived clauses assumption l := by
    intro l
    rw [List.mem_append, meaning]
    constructor
    · exact fun either => either.elim .assumed And.left
    · exact fun derived => (Classical.em (l ∈ assumption)).imp_right fun beyond => ⟨derived, beyond⟩
  refine ⟨fun l member σ extends_ model => ?_, distinct, fun l member k assumed same => ?_,
    fun clause inside falsified => ?_, fun clause inside nodup unit => ?_⟩
  · exact ((meaning l).mp member).1.trueIn nonzero model extends_
  · obtain ⟨here, beyond⟩ := (meaning l).mp member
    rcases Lit.eq_or_eq_neg same with rfl | rfl
    · exact beyond assumed
    · exact unrefuted (.pair (.assumed assumed) here)
  · exact unrefuted (.falsified inside fun l member => (derived _).mp (falsified l member))
  · obtain ⟨l, member, free, rest⟩ := unit
    have single : clause.count l = 1 := List.count_eq_one_of_mem nodup member
    have follows : Derived clauses assumption l :=
      .unit inside single fun k other differ => (derived _).mp (rest k other differ)
    exact free l ((derived l).mpr follows) rfl

-----------------------------------------------------------------------------------------
-- Orders
-----------------------------------------------------------------------------------------

/-- The same clauses in another order, with the literals of each of them in another order. -/
def Clauses.Reordered (clauses others : Clauses) : Prop :=
  ∃ middle, List.Forall₂ List.Perm clauses middle ∧ middle.Perm others

theorem Clauses.Reordered.symm (reordered : clauses.Reordered others) : others.Reordered clauses := by
  obtain ⟨middle, within, across⟩ := reordered
  exact List.perm_comp_forall₂ across.symm (within.flip.imp fun _ _ => List.Perm.symm)

/-- Every clause is among the others, up to the order of its literals. -/
theorem Clauses.Reordered.exists_perm (reordered : clauses.Reordered others) {clause : Clause}
    (inside : clause ∈ clauses)
    : ∃ other ∈ others, clause.Perm other := by
  obtain ⟨middle, within, across⟩ := reordered
  have found : ∃ other ∈ middle, clause.Perm other := by
    clear across
    induction within with
    | nil => simp at inside
    | cons first _ ih =>
        rcases List.mem_cons.mp inside with rfl | later
        · exact ⟨_, List.mem_cons_self, first⟩
        · obtain ⟨other, member, same⟩ := ih later
          exact ⟨other, List.mem_cons_of_mem _ member, same⟩
  obtain ⟨other, member, same⟩ := found
  exact ⟨other, across.mem_iff.mp member, same⟩

theorem Clauses.Reordered.proper (reordered : clauses.Reordered others) (proper : clauses.Proper)
    : others.Proper := by
  intro other inside l member
  obtain ⟨clause, origin, same⟩ := reordered.symm.exists_perm inside
  exact proper clause origin l (same.mem_iff.mp member)

/-- Reordered clauses derive the same literals; induction on the derivation. -/
theorem Derived.reorder (reordered : clauses.Reordered others) (same : assumption.Perm literals) {l : Lit}
    (derived : Derived clauses assumption l)
    : Derived others literals l := by
  induction derived with
  | assumed member => exact .assumed (same.mem_iff.mp member)
  | @unit clause l inside single _ ih =>
      obtain ⟨other, member, permuted⟩ := reordered.exists_perm inside
      refine .unit member ((permuted.count_eq l).symm.trans single) fun k found differ => ?_
      exact ih k (permuted.mem_iff.mpr found) differ

theorem Refuted.reorder (reordered : clauses.Reordered others) (same : assumption.Perm literals)
    (refuted : Refuted clauses assumption)
    : Refuted others literals := by
  cases refuted with
  | pair left right => exact .pair (left.reorder reordered same) (right.reorder reordered same)
  | falsified inside each =>
      obtain ⟨other, member, permuted⟩ := reordered.exists_perm inside
      refine .falsified member fun l found => ?_
      exact (each l (permuted.mem_iff.mpr found)).reorder reordered same

/-- Two searches for literals: both end in a conflict, or both find the same ones. -/
def SameFindings : Option (List Lit) → Option (List Lit) → Prop
  | none, none => True
  | some found, some found' => ∀ l, l ∈ found ↔ l ∈ found'
  | _, _ => False

/-- Reordered clauses propagate a reordered assumption in the same way. -/
theorem Propagator.propagate_reordered (proper : clauses.Proper)
    (properAssumption : ∀ l ∈ assumption, l.Proper) (reordered : clauses.Reordered others)
    (same : assumption.Perm literals) {outcome : Option (List Lit)}
    (done : (ofClauses clauses).propagate assumption = .ok outcome)
    : ∃ outcome', (ofClauses others).propagate literals = .ok outcome' ∧ SameFindings outcome outcome' := by
  have properLiterals : ∀ l ∈ literals, l.Proper := fun l member =>
    properAssumption l (same.mem_iff.mpr member)
  rcases propagate_spec proper properAssumption with ⟨found, run, unrefuted, -, meaning⟩ | ⟨run, refuted⟩ <;>
    rcases propagate_spec (reordered.proper proper) properLiterals with
      ⟨found', run', unrefuted', -, meaning'⟩ | ⟨run', refuted'⟩ <;>
    obtain rfl := Except.ok.inj (done.symm.trans run)
  · refine ⟨some found', run', fun l => ?_⟩
    rw [meaning, meaning', same.mem_iff]
    exact and_congr_left fun _ =>
      ⟨fun derived => derived.reorder reordered same, fun derived => derived.reorder reordered.symm same.symm⟩
  · exact absurd (refuted'.reorder reordered.symm same.symm) unrefuted
  · exact absurd (refuted.reorder reordered same) unrefuted'
  · exact ⟨none, run', trivial⟩

/-- Unit propagation ends. Without a result, no model extends the assumption. A result consists of implied literals
over distinct variables without a value, and it is a fixpoint. And no order matters: with the clauses, the literals
of the clauses and the assumption permuted, propagation has no result again or finds the same literals.
-/
theorem Propagator.propagation_closes (proper : clauses.Proper) (properAssumption : ∀ l ∈ assumption, l.Proper)
    : ∃ outcome, (ofClauses clauses).propagate assumption = .ok outcome
      ∧ (outcome = none → ∀ σ, (∀ l ∈ assumption, l.TrueIn σ) → ¬ clauses.TrueIn σ)
      ∧ (∀ found, outcome = some found → Closure clauses assumption found)
      ∧ ∀ (others : Clauses) (literals : List Lit), clauses.Reordered others → assumption.Perm literals
        → ∃ outcome', (ofClauses others).propagate literals = .ok outcome' ∧ SameFindings outcome outcome' := by
  have anyOrder {outcome : Option (List Lit)} (done : (ofClauses clauses).propagate assumption = .ok outcome)
      (others : Clauses) (literals : List Lit) (reordered : clauses.Reordered others)
      (same : assumption.Perm literals) :=
    propagate_reordered proper properAssumption reordered same done
  rcases propagate_spec proper properAssumption with ⟨found, done, unrefuted, distinct, meaning⟩ | ⟨done, refuted⟩
  · refine ⟨some found, done, by simp, fun _ same => ?_, anyOrder done⟩
    exact Option.some.inj same ▸ .of_derived proper.nonzero unrefuted distinct meaning
  · refine ⟨none, done, fun _ σ extends_ => ?_, by simp, anyOrder done⟩
    exact refuted.not_trueIn proper.nonzero (fun l member => (properAssumption l member).1) extends_

/-- A chain of implications beside a clause that repeats its last open literal, and the same in another order: the
chain is found and the repeated literal is not.
-/
theorem Propagator.propagation_closes_chain
    : ∃ found found', (ofClauses [[-1, 3], [5, -3, 5], [-3, 4]]).propagate [1, -2] = .ok (some found)
      ∧ Closure [[-1, 3], [5, -3, 5], [-3, 4]] [1, -2] found
      ∧ (ofClauses [[4, -3], [3, -1], [5, 5, -3]]).propagate [-2, 1] = .ok (some found')
      ∧ ∀ l, l ∈ found ↔ l ∈ found' := by
  obtain ⟨outcome, done, -, closed, reordered⟩ :=
    @propagation_closes [[-1, 3], [5, -3, 5], [-3, 4]] [1, -2]
      (by decide : ∀ clause ∈ _, ∀ l ∈ clause, Lit.Proper l) (by decide)
  have chain : (ofClauses [[-1, 3], [5, -3, 5], [-3, 4]]).propagate [1, -2] = .ok (some [3, 4]) := by
    decide +kernel
  obtain rfl := Except.ok.inj (done.symm.trans chain)
  obtain ⟨outcome', done', same⟩ := reordered [[4, -3], [3, -1], [5, 5, -3]] [-2, 1]
    ⟨[[3, -1], [5, 5, -3], [4, -3]], by decide, by decide⟩ (by decide)
  cases outcome' with
  | none => exact absurd same id
  | some found' => exact ⟨[3, 4], found', done, closed _ rfl, done', same⟩

end KnowledgeCompiler
