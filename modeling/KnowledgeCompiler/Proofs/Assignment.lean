import KnowledgeCompiler.Clause
import KnowledgeCompiler.Proofs.SortedSet

/-! The meaning of literals and clauses under total assignments.

Two well-formedness conditions accompany the meaning. A proper literal is not zero and has a negation.
A tidy clause has proper literals over distinct variables, so it holds neither a repetition nor a
complementary pair.
-/

namespace KnowledgeCompiler

/-- A value for every variable. -/
abbrev Assignment := Var → Bool

-----------------------------------------------------------------------------------------
-- Literals
-----------------------------------------------------------------------------------------

namespace Lit

/-- A literal is true under an assignment. -/
def TrueIn (σ : Assignment) (l : Lit) : Prop := σ l.var = l.isPositive

instance (σ : Assignment) (l : Lit) : Decidable (TrueIn σ l) :=
  inferInstanceAs (Decidable (σ l.var = l.isPositive))

/-- A literal that is not zero and whose variable is below half the range of words. -/
def Proper (l : Lit) : Prop := l ≠ 0 ∧ l.var < 2147483648

instance (l : Lit) : Decidable (Proper l) := inferInstanceAs (Decidable (l ≠ 0 ∧ l.var < 2147483648))

@[simp]
theorem var_neg (l : Lit) : var (-l) = var l := Int.natAbs_neg l

theorem var_pos {l : Lit} (proper : Proper l) : 0 < var l := Int.natAbs_pos.mpr proper.1

theorem isPositive_neg {l : Lit} (nonzero : l ≠ 0) : isPositive (-l) = !isPositive l := by
  simp only [isPositive]
  grind

theorem Proper.neg {l : Lit} (proper : Proper l) : Proper (-l) :=
  ⟨Int.neg_ne_zero.mpr proper.1, by simpa using proper.2⟩

theorem ne_neg {l : Lit} (nonzero : l ≠ 0) : l ≠ -l := by grind

theorem Proper.ne_neg {l : Lit} (proper : Proper l) : l ≠ -l := Lit.ne_neg proper.1

/-- The complement is true exactly if the literal is not. -/
theorem trueIn_neg {σ : Assignment} {l : Lit} (nonzero : l ≠ 0) : TrueIn σ (-l) ↔ ¬ TrueIn σ l := by
  simp only [TrueIn, var_neg, isPositive_neg nonzero]
  cases σ l.var <;> cases isPositive l <;> simp

/-- A proper literal has a negation. -/
theorem eq_neg_of_negate {l k : Lit} (done : Lit.negate l = .ok k) : k = -l := by
  unfold Lit.negate at done
  split at done
  · cases done
  · exact (Except.ok.inj done).symm

theorem Proper.negate {l : Lit} (proper : Proper l) : Lit.negate l = .ok (-l) := by
  refine negate_eq_ok ?_
  have small := proper.2
  simp only [least, var] at *
  grind

theorem Proper.ne_least {l : Lit} (proper : Proper l) : l ≠ least := by
  rintro rfl
  exact absurd proper.2 (by decide)

/-- A variable and a polarity determine a literal. -/
theorem eq_of_var_eq {l k : Lit} (vars : var l = var k) (signs : isPositive l = isPositive k)
    : l = k := by
  simp only [var, isPositive] at *
  grind

/-- A literal over the same variable is the literal or its complement. -/
theorem eq_or_eq_neg {l k : Lit} (vars : var l = var k) : l = k ∨ l = -k :=
  Int.natAbs_eq_natAbs_iff.mp vars

/-- The truth of a literal depends on the value of its variable only. -/
theorem trueIn_congr {σ τ : Assignment} {l : Lit} (agree : σ l.var = τ l.var)
    : TrueIn σ l ↔ TrueIn τ l := by
  simp only [TrueIn, agree]

/-- Two literals over one variable that are both true are equal. -/
theorem eq_of_trueIn {σ : Assignment} {l k : Lit} (vars : var l = var k) (left : TrueIn σ l)
    (right : TrueIn σ k)
    : l = k := by
  refine eq_of_var_eq vars ?_
  simp only [TrueIn] at left right
  rw [← left, ← right, vars]

/-- A true literal has the sign of its variable's value. -/
theorem eq_of_trueIn_sign {σ : Assignment} {l : Lit} (nonzero : l ≠ 0) (holds : TrueIn σ l)
    : l = if σ l.var then (l.var : Int) else -(l.var : Int) := by
  simp only [TrueIn, isPositive, var] at *
  grind

theorem trueIn_ofNat {σ : Assignment} {v : Var} (positive : 0 < v)
    : TrueIn σ (v : Int) ↔ σ v = true := by
  have sign : isPositive (v : Int) = true := by simp [isPositive, positive]
  simp [TrueIn, sign, var]

theorem trueIn_neg_ofNat {σ : Assignment} {v : Var} (positive : 0 < v)
    : TrueIn σ (-(v : Int)) ↔ σ v = false := by
  rw [trueIn_neg (by grind), trueIn_ofNat positive, Bool.not_eq_true]

end Lit

-----------------------------------------------------------------------------------------
-- Clauses
-----------------------------------------------------------------------------------------

/-- A clause is true if one of its literals is. -/
def Clause.TrueIn (σ : Assignment) (clause : Clause) : Prop := ∃ l ∈ clause, Lit.TrueIn σ l

/-- Clauses are true if all of them are. -/
def Clauses.TrueIn (σ : Assignment) (clauses : Clauses) : Prop :=
  ∀ clause ∈ clauses, Clause.TrueIn σ clause

instance (σ : Assignment) (clause : Clause) : Decidable (Clause.TrueIn σ clause) :=
  inferInstanceAs (Decidable (∃ l ∈ clause, Lit.TrueIn σ l))

instance (σ : Assignment) (clauses : Clauses) : Decidable (Clauses.TrueIn σ clauses) :=
  inferInstanceAs (Decidable (∀ clause ∈ clauses, Clause.TrueIn σ clause))

/-- All literals are proper. -/
def Clauses.Proper (clauses : Clauses) : Prop := ∀ clause ∈ clauses, ∀ l ∈ clause, Lit.Proper l

/-- A clause of proper literals over distinct variables. -/
structure Clause.Tidy (clause : Clause) : Prop where
  proper : ∀ l ∈ clause, Lit.Proper l
  distinct : (clause.map Lit.var).Nodup

/-- Clauses that are all tidy. -/
def Clauses.Tidy (clauses : Clauses) : Prop := ∀ clause ∈ clauses, Clause.Tidy clause

namespace Clause

/-- The truth of a clause depends on the values of its variables only. -/
theorem trueIn_congr {σ τ : Assignment} {clause : Clause}
    (agree : ∀ l ∈ clause, σ l.var = τ l.var)
    : TrueIn σ clause ↔ TrueIn τ clause := by
  constructor
  · rintro ⟨l, member, holds⟩
    exact ⟨l, member, (Lit.trueIn_congr (agree l member)).mp holds⟩
  · rintro ⟨l, member, holds⟩
    exact ⟨l, member, (Lit.trueIn_congr (agree l member)).mpr holds⟩

theorem Tidy.filter {clause : Clause} (tidy : Tidy clause) (keep : Lit → Bool)
    : Tidy (clause.filter keep) where
  proper l member := tidy.proper l (List.mem_of_mem_filter member)
  distinct := tidy.distinct.sublist (List.Sublist.map Lit.var List.filter_sublist)

end Clause

namespace Clauses

theorem mem_vars {clauses : Clauses} {v : Var}
    : v ∈ clauses.vars ↔ ∃ clause ∈ clauses, ∃ l ∈ clause, l.var = v := by
  simp only [vars, SortedSet.mem_ofList, List.mem_map, List.mem_flatten]
  constructor
  · rintro ⟨l, ⟨clause, inside, member⟩, rfl⟩
    exact ⟨clause, inside, l, member, rfl⟩
  · rintro ⟨clause, inside, l, member, rfl⟩
    exact ⟨l, ⟨clause, inside, member⟩, rfl⟩

theorem var_mem_vars {clauses : Clauses} {clause : Clause} {l : Lit} (inside : clause ∈ clauses)
    (member : l ∈ clause)
    : l.var ∈ clauses.vars :=
  mem_vars.mpr ⟨clause, inside, l, member, rfl⟩

/-- The truth of clauses depends on the values of their variables only. -/
theorem trueIn_congr {σ τ : Assignment} {clauses : Clauses}
    (agree : ∀ v, v ∈ clauses.vars → σ v = τ v)
    : TrueIn σ clauses ↔ TrueIn τ clauses := by
  have each : ∀ clause ∈ clauses, (Clause.TrueIn σ clause ↔ Clause.TrueIn τ clause) :=
    fun clause inside =>
      Clause.trueIn_congr fun l member => agree l.var (var_mem_vars inside member)
  exact ⟨fun holds clause inside => (each clause inside).mp (holds clause inside),
    fun holds clause inside => (each clause inside).mpr (holds clause inside)⟩

/-- With the empty clause there is no model. -/
theorem not_trueIn_of_nil {σ : Assignment} {clauses : Clauses} (empty : [] ∈ clauses) : ¬ TrueIn σ clauses := by
  intro model
  obtain ⟨l, member, _⟩ := model [] empty
  exact List.not_mem_nil member

theorem trueIn_append {σ : Assignment} {left right : Clauses}
    : TrueIn σ (left ++ right) ↔ TrueIn σ left ∧ TrueIn σ right := by
  simp only [TrueIn, List.mem_append, or_imp, forall_and]

/-- The variables of tidy clauses are positive and below half the range of words. -/
theorem Tidy.vars_bound {clauses : Clauses} (tidy : Tidy clauses) {v : Var}
    (member : v ∈ clauses.vars)
    : 0 < v ∧ v < 2147483648 := by
  obtain ⟨clause, inside, l, found, rfl⟩ := mem_vars.mp member
  have proper := (tidy clause inside).proper l found
  exact ⟨Lit.var_pos proper, proper.2⟩

theorem Tidy.proper {clauses : Clauses} (tidy : Tidy clauses) : clauses.Proper := fun clause inside =>
  (tidy clause inside).proper

/-- A literal over a variable of tidy clauses is proper. -/
theorem Tidy.proper_of_var {clauses : Clauses} (tidy : Tidy clauses) {l : Lit}
    (member : l.var ∈ clauses.vars)
    : l.Proper := by
  obtain ⟨positive, small⟩ := tidy.vars_bound member
  exact ⟨Int.natAbs_pos.mp positive, small⟩

theorem Proper.nonzero {clauses : Clauses} (proper : clauses.Proper)
    : ∀ clause ∈ clauses, ∀ l ∈ clause, l ≠ 0 :=
  fun clause inside l member => (proper clause inside l member).1

theorem Proper.vars_bound {clauses : Clauses} (proper : clauses.Proper) {v : Var}
    (member : v ∈ clauses.vars)
    : 0 < v ∧ v < 2147483648 := by
  obtain ⟨clause, inside, l, found, rfl⟩ := mem_vars.mp member
  exact ⟨Lit.var_pos (proper clause inside l found), (proper clause inside l found).2⟩

end Clauses

/-- An assignment that agrees with literals over some variables. -/
def Agrees (literals : List Lit) (vars : SortedSet Var) (σ : Assignment) : Prop :=
  ∀ l ∈ literals, l.var ∈ vars → Lit.TrueIn σ l

namespace Agrees

variable {literals : List Lit} {vars : SortedSet Var} {σ τ : Assignment}

theorem mono {fewer : SortedSet Var} (agrees : Agrees literals vars σ)
    (subset : ∀ v, v ∈ fewer → v ∈ vars)
    : Agrees literals fewer σ := fun l member inside => agrees l member (subset l.var inside)

theorem congr (agree : ∀ v, v ∈ vars → σ v = τ v) : Agrees literals vars σ ↔ Agrees literals vars τ :=
  forall₃_congr fun l _ inside => Lit.trueIn_congr (agree l.var inside)

end Agrees

/-- Literals of which no two are complementary. Zero, its own complement, is not among them. -/
def ComplementFree (literals : List Lit) : Prop := ∀ l ∈ literals, ¬ -l ∈ literals

instance (literals : List Lit) : Decidable (ComplementFree literals) :=
  inferInstanceAs (Decidable (∀ l ∈ literals, ¬ -l ∈ literals))

namespace ComplementFree

variable {literals : List Lit}

/-- Two literals over one variable are the same one. -/
theorem eq_of_var (free : ComplementFree literals) {l k : Lit} (left : l ∈ literals)
    (right : k ∈ literals) (same : l.var = k.var)
    : l = k := by
  rcases Lit.eq_or_eq_neg same with equal | rfl
  · exact equal
  · exact absurd left (free k right)

theorem ne_zero (free : ComplementFree literals) {l : Lit} (member : l ∈ literals) : l ≠ 0 := by
  rintro rfl
  exact free 0 member member

/-- An assignment that agrees with the literals over some variables can be changed elsewhere, and only where
literals are assumed, to satisfy all of the literals.
-/
theorem exists_override (free : ComplementFree literals) {vars : SortedSet Var} {τ : Assignment}
    (agrees : Agrees literals vars τ)
    : ∃ σ : Assignment, (∀ l ∈ literals, Lit.TrueIn σ l)
      ∧ ∀ v, (v ∈ vars ∨ ∀ l ∈ literals, l.var ≠ v) → σ v = τ v := by
  classical
  let σ : Assignment := fun v =>
    if found : ∃ l ∈ literals, l.var = v then found.choose.isPositive else τ v
  have value : ∀ l ∈ literals, σ l.var = l.isPositive := by
    intro l member
    have found : ∃ k ∈ literals, k.var = l.var := ⟨l, member, rfl⟩
    have same := free.eq_of_var found.choose_spec.1 member found.choose_spec.2
    simp only [σ, dif_pos found, same]
  refine ⟨σ, value, fun v either => ?_⟩
  by_cases found : ∃ l ∈ literals, l.var = v
  · obtain ⟨l, member, rfl⟩ := found
    rw [value l member]
    exact (agrees l member (either.resolve_right fun free => free l member rfl)).symm
  · simp only [σ, dif_neg found]

theorem exists_extending (free : ComplementFree literals) {vars : SortedSet Var} {τ : Assignment}
    (agrees : Agrees literals vars τ)
    : ∃ σ : Assignment, (∀ l ∈ literals, Lit.TrueIn σ l) ∧ ∀ v, v ∈ vars → σ v = τ v := by
  obtain ⟨σ, extends_, same⟩ := free.exists_override agrees
  exact ⟨σ, extends_, fun v inside => same v (.inl inside)⟩

end ComplementFree

/-- Literals that can be assumed: proper ones, none together with its complement. -/
structure Admissible (literals : List Lit) : Prop where
  proper : ∀ l ∈ literals, Lit.Proper l
  consistent : ∀ l ∈ literals, ¬ -l ∈ literals

namespace Admissible

variable {literals : List Lit}

theorem complementFree (admissible : Admissible literals) : ComplementFree literals := admissible.consistent

theorem filter (admissible : Admissible literals) (keep : Lit → Bool)
    : Admissible (literals.filter keep) where
  proper l member := admissible.proper l (List.mem_filter.mp member).1
  consistent l member opposite :=
    admissible.consistent l (List.mem_filter.mp member).1 (List.mem_filter.mp opposite).1

/-- Two literals over one variable are the same one. -/
theorem eq_of_var (admissible : Admissible literals) {l k : Lit} (left : l ∈ literals)
    (right : k ∈ literals) (same : l.var = k.var)
    : l = k :=
  admissible.complementFree.eq_of_var left right same

theorem exists_extending (admissible : Admissible literals) {vars : SortedSet Var} {τ : Assignment}
    (agrees : Agrees literals vars τ)
    : ∃ σ : Assignment, (∀ l ∈ literals, Lit.TrueIn σ l) ∧ ∀ v, v ∈ vars → σ v = τ v :=
  admissible.complementFree.exists_extending agrees

end Admissible

/-- The literals over some of the variables. -/
def literalsOver (vars : SortedSet Var) (literals : List Lit) : List Lit :=
  literals.filter fun l => vars.contains l.var

theorem mem_literalsOver {vars : SortedSet Var} {literals : List Lit} {l : Lit}
    : l ∈ literalsOver vars literals ↔ l ∈ literals ∧ l.var ∈ vars := by
  rw [literalsOver, List.mem_filter, SortedSet.contains_iff]

/-- Agreement over some variables only depends on the literals over them. -/
theorem agrees_literalsOver {vars : SortedSet Var} {literals : List Lit} {σ : Assignment}
    : Agrees (literalsOver vars literals) vars σ ↔ Agrees literals vars σ := by
  refine forall_congr' fun l => ?_
  rw [mem_literalsOver]
  exact ⟨fun agrees member inside => agrees ⟨member, inside⟩ inside,
    fun agrees member inside => agrees member.1 inside⟩

/-- Over variables of proper literals, literals without complements can be assumed. -/
theorem ComplementFree.admissible {vars : SortedSet Var} {literals : List Lit}
    (free : ComplementFree literals) (bounded : ∀ v, v ∈ vars → 0 < v ∧ v < 2147483648)
    : Admissible (literalsOver vars literals) where
  proper l member := by
    obtain ⟨positive, small⟩ := bounded l.var (mem_literalsOver.mp member).2
    refine ⟨?_, small⟩
    rintro rfl
    exact absurd positive (by decide)
  consistent l member opposite :=
    free l (mem_literalsOver.mp member).1 (mem_literalsOver.mp opposite).1

end KnowledgeCompiler
