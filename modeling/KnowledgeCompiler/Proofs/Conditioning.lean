import KnowledgeCompiler.Solver.Search
import KnowledgeCompiler.Proofs.Assignment
import KnowledgeCompiler.Proofs.Checked

/-! Clauses after literals have become true: what becomes of a clause, which variables are left, and
what the clauses that are left mean.
-/

namespace KnowledgeCompiler.Clauses

theorem mem_assign {clauses : Clauses} {l : Lit} {clause : Clause}
    : clause ∈ clauses.assign l
      ↔ ∃ source ∈ clauses, ¬ l ∈ source ∧ (source.filter (· != -l)) = clause := by
  simp [assign, and_assoc]

/-- Clauses over other variables stay as they are under a literal. -/
theorem assign_eq_self {clauses : Clauses} {l : Lit} (absent : ¬ l.var ∈ clauses.vars)
    : clauses.assign l = clauses := by
  have without : ∀ clause ∈ clauses, ∀ k ∈ clause, k.var ≠ l.var :=
    fun clause inside k member same => absent (same ▸ var_mem_vars inside member)
  have kept : clauses.filter (fun clause => !clause.contains l) = clauses := by
    refine List.filter_eq_self.mpr (fun clause inside => ?_)
    simp only [Bool.not_eq_true', List.contains_eq_mem, decide_eq_false_iff_not]
    exact fun member => without clause inside l member rfl
  rw [assign, kept]
  conv_rhs => rw [← List.map_id clauses]
  refine List.map_congr_left (fun clause inside => ?_)
  refine List.filter_eq_self.mpr (fun k member => ?_)
  simp only [bne_iff_ne, ne_eq]
  rintro rfl
  exact without clause inside _ member (Lit.var_neg l)

theorem Tidy.assign {clauses : Clauses} (tidy : clauses.Tidy) (l : Lit)
    : (clauses.assign l).Tidy := by
  intro clause inside
  obtain ⟨source, member, _, rfl⟩ := mem_assign.mp inside
  exact (tidy source member).filter _

/-- The variables that are left are other variables than that of the literal. -/
theorem mem_vars_assign {clauses : Clauses} {l : Lit} {v : Var} (member : v ∈ (clauses.assign l).vars)
    : v ∈ clauses.vars ∧ v ≠ l.var := by
  obtain ⟨clause, inside, k, found, rfl⟩ := mem_vars.mp member
  obtain ⟨source, origin, lacks, rfl⟩ := mem_assign.mp inside
  obtain ⟨found, other⟩ := List.mem_filter.mp found
  refine ⟨var_mem_vars origin found, fun same => ?_⟩
  rcases Lit.eq_or_eq_neg same with equal | opposite
  · exact lacks (equal ▸ found)
  · simp [opposite] at other

/-- The variable of the literal is not left. -/
theorem size_vars_assign_lt {clauses : Clauses} {l : Lit} (occurs : l.var ∈ clauses.vars)
    : (clauses.assign l).vars.size < clauses.vars.size :=
  SortedSet.size_lt (fun _ member => (mem_vars_assign member).1) occurs
    (fun member => (mem_vars_assign member).2 rfl)

/-- Under an assignment that makes the literal true, the clauses that are left mean the same. -/
theorem trueIn_assign {σ : Assignment} {clauses : Clauses} {l : Lit} (nonzero : l ≠ 0)
    (holds : Lit.TrueIn σ l)
    : TrueIn σ (clauses.assign l) ↔ TrueIn σ clauses := by
  have falsified : ¬ Lit.TrueIn σ (-l) := fun opposite => (Lit.trueIn_neg nonzero).mp opposite holds
  constructor
  · intro left clause inside
    by_cases member : l ∈ clause
    · exact ⟨l, member, holds⟩
    · obtain ⟨k, found, true_⟩ := left _ (mem_assign.mpr ⟨clause, inside, member, rfl⟩)
      exact ⟨k, List.mem_of_mem_filter found, true_⟩
  · intro all clause inside
    obtain ⟨source, origin, _, rfl⟩ := mem_assign.mp inside
    obtain ⟨k, found, true_⟩ := all source origin
    refine ⟨k, List.mem_filter.mpr ⟨found, ?_⟩, true_⟩
    simp only [bne_iff_ne, ne_eq]
    rintro rfl
    exact falsified true_

/-- The clauses after several literals have become true, in order. -/
def assignEach (literals : List Lit) (clauses : Clauses) : Clauses :=
  literals.foldl (fun clauses l => clauses.assign l) clauses

theorem Tidy.assignEach {clauses : Clauses} (tidy : clauses.Tidy) (literals : List Lit)
    : (clauses.assignEach literals).Tidy := by
  induction literals generalizing clauses with
  | nil => exact tidy
  | cons l rest ih => exact ih (tidy.assign l)

/-- The variables that are left are other variables than those of the literals; induction on the
literals.
-/
theorem mem_vars_assignEach {clauses : Clauses} {literals : List Lit} {v : Var}
    (member : v ∈ (clauses.assignEach literals).vars)
    : v ∈ clauses.vars ∧ ∀ l ∈ literals, v ≠ l.var := by
  induction literals generalizing clauses with
  | nil => exact ⟨member, by simp⟩
  | cons l rest ih =>
      obtain ⟨later, others⟩ := ih member
      obtain ⟨before, other⟩ := mem_vars_assign later
      exact ⟨before, List.forall_mem_cons.mpr ⟨other, others⟩⟩

/-- Under an assignment that makes the literals true, the clauses that are left mean the same;
induction on the literals.
-/
theorem trueIn_assignEach {σ : Assignment} {clauses : Clauses} {literals : List Lit}
    (nonzero : ∀ l ∈ literals, l ≠ 0) (holds : ∀ l ∈ literals, Lit.TrueIn σ l)
    : TrueIn σ (clauses.assignEach literals) ↔ TrueIn σ clauses := by
  induction literals generalizing clauses with
  | nil => rfl
  | cons l rest ih =>
      obtain ⟨first, nonzero⟩ := List.forall_mem_cons.mp nonzero
      obtain ⟨true_, holds⟩ := List.forall_mem_cons.mp holds
      exact (ih nonzero holds).trans (trueIn_assign first true_)

-----------------------------------------------------------------------------------------
-- Conditioning
-----------------------------------------------------------------------------------------

variable {σ : Assignment} {clauses rest : Clauses} {assumption : List Lit}

/-- What conditioning leaves of clauses: clauses that mean the same under the assumption, none of them
empty, without the variables of the assumption.
-/
structure Conditioned (clauses : Clauses) (assumption : List Lit) (rest : Clauses) : Prop where
  meaning : ∀ {σ}, (∀ l ∈ assumption, Lit.TrueIn σ l) → (TrueIn σ rest ↔ TrueIn σ clauses)
  source : ∀ clause ∈ rest, clause ≠ [] ∧ ∃ source ∈ clauses, clause.Sublist source
  absent : ∀ l ∈ assumption, ¬ l.var ∈ rest.vars

theorem condition_clause (assumption : List Lit) {clause : Clause}
    (proper : ∀ l ∈ clause, Lit.Proper l)
    : Clause.condition assumption clause
      = .ok (if clause.any assumption.contains then none
          else some (clause.filter fun l => !assumption.contains (-l))) := by
  have kept : filterChecked (fun l => do return !assumption.contains (← Lit.negate l)) clause
      = .ok (clause.filter fun l => !assumption.contains (-l)) :=
    Checked.filterChecked_ok fun l member => by rw [(proper l member).negate]; rfl
  unfold Clause.condition
  rw [kept]
  split <;> rfl

/-- The literals that an assumption does not falsify decide about a clause that it does not satisfy. -/
theorem trueIn_filter_open {clause : Clause} (proper : ∀ l ∈ clause, Lit.Proper l)
    (holds : ∀ l ∈ assumption, Lit.TrueIn σ l)
    : Clause.TrueIn σ (clause.filter fun l => !assumption.contains (-l)) ↔ Clause.TrueIn σ clause := by
  constructor
  · rintro ⟨l, member, true_⟩
    exact ⟨l, (List.mem_filter.mp member).1, true_⟩
  · rintro ⟨l, member, true_⟩
    refine ⟨l, List.mem_filter.mpr ⟨member, ?_⟩, true_⟩
    simp only [Bool.not_eq_true', List.contains_eq_mem, decide_eq_false_iff_not]
    exact fun opposite => (Lit.trueIn_neg (proper l member).1).mp (holds _ opposite) true_

/-- A clause that the assumption satisfies adds nothing. -/
theorem Conditioned.skip {clause : Clause} (conditioned : Conditioned clauses assumption rest)
    (satisfied : clause.any assumption.contains = true)
    : Conditioned (clause :: clauses) assumption rest where
  meaning {σ} extends_ := by
    obtain ⟨l, member, assumed⟩ := List.any_eq_true.mp satisfied
    have holds : Clause.TrueIn σ clause := ⟨l, member, extends_ l (by simpa using assumed)⟩
    rw [conditioned.meaning extends_]
    exact ⟨fun model => List.forall_mem_cons.mpr ⟨holds, model⟩,
      fun model => (List.forall_mem_cons.mp model).2⟩
  source left inside := by
    obtain ⟨nonempty, source, origin, part⟩ := conditioned.source left inside
    exact ⟨nonempty, source, List.mem_cons_of_mem _ origin, part⟩
  absent := conditioned.absent

/-- Of any other clause the open literals are left. -/
theorem Conditioned.keep {clause left : Clause} (conditioned : Conditioned clauses assumption rest)
    (proper : ∀ l ∈ clause, Lit.Proper l) (unsatisfied : ¬ clause.any assumption.contains = true)
    (shape : clause.filter (fun l => !assumption.contains (-l)) = left) (nonempty : left ≠ [])
    : Conditioned (clause :: clauses) assumption (left :: rest) where
  meaning {σ} extends_ := by
    have here := trueIn_filter_open proper extends_
    rw [shape] at here
    exact (List.forall_mem_cons.trans (and_congr here (conditioned.meaning extends_))).trans
      List.forall_mem_cons.symm
  source := by
    refine List.forall_mem_cons.mpr ⟨⟨nonempty, clause, by simp, ?_⟩, fun other inside => ?_⟩
    · rw [← shape]
      exact List.filter_sublist
    · obtain ⟨nonempty, source, origin, part⟩ := conditioned.source other inside
      exact ⟨nonempty, source, List.mem_cons_of_mem _ origin, part⟩
  absent k assumed found := by
    obtain ⟨other, inside, m, member, same⟩ := mem_vars.mp found
    rcases List.mem_cons.mp inside with rfl | inside
    · rw [← shape] at member
      obtain ⟨member, unassumed⟩ := List.mem_filter.mp member
      rcases Lit.eq_or_eq_neg same with equal | opposite
      · refine unsatisfied (List.any_eq_true.mpr ⟨m, member, ?_⟩)
        simpa [equal] using assumed
      · simp [opposite, assumed] at unassumed
    · exact conditioned.absent k assumed (mem_vars.mpr ⟨other, inside, m, member, same⟩)

/-- Conditioning shows that no model extends the assumption, or it leaves clauses that mean the same;
induction on the clauses.
-/
theorem condition_spec (assumption : List Lit) (proper : clauses.Proper)
    : (clauses.condition assumption = .ok none
        ∧ ∀ σ, (∀ l ∈ assumption, Lit.TrueIn σ l) → ¬ TrueIn σ clauses)
      ∨ ∃ rest, clauses.condition assumption = .ok (some rest)
        ∧ Conditioned clauses assumption rest := by
  induction clauses with
  | nil =>
      refine .inr ⟨[], rfl, fun _ => Iff.rfl, by simp, fun l _ found => ?_⟩
      obtain ⟨_, inside, _⟩ := mem_vars.mp found
      cases inside
  | cons clause others ih =>
      obtain ⟨first, later⟩ := List.forall_mem_cons.mp proper
      have shown := condition_clause assumption first
      by_cases satisfied : clause.any assumption.contains = true
      · rw [if_pos satisfied] at shown
        have step : condition assumption (clause :: others) = condition assumption others := by
          rw [condition, shown]
          rfl
        rw [step]
        rcases ih later with ⟨fails, never⟩ | ⟨rest, done, conditioned⟩
        · exact .inl ⟨fails, fun σ extends_ model =>
            never σ extends_ (List.forall_mem_cons.mp model).2⟩
        · exact .inr ⟨rest, done, conditioned.skip satisfied⟩
      · rw [if_neg satisfied] at shown
        cases shape : clause.filter fun l => !assumption.contains (-l) with
        | nil =>
            refine .inl ⟨?_, fun σ extends_ model => ?_⟩
            · rw [condition, shown, shape]
              rfl
            · obtain ⟨l, member, _⟩ :=
                (trueIn_filter_open first extends_).mpr (List.forall_mem_cons.mp model).1
              rw [shape] at member
              cases member
        | cons l more =>
            have step : condition assumption (clause :: others)
                = (do return (← condition assumption others).map ((l :: more) :: ·)) := by
              rw [condition, shown, shape]
              rfl
            rw [step]
            rcases ih later with ⟨fails, never⟩ | ⟨rest, done, conditioned⟩
            · refine .inl ⟨by rw [fails]; rfl, fun σ extends_ model => ?_⟩
              exact never σ extends_ (List.forall_mem_cons.mp model).2
            · exact .inr ⟨(l :: more) :: rest, by rw [done]; rfl,
                conditioned.keep first satisfied shape (by simp)⟩

/-- Conditioning asks for no literal over other variables than those of the clauses; induction on the
clauses.
-/
theorem condition_congr {other : List Lit} (proper : clauses.Proper)
    (same : ∀ l, l.var ∈ clauses.vars → assumption.contains l = other.contains l)
    : clauses.condition assumption = clauses.condition other := by
  induction clauses with
  | nil => rfl
  | cons clause others ih =>
      obtain ⟨first, later⟩ := List.forall_mem_cons.mp proper
      have here : ∀ l ∈ clause, assumption.contains l = other.contains l := fun l member =>
        same l (var_mem_vars List.mem_cons_self member)
      have opposite : ∀ l ∈ clause, assumption.contains (-l) = other.contains (-l) := fun l member =>
        same (-l) (Lit.var_neg l ▸ var_mem_vars List.mem_cons_self member)
      have rest : condition assumption others = condition other others := by
        refine ih later fun l inside => same l ?_
        obtain ⟨source, origin, k, member, found⟩ := mem_vars.mp inside
        exact mem_vars.mpr ⟨source, List.mem_cons_of_mem _ origin, k, member, found⟩
      have settled : Clause.condition assumption clause = Clause.condition other clause := by
        have satisfied : clause.any assumption.contains = clause.any other.contains := by
          rw [Bool.eq_iff_iff, List.any_eq_true, List.any_eq_true]
          exact exists_congr fun l => and_congr_right fun member => by rw [here l member]
        rw [condition_clause assumption first, condition_clause other first, satisfied,
          List.filter_congr fun l member => by rw [opposite l member]]
      rw [condition, condition, settled, rest]

namespace Conditioned

variable (conditioned : Conditioned clauses assumption rest)

include conditioned

theorem proper (proper : clauses.Proper) : rest.Proper := by
  intro clause inside l member
  obtain ⟨_, source, origin, part⟩ := conditioned.source clause inside
  exact proper source origin l (part.subset member)

theorem mem_vars {v : Var} (member : v ∈ rest.vars) : v ∈ clauses.vars := by
  obtain ⟨clause, inside, l, found, rfl⟩ := Clauses.mem_vars.mp member
  obtain ⟨_, source, origin, part⟩ := conditioned.source clause inside
  exact var_mem_vars origin (part.subset found)

end Conditioned

end KnowledgeCompiler.Clauses
