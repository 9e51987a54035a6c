import KnowledgeCompiler.ModelCount
import KnowledgeCompiler.Proofs.Conditioning
import KnowledgeCompiler.Proofs.Connected
import KnowledgeCompiler.Proofs.Counting
import KnowledgeCompiler.Proofs.Renaming

/-! The count of a list of clauses is the number of its models.

Variables without an occurrence double the count, components multiply, and the two values of a branching
variable add up. Each recursive call has fewer variables with an occurrence.
-/

namespace KnowledgeCompiler.Clauses

variable {clauses : Clauses} {V : Finset Var}

theorem dependsOn_trueIn (within : ∀ v, v ∈ clauses.vars → v ∈ V)
    : DependsOn (fun σ => TrueIn σ clauses) V := fun _ _ agree =>
  propext (trueIn_congr fun v inside => agree v (within v inside))

/-- Without a variable that occurs, clauses that all have a literal are no clauses. -/
theorem eq_nil_of_no_vars (nonempty : ∀ clause ∈ clauses, clause ≠ []) (nowhere : ∀ v, ¬ v ∈ clauses.vars)
    : clauses = [] := by
  refine List.eq_nil_iff_forall_not_mem.mpr fun clause inside => ?_
  obtain ⟨l, member⟩ := List.exists_mem_of_ne_nil clause (nonempty clause inside)
  exact nowhere l.var (var_mem_vars inside member)

-----------------------------------------------------------------------------------------
-- Counts
-----------------------------------------------------------------------------------------

/-- The number of models over some variables. -/
noncomputable def models (clauses : Clauses) (vars : SortedSet Var) : Nat :=
  countOver vars.toFinset fun σ => TrueIn σ clauses

/-- A product of counts, which may stop when it is zero; induction on the parts. -/
theorem countProduct_ok {count : Clauses → SortedSet Var → Checked Nat}
    {number : Clauses × SortedSet Var → Nat} {parts : List (Clauses × SortedSet Var)}
    (each : ∀ part ∈ parts, count part.1 part.2 = .ok (number part)) (total : Nat)
    : countProduct count parts total = .ok (total * (parts.map number).prod) := by
  induction parts generalizing total with
  | nil => simp [countProduct, pure, Except.pure]
  | cons part rest ih =>
      obtain ⟨here, later⟩ := List.forall_mem_cons.mp each
      rw [countProduct]
      split
      · rename_i zero
        rw [zero, Nat.zero_mul]
        rfl
      · rw [here]
        show countProduct count rest (total * number part) = _
        rw [ih later, List.map_cons, List.prod_cons, Nat.mul_assoc]

/-- The clauses are true if all components are. -/
theorem trueIn_components {σ : Assignment} : TrueIn σ clauses ↔ ∀ part ∈ clauses.components, TrueIn σ part.1 := by
  obtain ⟨members, -, -⟩ := clauses.components_spec
  constructor
  · exact fun model part member clause inside => model clause ((members clause).mpr ⟨part, member, inside⟩)
  · intro model clause inside
    obtain ⟨part, member, listed⟩ := (members clause).mp inside
    exact model part member clause listed

/-- The variables of the components are those of the clauses. -/
theorem exists_component_iff {v : Var} : (∃ part ∈ clauses.components, v ∈ part.1.vars) ↔ v ∈ clauses.vars := by
  obtain ⟨members, -, -⟩ := clauses.components_spec
  constructor
  · rintro ⟨part, found, inside⟩
    obtain ⟨clause, listed, l, member, rfl⟩ := mem_vars.mp inside
    exact var_mem_vars ((members clause).mpr ⟨part, found, listed⟩) member
  · intro inside
    obtain ⟨clause, origin, l, member, rfl⟩ := mem_vars.mp inside
    obtain ⟨part, found, listed⟩ := (members clause).mp origin
    exact ⟨part, found, var_mem_vars listed member⟩

/-- The counts of the components multiply. -/
theorem models_components (clauses : Clauses)
    : clauses.models clauses.vars
      = (clauses.components.map fun part => part.1.models part.2).prod := by
  obtain ⟨-, each, apart⟩ := clauses.components_spec
  have scopes : ∀ part ∈ clauses.components, ∀ {v}, v ∈ part.2.toFinset ↔ v ∈ part.1.vars := by
    intro part member v
    rw [SortedSet.mem_toFinset, (each part member).2]
  calc
    clauses.models clauses.vars
    _ = countOver clauses.vars.toFinset fun σ => ∀ part ∈ clauses.components, TrueIn σ part.1 :=
      countOver_congr fun σ => trueIn_components
    _ = (clauses.components.map fun part => part.1.models part.2).prod := by
      refine countOver_forall ?_ (fun part member => dependsOn_trueIn fun v inside => ?_) fun v => ?_
      · refine apart.imp_of_mem fun {a b} left right separate => ?_
        refine Finset.disjoint_left.mpr fun v first second => ?_
        exact separate v ((scopes a left).mp first) ((scopes b right).mp second)
      · exact (scopes part member).mpr inside
      · rw [SortedSet.mem_toFinset, ← exists_component_iff]
        exact exists_congr fun part => and_congr_right fun member => (scopes part member).symm

/-- A component among several has fewer variables than all of the clauses. -/
theorem size_component_lt (nonempty : ∀ clause ∈ clauses, clause ≠ [])
    (several : 1 < clauses.components.length) {part : Clauses × SortedSet Var}
    (member : part ∈ clauses.components)
    : part.1.vars.size < clauses.vars.size := by
  obtain ⟨members, each, apart⟩ := clauses.components_spec
  -- Another component has a variable, which this one lacks.
  obtain ⟨other, found, separate⟩ : ∃ other ∈ clauses.components,
      ∀ v, v ∈ other.1.vars → ¬ v ∈ part.1.vars := by
    obtain ⟨before, after, split⟩ := List.append_of_mem member
    rw [split] at apart several ⊢
    rw [List.pairwise_append, List.pairwise_cons] at apart
    obtain ⟨-, ⟨later, -⟩, earlier⟩ := apart
    cases before with
    | cons other _ => exact ⟨other, by simp, earlier other (by simp) part (by simp)⟩
    | nil =>
        cases after with
        | nil => simp at several
        | cons other _ => exact ⟨other, by simp, fun v second first => later other (by simp) v first second⟩
  obtain ⟨clause, listed⟩ := List.exists_mem_of_ne_nil _ (each other found).1
  obtain ⟨l, inside⟩ := List.exists_mem_of_ne_nil clause
    (nonempty clause ((members clause).mpr ⟨other, found, listed⟩))
  have elsewhere : l.var ∈ other.1.vars := var_mem_vars listed inside
  refine SortedSet.size_lt (fun v inside => ?_)
    (var_mem_vars ((members clause).mpr ⟨other, found, listed⟩) inside) (separate l.var elsewhere)
  obtain ⟨clause, listed, l, member', rfl⟩ := mem_vars.mp inside
  exact var_mem_vars ((members clause).mpr ⟨part, member, listed⟩) member'

/-- Clauses have a value of a variable if what conditioning leaves of them has models over the other
variables.
-/
theorem countUnder_spec {fuel : Nat} {l : Lit} (proper : clauses.Proper)
    (member : l.var ∈ clauses.vars)
    (recursive : ∀ {rest : Clauses}, rest.Proper → rest.vars.size < clauses.vars.size
      → (∀ v, v ∈ rest.vars → v ∈ clauses.vars.erase l.var)
      → countWithin fuel rest (clauses.vars.erase l.var) = .ok (rest.models (clauses.vars.erase l.var)))
    : countUnder (countWithin fuel) clauses (clauses.vars.erase l.var) l
      = .ok (countOver clauses.vars.toFinset fun σ => TrueIn σ clauses ∧ l.TrueIn σ) := by
  have only : ∀ {σ : Assignment}, l.TrueIn σ → ∀ k ∈ [l], k.TrueIn σ := by simp
  unfold countUnder
  rcases condition_spec [l] proper with ⟨fails, never⟩ | ⟨rest, done, conditioned⟩
  · rw [fails, countOver_false fun σ ⟨model, holds⟩ => never σ (only holds) model]
    rfl
  · have within : ∀ v, v ∈ rest.vars → v ∈ clauses.vars.erase l.var := by
      intro v inside
      refine SortedSet.mem_erase.mpr ⟨conditioned.mem_vars inside, ?_⟩
      rintro rfl
      exact conditioned.absent l (by simp) inside
    have fewer : rest.vars.size < clauses.vars.size :=
      SortedSet.size_lt (fun v inside => conditioned.mem_vars inside) member
        (conditioned.absent l (by simp))
    rw [done]
    show countWithin fuel rest (clauses.vars.erase l.var) = _
    rw [recursive (conditioned.proper proper) fewer within]
    congr 1
    have split : clauses.vars.toFinset = (clauses.vars.erase l.var).toFinset ∪ {l.var} := by
      ext v
      rw [Finset.mem_union, SortedSet.mem_toFinset, SortedSet.mem_toFinset, SortedSet.mem_erase,
        Finset.mem_singleton]
      grind
    have apart : Disjoint (clauses.vars.erase l.var).toFinset {l.var} := by
      rw [Finset.disjoint_singleton_right, SortedSet.mem_toFinset, SortedSet.mem_erase]
      simp
    calc
      rest.models (clauses.vars.erase l.var)
      _ = countOver (clauses.vars.erase l.var).toFinset (fun σ => TrueIn σ rest)
          * countOver {l.var} (fun σ => l.TrueIn σ) := by
        rw [countOver_literal, Nat.mul_one]
        rfl
      _ = countOver clauses.vars.toFinset (fun σ => TrueIn σ rest ∧ l.TrueIn σ) := by
        rw [split]
        refine (countOver_and apart (dependsOn_trueIn fun v inside => ?_) ?_).symm
        · exact SortedSet.mem_toFinset.mpr (within v inside)
        · exact fun σ τ agree => propext (Lit.trueIn_congr (agree l.var (by simp)))
      _ = countOver clauses.vars.toFinset (fun σ => TrueIn σ clauses ∧ l.TrueIn σ) :=
        countOver_congr fun σ => and_congr_left fun holds => conditioned.meaning (only holds)

/-- The two values of a variable add up. -/
theorem models_split {l : Lit} (nonzero : l ≠ 0) (clauses : Clauses) (vars : SortedSet Var)
    : clauses.models vars
      = (countOver vars.toFinset fun σ => TrueIn σ clauses ∧ l.TrueIn σ)
        + countOver vars.toFinset fun σ => TrueIn σ clauses ∧ Lit.TrueIn σ (-l) := by
  rw [← countOver_or fun σ left right => (Lit.trueIn_neg nonzero).mp right.2 left.2]
  refine countOver_congr fun σ => ?_
  rw [Lit.trueIn_neg nonzero, ← and_or_left]
  exact (and_iff_left (Classical.em _)).symm

/-- The count is the number of models; induction on the fuel, of which there is more than there are
variables with an occurrence.
-/
theorem countWithin_spec {fuel : Nat} {vars : SortedSet Var} (proper : clauses.Proper)
    (covered : ∀ v, v ∈ clauses.vars → v ∈ vars) (enough : clauses.vars.size < fuel)
    : countWithin fuel clauses vars = .ok (clauses.models vars) := by
  induction fuel generalizing clauses vars with
  | zero => omega
  | succ fuel ih =>
      rw [countWithin]
      by_cases empty : clauses.any List.isEmpty = true
      · obtain ⟨clause, inside, none⟩ := List.any_eq_true.mp empty
        rw [if_pos empty, models, countOver_false]
        · rfl
        · exact fun σ => not_trueIn_of_nil (List.isEmpty_iff.mp none ▸ inside)
      · have nonempty : ∀ clause ∈ clauses, clause ≠ [] := fun clause inside none =>
          empty (List.any_eq_true.mpr ⟨clause, inside, List.isEmpty_iff.mpr none⟩)
        have scaled : clauses.models vars
            = clauses.models clauses.vars * 2 ^ (vars.size - clauses.vars.size) := by
          rw [models, countOver_widen (V := clauses.vars.toFinset), SortedSet.card_toFinset,
            SortedSet.card_toFinset]
          · rfl
          · exact fun v inside => SortedSet.mem_toFinset.mpr (covered v (SortedSet.mem_toFinset.mp inside))
          · exact dependsOn_trueIn fun v inside => SortedSet.mem_toFinset.mpr inside
        rw [if_neg empty]
        dsimp only
        rw [if_neg (Nat.not_lt.mpr (SortedSet.size_le covered)), scaled]
        split
        · rename_i several
          have each : ∀ part ∈ clauses.components,
              countWithin fuel part.1 part.2 = .ok (part.1.models part.2) := by
            intro part member
            obtain ⟨members, parts, -⟩ := clauses.components_spec
            rw [(parts part member).2]
            refine ih (fun clause listed => ?_) (fun _ => id) ?_
            · exact proper clause ((members clause).mpr ⟨part, member, listed⟩)
            · have smaller := size_component_lt nonempty several member
              omega
          refine (countProduct_ok each _).trans ?_
          rw [← models_components, Nat.mul_comm, Nat.pow_eq]
        · rcases clauses.mostOccurring_spec with ⟨missing, nowhere⟩ | ⟨v, inside, found⟩
          · rw [missing, eq_nil_of_no_vars nonempty nowhere, models, countOver_true (by simp [TrueIn]),
              SortedSet.card_toFinset]
            have single : 2 ^ (Clauses.vars []).size = 1 := rfl
            rw [single, Nat.one_mul]
            rfl
          · obtain ⟨positive, small⟩ := proper.vars_bound inside
            have literal : Lit.Proper (v : Int) := Lit.proper_signed positive small true
            have under {l : Lit} (same : l.var = v)
                : countUnder (countWithin fuel) clauses (clauses.vars.erase v) l
                  = .ok (countOver clauses.vars.toFinset fun σ => TrueIn σ clauses ∧ l.TrueIn σ) := by
              subst same
              refine countUnder_spec proper inside fun {rest} proper fewer within => ?_
              exact ih proper within (by omega)
            rw [found, models_split literal.1]
            have word : Lit.word v = (v : Int) := Lit.word_eq_self small
            have negated : Lit.negate (Lit.word v) = .ok (-(v : Int)) := by
              rw [word]
              exact literal.negate
            dsimp only
            rw [negated, word]
            simp only [bind, Except.bind]
            rw [under rfl, under (Lit.var_neg v)]
            rfl

/-- The count over variables that cover those of the clauses. -/
theorem modelCount_spec {vars : SortedSet Var} (proper : clauses.Proper)
    (covered : ∀ v, v ∈ clauses.vars → v ∈ vars)
    : clauses.modelCount vars = .ok (clauses.models vars) :=
  countWithin_spec proper covered (Nat.lt_succ_self _)

-----------------------------------------------------------------------------------------
-- Counts under an assumption
-----------------------------------------------------------------------------------------

section Assumption

variable {vars : SortedSet Var} {assumption : List Lit}

/-- The variables over which no literal is assumed. -/
def unassumed (vars : SortedSet Var) (assumption : List Lit) : SortedSet Var :=
  vars.filter fun v => !(assumption.map Lit.var).contains v

theorem mem_unassumed {v : Var}
    : v ∈ unassumed vars assumption ↔ v ∈ vars ∧ ∀ l ∈ assumption, l.var ≠ v := by
  rw [unassumed, SortedSet.mem_filter]
  simp

theorem openVariables_ok (bounded : ∀ v, v ∈ vars → 0 < v ∧ v < 2147483648)
    : openVariables vars assumption = .ok (unassumed vars assumption).toList := by
  refine Checked.filterChecked_ok fun v member => ?_
  obtain ⟨positive, small⟩ := bounded v member
  have literal : Lit.Proper (v : Int) := Lit.proper_signed positive small true
  rw [Lit.word_eq_self small, literal.negate]
  have either : (assumption.map Lit.var).contains v
      = (assumption.contains (v : Int) || assumption.contains (-(v : Int))) := by
    rw [Bool.eq_iff_iff]
    simp only [List.contains_eq_mem, Bool.or_eq_true, decide_eq_true_eq, List.mem_map]
    constructor
    · rintro ⟨l, assumed, same⟩
      rcases Lit.eq_or_eq_neg (l := l) (k := (v : Int)) same with rfl | rfl
      · exact .inl assumed
      · exact .inr assumed
    · rintro (assumed | assumed)
      · exact ⟨_, assumed, rfl⟩
      · exact ⟨_, assumed, Lit.var_neg v⟩
  rw [either]
  cases assumption.contains (v : Int) <;> rfl

/-- Agreement with consistent literals fixes the variables over which they are assumed, and no other. -/
theorem agrees_iff_fixed (admissible : Admissible assumption) (vars : SortedSet Var)
    : ∃ τ : Assignment, ∀ σ, Agrees assumption vars σ
      ↔ ∀ v ∈ vars.toFinset \ (unassumed vars assumption).toFinset, σ v = τ v := by
  have anything : Agrees assumption ∅ fun _ => false := fun _ _ inside =>
    absurd inside SortedSet.not_mem_empty
  obtain ⟨τ, values, -⟩ := admissible.exists_extending anything
  refine ⟨τ, fun σ => ⟨fun agrees v inside => ?_, fun fixed l assumed inside => ?_⟩⟩
  · obtain ⟨here, taken⟩ := Finset.mem_sdiff.mp inside
    rw [SortedSet.mem_toFinset] at here taken
    obtain ⟨l, assumed, rfl⟩ : ∃ l ∈ assumption, l.var = v := by
      by_contra none
      push Not at none
      exact taken (mem_unassumed.mpr ⟨here, none⟩)
    exact (agrees l assumed here).trans (values l assumed).symm
  · refine (Lit.trueIn_congr (fixed l.var ?_)).mpr (values l assumed)
    rw [Finset.mem_sdiff, SortedSet.mem_toFinset, SortedSet.mem_toFinset]
    exact ⟨inside, fun free => (mem_unassumed.mp free).2 l assumed rfl⟩

/-- Of an assignment that agrees with the assumption, what conditioning leaves says the same. -/
theorem trueIn_rest_iff {rest : Clauses} {σ : Assignment} (admissible : Admissible assumption)
    (conditioned : Conditioned clauses assumption rest) (covered : ∀ v, v ∈ clauses.vars → v ∈ vars)
    (agrees : Agrees assumption vars σ)
    : TrueIn σ rest ↔ TrueIn σ clauses := by
  obtain ⟨τ, extends_, same⟩ := admissible.exists_extending agrees
  rw [← trueIn_congr fun v inside => same v (covered v (conditioned.mem_vars inside)),
    conditioned.meaning extends_]
  exact trueIn_congr fun v inside => same v (covered v inside)

/-- The count of the models that agree with an assumption. -/
theorem modelCountUnder_spec (proper : clauses.Proper)
    (covered : ∀ v, v ∈ clauses.vars → v ∈ vars)
    (bounded : ∀ v, v ∈ vars → 0 < v ∧ v < 2147483648) (admissible : Admissible assumption)
    : clauses.modelCountUnder vars assumption
      = .ok (countOver vars.toFinset fun σ => TrueIn σ clauses ∧ Agrees assumption vars σ) := by
  unfold modelCountUnder
  rcases condition_spec assumption proper with ⟨fails, never⟩ | ⟨rest, done, conditioned⟩
  · rw [fails, countOver_false]
    · rfl
    · rintro σ ⟨model, agrees⟩
      obtain ⟨τ, extends_, same⟩ := admissible.exists_extending agrees
      exact never τ extends_ ((trueIn_congr fun v inside => same v (covered v inside)).mpr model)
  · let free := unassumed vars assumption
    have within : ∀ v, v ∈ rest.vars → v ∈ free := by
      intro v inside
      refine mem_unassumed.mpr ⟨covered v (conditioned.mem_vars inside), ?_⟩
      rintro l assumed rfl
      exact conditioned.absent l assumed inside
    have listed : SortedSet.ofList free.toList = free :=
      SortedSet.ext_mem fun v => SortedSet.mem_ofList
    have counted : rest.modelCount free = .ok (rest.models free) :=
      modelCount_spec (conditioned.proper proper) within
    obtain ⟨τ, fixed⟩ := agrees_iff_fixed admissible vars
    have total : rest.models free
        = countOver vars.toFinset fun σ => TrueIn σ clauses ∧ Agrees assumption vars σ := by
      have subset : free.toFinset ⊆ vars.toFinset := fun v inside =>
        SortedSet.mem_toFinset.mpr (mem_unassumed.mp (SortedSet.mem_toFinset.mp inside)).1
      calc
        rest.models free
        _ = countOver free.toFinset (fun σ => TrueIn σ rest)
            * countOver (vars.toFinset \ free.toFinset)
              fun σ => ∀ v ∈ vars.toFinset \ free.toFinset, σ v = τ v := by
          rw [countOver_fixed, Nat.mul_one]
          rfl
        _ = countOver vars.toFinset fun σ =>
              TrueIn σ rest ∧ ∀ v ∈ vars.toFinset \ free.toFinset, σ v = τ v := by
          rw [← countOver_and Finset.disjoint_sdiff, Finset.union_sdiff_of_subset subset]
          · exact dependsOn_trueIn fun v inside => SortedSet.mem_toFinset.mpr (within v inside)
          · exact fun σ σ' agree => propext (forall₂_congr fun v inside => by rw [agree v inside])
        _ = countOver vars.toFinset fun σ => TrueIn σ clauses ∧ Agrees assumption vars σ := by
          refine countOver_congr fun σ => ?_
          rw [← fixed σ]
          exact and_congr_left (trueIn_rest_iff admissible conditioned covered)
    rw [done]
    simp only [bind, Except.bind, openVariables_ok bounded]
    rw [← total, ← counted]
    exact congrArg rest.modelCount listed

/-- Literals over other variables change no count. -/
theorem modelCountUnder_literalsOver (proper : clauses.Proper)
    (covered : ∀ v, v ∈ clauses.vars → v ∈ vars)
    (bounded : ∀ v, v ∈ vars → 0 < v ∧ v < 2147483648)
    : clauses.modelCountUnder vars (literalsOver vars assumption)
      = clauses.modelCountUnder vars assumption := by
  have conditioned : clauses.condition (literalsOver vars assumption) = clauses.condition assumption := by
    refine condition_congr proper fun l inside => ?_
    rw [Bool.eq_iff_iff, List.contains_iff_mem, List.contains_iff_mem, mem_literalsOver]
    exact and_iff_left (covered l.var inside)
  have free : unassumed vars (literalsOver vars assumption) = unassumed vars assumption := by
    refine SortedSet.ext_mem fun v => ?_
    rw [mem_unassumed, mem_unassumed]
    refine and_congr_right fun inside => ⟨fun none l assumed => ?_, fun none l assumed => ?_⟩
    · rintro rfl
      exact none l (mem_literalsOver.mpr ⟨assumed, inside⟩) rfl
    · exact none l (mem_literalsOver.mp assumed).1
  rw [modelCountUnder, modelCountUnder, conditioned, openVariables_ok bounded, openVariables_ok bounded, free]

/-- The count of the models that agree with literals without complements, whatever words they are. -/
theorem modelCountUnder_complementFree (proper : clauses.Proper)
    (covered : ∀ v, v ∈ clauses.vars → v ∈ vars)
    (bounded : ∀ v, v ∈ vars → 0 < v ∧ v < 2147483648) (free : ComplementFree assumption)
    : clauses.modelCountUnder vars assumption
      = .ok (countOver vars.toFinset fun σ => TrueIn σ clauses ∧ Agrees assumption vars σ) := by
  rw [← modelCountUnder_literalsOver proper covered bounded,
    modelCountUnder_spec proper covered bounded (free.admissible bounded)]
  exact congrArg Except.ok (countOver_congr fun σ => and_congr_right fun _ => agrees_literalsOver)

end Assumption

end KnowledgeCompiler.Clauses
