import KnowledgeCompiler.Proofs.Conditioning
import KnowledgeCompiler.Proofs.Propagation

/-! Clauses that a trail reduces to others.

The whole formula under the trail of a component and the clauses of the component alone have the same
models, and unit propagation derives the same literals from both. So a component can be examined with a
solver for the whole formula.
-/

namespace KnowledgeCompiler

/-- What a trail leaves of a clause: the literals whose complement is not in the trail. -/
def Clause.under (trail : List Lit) (clause : Clause) : Clause :=
  clause.filter fun l => !trail.contains (-l)

theorem Clause.mem_under {trail : List Lit} {clause : Clause} {l : Lit}
    : l ∈ clause.under trail ↔ l ∈ clause ∧ ¬ -l ∈ trail := by
  simp [under]

theorem Clause.under_eq_self {trail : List Lit} {clause : Clause} (open_ : ∀ l ∈ clause, ¬ -l ∈ trail)
    : clause.under trail = clause :=
  List.filter_eq_self.mpr fun l occurs => by simpa using open_ l occurs

/-- A literal that is left occurs as often as before. -/
theorem Clause.count_under {trail : List Lit} {clause : Clause} {l : Lit} (stays : l ∈ clause.under trail)
    : (clause.under trail).count l = clause.count l :=
  List.count_filter (by simpa using (mem_under.mp stays).2)

namespace Clauses

/-- What a trail leaves of clauses: of each clause without a literal in the trail, those whose complement is not in
it.
-/
def under (trail : List Lit) (clauses : Clauses) : Clauses :=
  (clauses.filter fun clause => !clause.any trail.contains).map (Clause.under trail)

variable {clauses : Clauses} {literals : List Lit}

theorem mem_under {clause : Clause}
    : clause ∈ clauses.under literals
      ↔ ∃ source ∈ clauses, (∀ l ∈ literals, ¬ l ∈ source) ∧ source.under literals = clause := by
  simp only [under, List.mem_map, List.mem_filter, Bool.not_eq_true', List.any_eq_false, List.contains_iff_mem]
  constructor
  · rintro ⟨source, ⟨origin, untrue⟩, left⟩
    exact ⟨source, origin, fun l member inside => untrue l inside member, left⟩
  · rintro ⟨source, origin, untrue, left⟩
    exact ⟨source, ⟨origin, fun l inside member => untrue l member inside⟩, left⟩

/-- Making literals true one after the other leaves what all of them leave, if no two of them are complementary;
induction on the literals.
-/
theorem assignEach_eq_under (consistent : ∀ l ∈ literals, ¬ -l ∈ literals)
    : clauses.assignEach literals = clauses.under literals := by
  induction literals generalizing clauses with
  | nil =>
      have whole : Clause.under [] = id := funext fun clause => by simp [Clause.under]
      rw [under, whole, List.map_id, List.filter_eq_self.mpr fun clause _ => by simp]
      rfl
  | cons l rest ih =>
      have later : ∀ k ∈ rest, ¬ -k ∈ rest := fun k member opposite =>
        consistent k (by simp [member]) (by simp [opposite])
      rw [assignEach, List.foldl_cons, ← assignEach, ih later, under, assign, List.filter_map, List.map_map,
        List.filter_filter, under]
      have open_ : ∀ clause : Clause,
          (!(clause.filter (· != -l)).any rest.contains && !clause.contains l)
            = !clause.any (l :: rest).contains := by
        -- The complement of `l`, which is left out, is not among the other literals.
        have dropped : ¬ -l ∈ rest := fun member => consistent l (by simp) (by simp [member])
        intro clause
        rw [Bool.eq_iff_iff]
        simp only [Bool.and_eq_true, Bool.not_eq_true', List.any_eq_false, List.mem_filter, bne_iff_ne, ne_eq,
          List.contains_eq_mem, decide_eq_false_iff_not, List.mem_cons]
        grind
      have left : Clause.under rest ∘ List.filter (· != -l) = Clause.under (l :: rest) := by
        funext clause
        rw [Function.comp, Clause.under, Clause.under, List.filter_filter]
        refine List.filter_congr fun k _ => ?_
        have opposite : -k = l ↔ k = -l := by grind
        rw [Bool.eq_iff_iff]
        simp only [Bool.not_eq_true', List.contains_eq_mem, List.mem_cons, opposite, decide_eq_false_iff_not, not_or,
          Bool.and_eq_true, bne_iff_ne, ne_eq]
        exact and_comm
      simp only [Function.comp_apply, open_, left]

/-- Conditioning leaves what an assumption leaves of the clauses, and nothing if that has an empty clause; induction on
the clauses.
-/
theorem condition_eq_under (proper : clauses.Proper)
    : clauses.condition literals
      = .ok (if [] ∈ clauses.under literals then none else some (clauses.under literals)) := by
  induction clauses with
  | nil => rfl
  | cons clause others ih =>
      obtain ⟨first, properOthers⟩ := List.forall_mem_cons.mp proper
      have shown := condition_clause literals first
      by_cases satisfied : clause.any literals.contains = true
      · have skipped : under literals (clause :: others) = under literals others := by
          rw [under, List.filter_cons, if_neg (by simp [satisfied]), under]
        rw [if_pos satisfied] at shown
        rw [condition, shown, skipped, ← ih properOthers]
        rfl
      · have kept : under literals (clause :: others) = clause.under literals :: under literals others := by
          rw [under, List.filter_cons, if_pos (by simp [satisfied]), List.map_cons, under]
        rw [if_neg satisfied, ← Clause.under] at shown
        rw [kept]
        cases left : clause.under literals with
        | nil =>
            rw [condition, shown, left, if_pos (by simp)]
            rfl
        | cons l more =>
            have step : condition literals (clause :: others)
                = (do return (← condition literals others).map ((l :: more) :: ·)) := by
              rw [condition, shown, left]
              rfl
            rw [step, ih properOthers]
            by_cases refuted : [] ∈ under literals others
            · rw [if_pos refuted, if_pos (by simp [refuted])]
              rfl
            · rw [if_neg refuted, if_neg (by simp [refuted])]
              rfl

end Clauses

/-- Under a consistent trail the clauses reduce to others: a clause without a true literal leaves its
literals that are not false, and nothing else is left.
-/
structure Reduces (clauses : Clauses) (trail : List Lit) (reduced : Clauses) : Prop where
  proper : ∀ l ∈ trail, l.Proper
  consistent : ∀ l ∈ trail, ¬ -l ∈ trail
  down : ∀ clause ∈ clauses, (∃ l ∈ clause, l ∈ trail) ∨ clause.under trail ∈ reduced
  up : ∀ clause ∈ reduced, ∃ source ∈ clauses, (∀ l ∈ source, ¬ l ∈ trail)
    ∧ source.under trail = clause

namespace Reduces

variable {clauses reduced : Clauses} {trail : List Lit}

theorem refl (clauses : Clauses) : Reduces clauses [] clauses where
  proper := by simp
  consistent := by simp
  down clause inside := .inr (by simpa [Clause.under] using inside)
  up clause inside := ⟨clause, inside, by simp, by simp [Clause.under]⟩

/-- The reduced clauses are over other variables than the trail. -/
theorem apart (reduces : Reduces clauses trail reduced) {l : Lit} (member : l ∈ trail)
    : ¬ l.var ∈ reduced.vars := by
  intro occurs
  obtain ⟨clause, inside, k, found, same⟩ := Clauses.mem_vars.mp occurs
  obtain ⟨source, _, untrue, rfl⟩ := reduces.up clause inside
  obtain ⟨origin, unfalsified⟩ := Clause.mem_under.mp found
  rcases Lit.eq_or_eq_neg same with rfl | rfl
  · exact untrue _ origin member
  · rw [Int.neg_neg] at unfalsified
    exact unfalsified member

/-- The reduced clauses are over variables of the clauses. -/
theorem vars_subset (reduces : Reduces clauses trail reduced) {v : Var} (occurs : v ∈ reduced.vars)
    : v ∈ clauses.vars := by
  obtain ⟨clause, inside, l, found, rfl⟩ := Clauses.mem_vars.mp occurs
  obtain ⟨source, origin, _, rfl⟩ := reduces.up clause inside
  exact Clauses.var_mem_vars origin (Clause.mem_under.mp found).1

theorem proper_reduced (reduces : Reduces clauses trail reduced) (proper : clauses.Proper) : reduced.Proper := by
  intro clause inside l member
  obtain ⟨source, origin, _, rfl⟩ := reduces.up clause inside
  exact proper source origin l (Clause.mem_under.mp member).1

theorem tidy (reduces : Reduces clauses trail reduced) (tidy : clauses.Tidy) : reduced.Tidy := by
  intro clause inside
  obtain ⟨source, origin, _, rfl⟩ := reduces.up clause inside
  exact (tidy source origin).filter _

/-- Under an assignment that makes the trail true, the clauses and the reduced ones mean the same. -/
theorem trueIn_iff (reduces : Reduces clauses trail reduced) {σ : Assignment}
    (extends_ : ∀ l ∈ trail, Lit.TrueIn σ l)
    : Clauses.TrueIn σ reduced ↔ Clauses.TrueIn σ clauses := by
  constructor
  · intro model clause inside
    rcases reduces.down clause inside with ⟨l, member, known⟩ | left
    · exact ⟨l, member, extends_ l known⟩
    · obtain ⟨l, member, holds⟩ := model _ left
      exact ⟨l, (Clause.mem_under.mp member).1, holds⟩
  · intro model clause inside
    obtain ⟨source, origin, _, rfl⟩ := reduces.up clause inside
    obtain ⟨l, member, holds⟩ := model source origin
    refine ⟨l, Clause.mem_under.mpr ⟨member, fun opposite => ?_⟩, holds⟩
    have nonzero : l ≠ 0 := fun zero =>
      (reduces.proper _ opposite).1 (by rw [zero, Int.neg_zero])
    exact (Lit.trueIn_neg nonzero).mp (extends_ _ opposite) holds

/-- A model of the reduced clauses becomes one of the clauses that extends the trail, when the variables
of the trail take its values.
-/
theorem exists_model (reduces : Reduces clauses trail reduced) {σ : Assignment}
    (model : Clauses.TrueIn σ reduced)
    : ∃ τ : Assignment, (∀ l ∈ trail, Lit.TrueIn τ l) ∧ Clauses.TrueIn τ clauses
      ∧ ∀ v, v ∈ reduced.vars → τ v = σ v := by
  let τ : Assignment := fun v => (trail.find? fun l => l.var == v).elim (σ v) Lit.isPositive
  have extends_ : ∀ l ∈ trail, Lit.TrueIn τ l := by
    intro l member
    have known : (trail.find? fun k => k.var == l.var).isSome := by
      rw [List.find?_isSome]
      exact ⟨l, member, by simp⟩
    obtain ⟨k, found⟩ := Option.isSome_iff_exists.mp known
    have other := List.mem_of_find?_eq_some found
    have same : k.var = l.var := by simpa using List.find?_some found
    have equal : k = l := by
      rcases Lit.eq_or_eq_neg same with equal | opposite
      · exact equal
      · exact absurd (opposite ▸ other) (reduces.consistent l member)
    simp only [Lit.TrueIn, τ, found, equal, Option.elim_some]
  have agree : ∀ v, v ∈ reduced.vars → τ v = σ v := by
    intro v occurs
    have absent : (trail.find? fun l => l.var == v) = none := by
      rw [List.find?_eq_none]
      intro l member same
      exact reduces.apart member ((by simpa using same : l.var = v) ▸ occurs)
    simp only [τ, absent, Option.elim_none]
  refine ⟨τ, extends_, ?_, agree⟩
  exact (reduces.trueIn_iff extends_).mp ((Clauses.trueIn_congr agree).mpr model)

-----------------------------------------------------------------------------------------
-- Steps
-----------------------------------------------------------------------------------------

/-- One more literal, over a variable that is not in the trail. -/
theorem assign (reduces : Reduces clauses trail reduced) {l : Lit} (proper : l.Proper)
    (fresh : ∀ k ∈ trail, k.var ≠ l.var)
    : Reduces clauses (trail ++ [l]) (reduced.assign l) := by
  have under : ∀ clause : Clause,
      clause.under (trail ++ [l]) = (clause.under trail).filter (· != -l) := by
    intro clause
    rw [Clause.under, Clause.under, List.filter_filter]
    refine List.filter_congr (fun k _ => ?_)
    have opposite : -k = l ↔ k = -l := by grind
    rw [Bool.eq_iff_iff]
    simp only [Bool.not_eq_true', List.contains_eq_mem, List.mem_append, List.mem_singleton,
      decide_eq_false_iff_not, not_or, opposite, Bool.and_eq_true, bne_iff_ne, ne_eq]
    exact and_comm
  have absent : ¬ -l ∈ trail := fun member => fresh _ member (Lit.var_neg l)
  refine ⟨?_, ?_, ?_, ?_⟩
  · exact List.forall_mem_append.mpr ⟨reduces.proper, by simpa using proper⟩
  · intro k known opposite
    simp only [List.mem_append, List.mem_singleton] at known opposite
    rcases known with old | rfl <;> rcases opposite with old' | same
    · exact reduces.consistent k old old'
    · exact fresh k old (by rw [← same, Lit.var_neg])
    · exact absent old'
    · exact proper.ne_neg same.symm
  · intro clause inside
    rcases reduces.down clause inside with ⟨k, member, known⟩ | left
    · exact .inl ⟨k, member, by simp [known]⟩
    · by_cases satisfied : l ∈ clause
      · exact .inl ⟨l, satisfied, by simp⟩
      · refine .inr (Clauses.mem_assign.mpr ⟨_, left, fun member => ?_, (under clause).symm⟩)
        exact satisfied (Clause.mem_under.mp member).1
  · intro clause inside
    obtain ⟨middle, found, lacks, rfl⟩ := Clauses.mem_assign.mp inside
    obtain ⟨source, origin, untrue, rfl⟩ := reduces.up middle found
    refine ⟨source, origin, fun k member => ?_, under source⟩
    rw [List.mem_append, List.mem_singleton]
    rintro (known | rfl)
    · exact untrue k member known
    · exact lacks (Clause.mem_under.mpr ⟨member, absent⟩)

/-- Only the elements of the reduced clauses matter. -/
theorem congr (reduces : Reduces clauses trail reduced) {others : Clauses}
    (same : ∀ clause, clause ∈ others ↔ clause ∈ reduced)
    : Reduces clauses trail others where
  proper := reduces.proper
  consistent := reduces.consistent
  down clause inside := (reduces.down clause inside).imp_right (same _).mpr
  up clause inside := reduces.up clause ((same clause).mp inside)

-----------------------------------------------------------------------------------------
-- Propagation
-----------------------------------------------------------------------------------------

section Propagation

variable {assumption more : List Lit}

/-- Unit propagation with the whole formula derives what the reduced clauses derive; induction on the
derivation.
-/
theorem derived_of_reduced (reduces : Reduces clauses trail reduced)
    (members : ∀ l, l ∈ assumption ↔ l ∈ trail ∨ l ∈ more) {l : Lit}
    (derived : Derived reduced more l)
    : Derived clauses assumption l := by
  induction derived with
  | assumed member => exact .assumed ((members _).mpr (.inr member))
  | @unit clause l inside single others ih =>
      obtain ⟨source, origin, _, rfl⟩ := reduces.up clause inside
      rw [Clause.count_under (mem_of_count_eq_one single)] at single
      refine .unit origin single (fun k found differ => ?_)
      by_cases falsified : -k ∈ trail
      · exact .assumed ((members _).mpr (.inl falsified))
      · exact ih k (Clause.mem_under.mpr ⟨found, falsified⟩) differ

/-- Without a conflict, what the reduced clauses derive is over other variables than the trail. -/
theorem var_ne_of_derived (reduces : Reduces clauses trail reduced)
    (fresh : ∀ l ∈ more, ∀ k ∈ trail, k.var ≠ l.var) {l k : Lit} (derived : Derived reduced more l)
    (known : k ∈ trail)
    : k.var ≠ l.var := by
  rcases derived.mem_or_occurs with member | ⟨clause, inside, member⟩
  · exact fresh l member k known
  · intro same
    exact reduces.apart known (same ▸ Clauses.var_mem_vars inside member)

/-- Without a conflict, unit propagation with the whole formula derives the trail and what the reduced
clauses derive; induction on the derivation.
-/
theorem derived_cases (reduces : Reduces clauses trail reduced)
    (members : ∀ l, l ∈ assumption ↔ l ∈ trail ∨ l ∈ more)
    (fresh : ∀ l ∈ more, ∀ k ∈ trail, k.var ≠ l.var) (unrefuted : ¬ Refuted reduced more) {l : Lit}
    (derived : Derived clauses assumption l)
    : l ∈ trail ∨ Derived reduced more l := by
  induction derived with
  | assumed member => exact ((members _).mp member).imp_right .assumed
  | @unit clause l inside single others ih =>
      by_cases known : l ∈ trail
      · exact .inl known
      have falsified : ∀ k ∈ clause.under trail, k ≠ l → Derived reduced more (-k) := by
        intro k found differ
        obtain ⟨origin, unfalsified⟩ := Clause.mem_under.mp found
        exact (ih k origin differ).resolve_left unfalsified
      rcases reduces.down clause inside with ⟨k, found, satisfied⟩ | left
      · -- A true literal of the clause would have been derived to be false.
        have differ : k ≠ l := fun same => known (same ▸ satisfied)
        rcases ih k found differ with opposite | opposite
        · exact absurd opposite (reduces.consistent k satisfied)
        · exact absurd (Lit.var_neg k).symm (reduces.var_ne_of_derived fresh opposite satisfied)
      · by_cases stays : l ∈ clause.under trail
        · exact .inr (.unit left ((Clause.count_under stays).trans single) falsified)
        · refine absurd (Refuted.falsified left fun k found => ?_) unrefuted
          exact falsified k found fun same => stays (same ▸ found)

theorem refuted_iff (reduces : Reduces clauses trail reduced)
    (members : ∀ l, l ∈ assumption ↔ l ∈ trail ∨ l ∈ more)
    (fresh : ∀ l ∈ more, ∀ k ∈ trail, k.var ≠ l.var)
    : Refuted clauses assumption ↔ Refuted reduced more := by
  constructor
  · intro refuted
    by_contra unrefuted
    cases refuted with
    | @pair l left right =>
        rcases reduces.derived_cases members fresh unrefuted left with known | derived <;>
          rcases reduces.derived_cases members fresh unrefuted right with known' | derived'
        · exact reduces.consistent l known known'
        · exact reduces.var_ne_of_derived fresh derived' known (Lit.var_neg l).symm
        · exact reduces.var_ne_of_derived fresh derived known' (Lit.var_neg l)
        · exact unrefuted (.pair derived derived')
    | @falsified clause inside each =>
        have opposite : ∀ l ∈ clause, -l ∈ trail ∨ Derived reduced more (-l) := fun l member =>
          reduces.derived_cases members fresh unrefuted (each l member)
        rcases reduces.down clause inside with ⟨l, member, satisfied⟩ | left
        · rcases opposite l member with known | derived
          · exact reduces.consistent l satisfied known
          · exact reduces.var_ne_of_derived fresh derived satisfied (Lit.var_neg l).symm
        · refine unrefuted (.falsified left fun l member => ?_)
          obtain ⟨origin, unfalsified⟩ := Clause.mem_under.mp member
          exact (opposite l origin).resolve_left unfalsified
  · intro refuted
    cases refuted with
    | pair left right =>
        exact .pair (reduces.derived_of_reduced members left)
          (reduces.derived_of_reduced members right)
    | @falsified clause inside each =>
        obtain ⟨source, origin, _, rfl⟩ := reduces.up clause inside
        refine .falsified origin (fun l member => ?_)
        by_cases known : -l ∈ trail
        · exact .assumed ((members _).mpr (.inl known))
        · exact reduces.derived_of_reduced members (each l (Clause.mem_under.mpr ⟨member, known⟩))

/-- Propagation with the whole formula and with the reduced clauses: both find the same literals, or
both end in a conflict.
-/
theorem propagate_eq (reduces : Reduces clauses trail reduced) (properClauses : clauses.Proper)
    (members : ∀ l, l ∈ assumption ↔ l ∈ trail ∨ l ∈ more)
    (fresh : ∀ l ∈ more, ∀ k ∈ trail, k.var ≠ l.var) (proper : ∀ l ∈ more, l.Proper)
    : (∃ found found', (Propagator.ofClauses clauses).propagate assumption = .ok (some found)
        ∧ (Propagator.ofClauses reduced).propagate more = .ok (some found')
        ∧ (found.map Lit.var).Nodup ∧ (found'.map Lit.var).Nodup
        ∧ (∀ l, l ∈ found ↔ l ∈ found')
        ∧ ∀ l ∈ found', l.Proper ∧ ∀ k ∈ trail, k.var ≠ l.var)
      ∨ (Propagator.ofClauses clauses).propagate assumption = .ok none
        ∧ (Propagator.ofClauses reduced).propagate more = .ok none := by
  have allProper : ∀ l ∈ assumption, l.Proper := by
    intro l member
    exact ((members l).mp member).elim (reduces.proper l) (proper l)
  have same := reduces.refuted_iff members fresh
  rcases Propagator.propagate_spec properClauses allProper with
    ⟨found, done, unrefuted, distinct, meaning⟩ | ⟨done, refuted⟩ <;>
    rcases Propagator.propagate_spec (reduces.proper_reduced properClauses) proper with
      ⟨found', done', unrefuted', distinct', meaning'⟩ | ⟨done', refuted'⟩
  · refine .inl ⟨found, found', done, done', distinct, distinct', fun l => ?_, fun l member => ?_⟩
    swap
    · have derived := ((meaning' l).mp member).1
      exact ⟨derived.proper (reduces.proper_reduced properClauses) proper,
        fun k known => reduces.var_ne_of_derived fresh derived known⟩
    rw [meaning, meaning', members]
    constructor
    · rintro ⟨derived, new⟩
      rw [not_or] at new
      exact ⟨(reduces.derived_cases members fresh unrefuted' derived).resolve_left new.1, new.2⟩
    · rintro ⟨derived, new⟩
      refine ⟨reduces.derived_of_reduced members derived, not_or.mpr ⟨fun known => ?_, new⟩⟩
      exact reduces.var_ne_of_derived fresh derived known rfl
  · exact absurd (same.mpr refuted') unrefuted
  · exact absurd (same.mp refuted) unrefuted'
  · exact .inr ⟨done, done'⟩

end Propagation

end Reduces

end KnowledgeCompiler
