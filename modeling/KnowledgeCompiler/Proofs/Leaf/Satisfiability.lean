import KnowledgeCompiler.Proofs.Conditioning
import KnowledgeCompiler.Proofs.Leaf
import KnowledgeCompiler.Proofs.Propagation

/-! Satisfiability of formula leaves is decided exactly.

A 2-CNF formula is decided by the strongly connected components of what an assumption leaves of it. A Horn
formula is decided by unit propagation: if that ends without a conflict, the formula holds when all open
variables are false. There is no verdict if the literal without a complement would have to be negated on the
way.
-/

namespace KnowledgeCompiler

variable {assumption : List Lit}

/-- A verdict that says whether clauses have a model that extends an assumption. -/
def Decides (verdict : Checked Bool) (clauses : Clauses) (assumption : List Lit) : Prop :=
  ∃ answer, verdict = .ok answer
    ∧ (answer = true ↔ ∃ σ, (∀ l ∈ assumption, Lit.TrueIn σ l) ∧ Clauses.TrueIn σ clauses)

/-- A verdict depends on which literals are assumed, not on their order or number. -/
theorem Decides.congr {verdict other : Checked Bool} {clauses : Clauses} {literals : List Lit}
    (decides : Decides verdict clauses assumption) (decides' : Decides other clauses literals)
    (same : ∀ l, l ∈ assumption ↔ l ∈ literals)
    : verdict = other := by
  obtain ⟨answer, rfl, meaning⟩ := decides
  obtain ⟨answer', rfl, meaning'⟩ := decides'
  have equal : answer = answer' := by
    rw [Bool.eq_iff_iff, meaning, meaning']
    simp only [same]
  rw [equal]

-----------------------------------------------------------------------------------------
-- 2-CNF formulas
-----------------------------------------------------------------------------------------

/-- Values of distinct variables are the values of an assignment. -/
theorem exists_valued {values : List (Var × Bool)} (distinct : (values.map Prod.fst).Nodup)
    : ∃ σ : Assignment, ∀ entry ∈ values, σ entry.1 = entry.2 := by
  refine ⟨fun v => decide ((v, true) ∈ values), fun entry member => ?_⟩
  rw [Bool.eq_iff_iff, decide_eq_true_iff]
  exact mem_true_iff distinct member

/-- The verdict on a 2-CNF formula. -/
theorem TwoCnf.isSatisfiable_spec (formula : TwoCnf) (proper : formula.clauses.Proper)
    (free : ComplementFree assumption)
    : Decides (formula.isSatisfiable assumption) formula.clauses assumption := by
  unfold isSatisfiable
  rcases Clauses.condition_spec assumption proper with
    ⟨fails, never⟩ | ⟨rest, done, conditioned⟩
  · refine ⟨false, by rw [fails]; rfl, by simp, ?_⟩
    rintro ⟨σ, extends_, model⟩
    exact absurd model (never σ extends_)
  rw [done]
  rcases TwoSat.model?_spec (conditioned.proper proper) with ⟨made, never⟩ | ⟨values, made, firsts, holds⟩
  · refine ⟨false, by simp [made, bind, Except.bind, pure, Except.pure], by simp, ?_⟩
    rintro ⟨σ, extends_, model⟩
    exact absurd ((conditioned.meaning extends_).mpr model) (never σ)
  · refine ⟨true, by simp [made, bind, Except.bind, pure, Except.pure], fun _ => ?_, fun _ => rfl⟩
    -- The assumption and the clauses that are left have no variable in common.
    obtain ⟨τ, valued⟩ := exists_valued (firsts ▸ rest.vars.nodup)
    have apart : Agrees assumption rest.vars τ :=
      fun l member inside => absurd inside (conditioned.absent l member)
    obtain ⟨σ, extends_, agree⟩ := free.exists_extending apart
    have model : Clauses.TrueIn τ rest := by
      intro clause inside
      obtain ⟨nonempty, source, origin, part⟩ := conditioned.source clause inside
      exact holds τ valued clause inside nonempty
        (Nat.le_trans part.length_le (formula.short source origin))
    exact ⟨σ, extends_, (conditioned.meaning extends_).mp ((Clauses.trueIn_congr agree).mpr model)⟩

-----------------------------------------------------------------------------------------
-- Horn formulas
-----------------------------------------------------------------------------------------

/-- The assignment that differs on the flipped variables. -/
def Assignment.flip (flipped : SortedSet Var) (σ : Assignment) : Assignment :=
  fun v => σ v ^^ flipped.contains v

theorem Assignment.flip_flip (flipped : SortedSet Var) (σ : Assignment)
    : flip flipped (flip flipped σ) = σ := by
  funext v
  simp only [flip, Bool.xor_assoc, Bool.xor_self, Bool.xor_false]

/-- A flipped literal holds where the flipped values are. -/
theorem trueIn_flipLiteral (flipped : SortedSet Var) {σ : Assignment} {l : Lit} (nonzero : l ≠ 0)
    : Lit.TrueIn (σ.flip flipped) (flipLiteral flipped l) ↔ Lit.TrueIn σ l := by
  unfold flipLiteral
  split
  · rename_i flips
    rw [Lit.trueIn_neg nonzero]
    simp only [Lit.TrueIn, Assignment.flip, flips, Bool.xor_true]
    cases σ l.var <;> cases l.isPositive <;> simp
  · rename_i stays
    simp only [Lit.TrueIn, Assignment.flip, Bool.not_eq_true _ ▸ stays, Bool.xor_false]

/-- Flipped clauses hold where the flipped values are. -/
theorem trueIn_map_flipLiteral {flipped : SortedSet Var} {σ : Assignment} {clauses : Clauses}
    (nonzero : ∀ clause ∈ clauses, ∀ l ∈ clause, l ≠ 0)
    : Clauses.TrueIn (σ.flip flipped) (clauses.map (List.map (flipLiteral flipped)))
      ↔ Clauses.TrueIn σ clauses := by
  have each : ∀ clause ∈ clauses,
      (Clause.TrueIn (σ.flip flipped) (clause.map (flipLiteral flipped)) ↔ Clause.TrueIn σ clause) := by
    intro clause inside
    have here {l : Lit} (member : l ∈ clause) :=
      trueIn_flipLiteral flipped (σ := σ) (nonzero clause inside l member)
    constructor
    · rintro ⟨k, member, holds⟩
      obtain ⟨l, found, rfl⟩ := List.mem_map.mp member
      exact ⟨l, found, (here found).mp holds⟩
    · rintro ⟨l, found, holds⟩
      exact ⟨_, List.mem_map_of_mem found, (here found).mpr holds⟩
  rw [Clauses.TrueIn, List.forall_mem_map]
  exact forall₂_congr each

/-- The assignment that satisfies a trail and makes all open variables false. -/
def Trail.lowest (trail : Trail) : Assignment := fun v => decide ((v : Int) ∈ trail.literals.toList)

theorem Trail.trueIn_lowest {trail : Trail} (wf : trail.WellFormed) {l : Lit}
    (member : l ∈ trail.literals.toList)
    : Lit.TrueIn trail.lowest l := by
  have positive : 0 < l.var := Int.natAbs_pos.mpr (wf.nonzero l member)
  obtain ⟨v, rfl | rfl⟩ : ∃ v : Nat, l = v ∨ l = -v := ⟨l.natAbs, Int.natAbs_eq l⟩
  · rw [Lit.trueIn_ofNat (by simpa [Lit.var] using positive), lowest, decide_eq_true_iff]
    exact member
  · rw [Lit.trueIn_neg_ofNat (by simpa [Lit.var] using positive), lowest, decide_eq_false_iff_not]
    exact fun opposite => neg_not_mem wf opposite member

theorem Trail.lowest_of_isOpen {trail : Trail} (wf : trail.WellFormed) {l : Lit}
    (free : trail.isOpen l = true)
    : trail.lowest l.var = false := by
  obtain ⟨left, right⟩ := (isOpen_iff wf).mp free
  rw [lowest, decide_eq_false_iff_not]
  obtain ⟨v, rfl | rfl⟩ : ∃ v : Nat, l = v ∨ l = -v := ⟨l.natAbs, Int.natAbs_eq l⟩
  · exact left
  · rw [Int.neg_neg] at right
    rwa [Lit.var_neg, Lit.var, Int.natAbs_natCast]

/-- Settled clauses with at most one positive literal hold when all open variables are false: besides
the positive one there is another open occurrence, which is negative.
-/
theorem Trail.trueIn_of_settled {clauses : Clauses} {trail : Trail} (wf : trail.WellFormed)
    (horn : ∀ clause ∈ clauses, Clause.positiveCount clause ≤ 1)
    (settled : ∀ clause ∈ clauses, trail.Settled clause)
    : Clauses.TrueIn trail.lowest clauses := by
  intro clause inside
  rcases settled clause inside with ⟨l, member, holds⟩ | several
  · exact ⟨l, member, trueIn_lowest wf holds⟩
  · obtain ⟨l, member, negative⟩ : ∃ l ∈ clause.filter trail.isOpen, l.isPositive = false := by
      by_contra all
      push Not at all
      have positive : (clause.filter trail.isOpen).countP Lit.isPositive
          = (clause.filter trail.isOpen).length :=
        List.countP_eq_length.mpr fun l member => by simpa using all l member
      have few : (clause.filter trail.isOpen).countP Lit.isPositive ≤ clause.countP Lit.isPositive :=
        List.filter_sublist.countP_le
      have bound := horn clause inside
      unfold Clause.positiveCount at bound
      omega
    obtain ⟨member, free⟩ := List.mem_filter.mp member
    exact ⟨l, member, (lowest_of_isOpen wf free).trans negative.symm⟩

namespace Horn

/-- A Horn formula means what its Horn form means under flipped values. -/
theorem trueIn_unflipped {formula : Horn} (nonzero : ∀ clause ∈ formula.clauses, ∀ l ∈ clause, l ≠ 0)
    {σ : Assignment}
    : Clauses.TrueIn (σ.flip formula.flipped) formula.unflipped ↔ Clauses.TrueIn σ formula.clauses :=
  trueIn_map_flipLiteral nonzero

/-- What is assumed of the variables of a formula, in its Horn form. -/
def inHornForm (formula : Horn) (assumption : List Lit) : List Lit :=
  literalsOver formula.vars (assumption.map (flipLiteral formula.flipped))

theorem mem_inHornForm {formula : Horn} {l : Lit}
    : l ∈ formula.inHornForm assumption
      ↔ ∃ k ∈ assumption, k.var ∈ formula.vars ∧ flipLiteral formula.flipped k = l := by
  rw [inHornForm, mem_literalsOver, List.mem_map]
  constructor
  · rintro ⟨⟨k, member, rfl⟩, inside⟩
    exact ⟨k, member, var_flipLiteral _ k ▸ inside, rfl⟩
  · rintro ⟨k, member, inside, rfl⟩
    exact ⟨⟨k, member, rfl⟩, (var_flipLiteral _ k).symm ▸ inside⟩

/-- The literal without a complement is to be negated: it is assumed and its variable is flipped, or it
follows by unit propagation.
-/
def Overflows (formula : Horn) (assumption : List Lit) : Prop :=
  (Lit.least ∈ assumption ∧ Lit.least.var ∈ formula.flipped)
  ∨ Derived formula.clauses (formula.inHornForm assumption) Lit.least

/-- Literals are flipped, as long as the one without a complement is not flipped; else there is a fault. -/
theorem mapM_flipChecked (flipped : SortedSet Var) (assumption : List Lit)
    : assumption.mapM (flipChecked flipped)
      = if Lit.least ∈ assumption ∧ Lit.least.var ∈ flipped then .error .negationOverflow
        else .ok (assumption.map (flipLiteral flipped)) := by
  induction assumption with
  | nil => rfl
  | cons l rest ih =>
      rw [List.mapM_cons, ih]
      by_cases bad : l = Lit.least ∧ l.var ∈ flipped
      · obtain ⟨rfl, inside⟩ := bad
        have faults : flipChecked flipped Lit.least = .error .negationOverflow := by
          rw [flipChecked, if_pos (SortedSet.contains_iff.mpr inside)]
          rfl
        rw [faults]
        exact (if_pos ⟨List.mem_cons_self, inside⟩).symm
      · rw [flipChecked_of_flippable fun least inside => bad ⟨least, inside⟩]
        have same : (Lit.least ∈ l :: rest ∧ Lit.least.var ∈ flipped)
            ↔ Lit.least ∈ rest ∧ Lit.least.var ∈ flipped := by
          rw [List.mem_cons]
          refine and_congr_left fun inside => or_iff_right fun least => bad ⟨least.symm, ?_⟩
          rwa [← least]
        simp only [same]
        split <;> rfl

/-- The verdict on a Horn formula: a model extends the assumption, or none does, or the literal without a
complement gets in the way.
-/
theorem isSatisfiable_cases (formula : Horn) (nonzero : ∀ clause ∈ formula.clauses, ∀ l ∈ clause, l ≠ 0)
    (free : ComplementFree assumption)
    : (formula.isSatisfiable assumption = .ok true ∧ ¬ formula.Overflows assumption
        ∧ ∃ σ, (∀ l ∈ assumption, Lit.TrueIn σ l) ∧ Clauses.TrueIn σ formula.unflipped)
      ∨ (formula.isSatisfiable assumption = .ok false
        ∧ ∀ σ, (∀ l ∈ assumption, Lit.TrueIn σ l) → ¬ Clauses.TrueIn σ formula.unflipped)
      ∨ formula.isSatisfiable assumption = .error .negationOverflow ∧ formula.Overflows assumption := by
  have flips := mapM_flipChecked formula.flipped assumption
  by_cases extreme : Lit.least ∈ assumption ∧ Lit.least.var ∈ formula.flipped
  · rw [if_pos extreme] at flips
    refine .inr (.inr ⟨?_, .inl extreme⟩)
    rw [isSatisfiable, flips]
    rfl
  rw [if_neg extreme] at flips
  have opened : formula.isSatisfiable assumption
      = (do return (← (Propagator.ofClauses formula.clauses).propagate (formula.inHornForm assumption)).isSome) := by
    rw [isSatisfiable, flips]
    rfl
  rw [opened]
  have nonzeroForm : ∀ l ∈ formula.inHornForm assumption, l ≠ 0 := by
    intro l member
    obtain ⟨k, found, _, rfl⟩ := mem_inHornForm.mp member
    exact flipLiteral_ne_zero (free.ne_zero found)
  rcases Propagator.propagate_settles nonzero nonzeroForm with
    ⟨found, assumed, closed, done, sound, settled, moderate, -, -⟩ | ⟨fails, refuted⟩ | ⟨fails, derived⟩
  · refine .inl ⟨by rw [done]; rfl, ?_, ?_⟩
    · rintro (both | derived)
      · exact extreme both
      · exact moderate (Propagator.mem_of_derived sound settled derived)
    have agrees : Agrees assumption formula.vars (closed.lowest.flip formula.flipped) := by
      intro l member inside
      rw [← trueIn_flipLiteral formula.flipped (free.ne_zero member), Assignment.flip_flip]
      exact Trail.trueIn_lowest sound.toWellFormed
        (sound.assumed _ (mem_inHornForm.mpr ⟨l, member, inside, rfl⟩))
    obtain ⟨σ, extends_, agree⟩ := free.exists_extending agrees
    have model := (trueIn_unflipped nonzero).mpr
      (Trail.trueIn_of_settled sound.toWellFormed formula.horn settled)
    exact ⟨σ, extends_,
      (Clauses.trueIn_congr fun v inside => agree v (mem_vars_unflipped.mp inside)).mpr model⟩
  · refine .inr (.inl ⟨by rw [fails]; rfl, fun σ extends_ model => ?_⟩)
    have holds : ∀ l ∈ formula.inHornForm assumption, Lit.TrueIn (σ.flip formula.flipped) l := by
      intro l member
      obtain ⟨k, found, _, rfl⟩ := mem_inHornForm.mp member
      exact (trueIn_flipLiteral _ (free.ne_zero found)).mpr (extends_ k found)
    refine refuted.not_trueIn nonzero nonzeroForm holds ?_
    rwa [← trueIn_unflipped nonzero, Assignment.flip_flip]
  · exact .inr (.inr ⟨by rw [fails]; rfl, .inr derived⟩)

/-- Over proper clauses, the literal without a complement only gets in the way if it is assumed and flipped. -/
theorem not_overflows {formula : Horn} (proper : formula.clauses.Proper)
    (flippable : Lit.least ∈ assumption → ¬ Lit.least.var ∈ formula.flipped)
    : ¬ formula.Overflows assumption := by
  rintro (⟨member, flips⟩ | derived)
  · exact flippable member flips
  · have small : ∀ l ∈ formula.inHornForm assumption, l.Proper := by
      intro l member
      obtain ⟨k, found, inside, rfl⟩ := mem_inHornForm.mp member
      obtain ⟨positive, small⟩ := proper.vars_bound inside
      exact proper_flipLiteral ⟨Int.natAbs_pos.mp positive, small⟩
    exact (derived.proper proper small).ne_least rfl

/-- The verdict on a Horn formula over proper clauses. -/
theorem isSatisfiable_spec (formula : Horn) (proper : formula.clauses.Proper)
    (admissible : Admissible assumption)
    : Decides (formula.isSatisfiable assumption) formula.unflipped assumption := by
  have calm : ¬ formula.Overflows assumption :=
    not_overflows proper fun member => absurd rfl (admissible.proper _ member).ne_least
  rcases formula.isSatisfiable_cases proper.nonzero admissible.complementFree with
    ⟨answer, -, model⟩ | ⟨answer, never⟩ | ⟨-, overflows⟩
  · exact ⟨true, answer, fun _ => model, fun _ => rfl⟩
  · refine ⟨false, answer, by simp, ?_⟩
    rintro ⟨σ, extends_, model⟩
    exact absurd model (never σ extends_)
  · exact absurd overflows calm

end Horn

end KnowledgeCompiler
