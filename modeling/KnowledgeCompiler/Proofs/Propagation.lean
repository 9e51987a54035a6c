import KnowledgeCompiler.Propagation
import KnowledgeCompiler.Proofs.Assignment
import KnowledgeCompiler.Proofs.Occurrences

/-! What unit propagation computes.

`Derived` is the least set of literals that holds the assumption and is closed under unit clauses.
Propagation finds exactly these literals, and it ends in a conflict exactly if they refute the clauses.
The invariant of the trail is that every clause has no consequence left or has a literal that became
false at a position still to come. The one literal without a complement stops propagation when its turn
comes; other literals never do.
-/

namespace KnowledgeCompiler

-----------------------------------------------------------------------------------------
-- Derived literals
-----------------------------------------------------------------------------------------

/-- The literals that follow from an assumption by unit propagation. A clause has a consequence when all
its occurrences of literals but one are false; a literal that it repeats does not follow from it.
-/
inductive Derived (clauses : Clauses) (assumption : List Lit) : Lit → Prop where
  | assumed {l : Lit} (member : l ∈ assumption) : Derived clauses assumption l
  | unit {clause : Clause} {l : Lit} (inside : clause ∈ clauses) (single : clause.count l = 1)
    (others : ∀ k ∈ clause, k ≠ l → Derived clauses assumption (-k))
    : Derived clauses assumption l

/-- Unit propagation ends in a conflict: a complementary pair, or a clause with all literals false. -/
inductive Refuted (clauses : Clauses) (assumption : List Lit) : Prop where
  | pair {l : Lit} (left : Derived clauses assumption l) (right : Derived clauses assumption (-l))
  | falsified {clause : Clause} (inside : clause ∈ clauses)
    (each : ∀ l ∈ clause, Derived clauses assumption (-l))

theorem mem_of_count_eq_one {clause : Clause} {l : Lit} (single : clause.count l = 1) : l ∈ clause :=
  List.count_pos_iff.mp (by omega)

namespace Derived

variable {clauses : Clauses} {assumption : List Lit}

/-- A derived literal is true in every model that extends the assumption; induction on the
derivation.
-/
theorem trueIn {σ : Assignment} (nonzero : ∀ clause ∈ clauses, ∀ l ∈ clause, l ≠ 0)
    (model : Clauses.TrueIn σ clauses) (extends_ : ∀ l ∈ assumption, Lit.TrueIn σ l) {l : Lit}
    (derived : Derived clauses assumption l)
    : Lit.TrueIn σ l := by
  induction derived with
  | assumed member => exact extends_ _ member
  | @unit clause l inside single others ih =>
      obtain ⟨k, found, holds⟩ := model clause inside
      by_cases same : k = l
      · exact same ▸ holds
      · exact absurd holds ((Lit.trueIn_neg (nonzero clause inside k found)).mp (ih k found same))

/-- A derived literal is assumed or occurs in a clause. -/
theorem mem_or_occurs {l : Lit} (derived : Derived clauses assumption l)
    : l ∈ assumption ∨ ∃ clause ∈ clauses, l ∈ clause := by
  cases derived with
  | assumed member => exact .inl member
  | unit inside single _ => exact .inr ⟨_, inside, mem_of_count_eq_one single⟩

/-- More assumed literals derive more; induction on the derivation. -/
theorem mono {others : List Lit} (subset : assumption ⊆ others) {l : Lit} (derived : Derived clauses assumption l)
    : Derived clauses others l := by
  induction derived with
  | assumed member => exact .assumed (subset member)
  | unit inside single _ ih => exact .unit inside single ih

theorem proper (proper : clauses.Proper) (properAssumption : ∀ l ∈ assumption, l.Proper) {l : Lit}
    (derived : Derived clauses assumption l)
    : l.Proper := by
  rcases derived.mem_or_occurs with member | ⟨clause, inside, member⟩
  · exact properAssumption l member
  · exact proper clause inside l member

end Derived

theorem Refuted.mono {clauses : Clauses} {assumption others : List Lit} (subset : assumption ⊆ others)
    (refuted : Refuted clauses assumption)
    : Refuted clauses others := by
  cases refuted with
  | pair left right => exact .pair (left.mono subset) (right.mono subset)
  | falsified inside each => exact .falsified inside fun l member => (each l member).mono subset

/-- Refuted clauses have no model that extends the assumption. -/
theorem Refuted.not_trueIn {clauses : Clauses} {assumption : List Lit} {σ : Assignment}
    (nonzero : ∀ clause ∈ clauses, ∀ l ∈ clause, l ≠ 0)
    (nonzeroAssumption : ∀ l ∈ assumption, l ≠ 0) (refuted : Refuted clauses assumption)
    (extends_ : ∀ l ∈ assumption, Lit.TrueIn σ l)
    : ¬ Clauses.TrueIn σ clauses := by
  intro model
  cases refuted with
  | @falsified clause inside each =>
      obtain ⟨k, member, holds⟩ := model clause inside
      have fails := (each k member).trueIn nonzero model extends_
      exact (Lit.trueIn_neg (nonzero clause inside k member)).mp fails holds
  | @pair l left right =>
      have holds := left.trueIn nonzero model extends_
      have fails := right.trueIn nonzero model extends_
      have present : l ≠ 0 := by
        rcases left.mem_or_occurs with member | ⟨clause, inside, member⟩
        · exact nonzeroAssumption l member
        · exact nonzero clause inside l member
      exact (Lit.trueIn_neg present).mp fails holds

-----------------------------------------------------------------------------------------
-- Trails
-----------------------------------------------------------------------------------------

namespace Trail

/-- The values of a trail are those of its literals, which are over distinct variables. -/
structure WellFormed (trail : Trail) : Prop where
  value : ∀ v b, trail.values[v]? = some b
    ↔ ∃ l ∈ trail.literals.toList, l.var = v ∧ l.isPositive = b
  nonzero : ∀ l ∈ trail.literals.toList, l ≠ 0
  distinct : (trail.literals.toList.map Lit.var).Nodup

theorem WellFormed.empty : WellFormed {} where
  value := by simp
  nonzero := by simp
  distinct := by simp

section

variable {trail : Trail} (wf : trail.WellFormed)

include wf

theorem isTrue_iff {l : Lit} : trail.isTrue l = true ↔ l ∈ trail.literals.toList := by
  rw [isTrue, beq_iff_eq, wf.value]
  constructor
  · rintro ⟨k, member, vars, signs⟩
    exact Lit.eq_of_var_eq vars signs ▸ member
  · intro member
    exact ⟨l, member, rfl, rfl⟩

theorem isOpen_iff {l : Lit}
    : trail.isOpen l = true ↔ ¬ l ∈ trail.literals.toList ∧ ¬ -l ∈ trail.literals.toList := by
  have known : trail.values.contains l.var = true ↔ ∃ k ∈ trail.literals.toList, k.var = l.var := by
    rw [Std.TreeMap.contains_eq_isSome_getElem?, Option.isSome_iff_exists]
    constructor
    · rintro ⟨b, value⟩
      obtain ⟨k, member, same, _⟩ := (wf.value l.var b).mp value
      exact ⟨k, member, same⟩
    · rintro ⟨k, member, same⟩
      exact ⟨k.isPositive, (wf.value l.var _).mpr ⟨k, member, same, rfl⟩⟩
  rw [isOpen, Bool.not_eq_true', ← Bool.not_eq_true, known]
  constructor
  · intro free
    exact ⟨fun member => free ⟨l, member, rfl⟩, fun member => free ⟨-l, member, Lit.var_neg l⟩⟩
  · rintro ⟨left, right⟩ ⟨k, member, same⟩
    rcases Lit.eq_or_eq_neg same with rfl | rfl
    · exact left member
    · exact right member

/-- A trail does not hold a complementary pair. -/
theorem neg_not_mem {l : Lit} (member : l ∈ trail.literals.toList)
    : ¬ -l ∈ trail.literals.toList := by
  intro opposite
  have same := List.inj_on_of_nodup_map wf.distinct member opposite (Lit.var_neg l).symm
  exact Lit.ne_neg (wf.nonzero l member) same

theorem WellFormed.push {l : Lit} (nonzero : l ≠ 0) (free : trail.isOpen l = true)
    : (trail.push l).WellFormed := by
  have apart : ∀ k ∈ trail.literals.toList, k.var ≠ l.var := by
    intro k member same
    obtain ⟨left, right⟩ := (isOpen_iff wf).mp free
    rcases Lit.eq_or_eq_neg same with rfl | rfl
    · exact left member
    · exact right member
  refine ⟨fun v b => ?_, fun k member => ?_, ?_⟩
  · simp only [Trail.push, Array.toList_push, List.mem_append, List.mem_singleton,
      Std.TreeMap.getElem?_insert, Nat.compare_eq_eq]
    split
    · rename_i same
      subst same
      simp only [Option.some.injEq]
      constructor
      · intro sign
        exact ⟨l, .inr rfl, rfl, sign⟩
      · rintro ⟨k, member | rfl, vars, sign⟩
        · exact absurd vars (apart k member)
        · exact sign
    · rename_i differ
      rw [wf.value]
      constructor
      · rintro ⟨k, member, rest⟩
        exact ⟨k, .inl member, rest⟩
      · rintro ⟨k, member | rfl, vars, sign⟩
        · exact ⟨k, member, vars, sign⟩
        · exact absurd vars differ
  · have either : k ∈ trail.literals.toList ++ [l] := by simpa [Trail.push] using member
    rcases List.mem_append.mp either with old | new
    · exact wf.nonzero k old
    · exact List.mem_singleton.mp new ▸ nonzero
  · simp only [Trail.push, Array.toList_push, List.map_append, List.map_cons, List.map_nil]
    refine List.nodup_append.mpr ⟨wf.distinct, by simp, fun v left w right => ?_⟩
    obtain ⟨k, member, rfl⟩ := List.mem_map.mp left
    rw [List.mem_singleton.mp right]
    exact apart k member

end

/-- Nothing follows from a clause: a literal is true, or two occurrences are open. -/
def Settled (trail : Trail) (clause : Clause) : Prop :=
  (∃ l ∈ clause, l ∈ trail.literals.toList) ∨ 2 ≤ (clause.filter trail.isOpen).length

/-- Nothing follows from a clause, or one of its literals became false at a position from `head` on. -/
def Guarded (trail : Trail) (head : Nat) (clause : Clause) : Prop :=
  trail.Settled clause
  ∨ ∃ position, head ≤ position ∧ ∃ l ∈ clause, trail.literals[position]? = some (-l)

/-- The consequence of a clause, in one of three ways: the clause is settled and the trail stays, the
clause is falsified, or its last open occurrence joins the trail.
-/
theorem resolve?_cases {trail : Trail} (wf : trail.WellFormed) (clause : Clause)
    : trail.Settled clause ∧ trail.resolve? clause = some trail
      ∨ (∀ l ∈ clause, -l ∈ trail.literals.toList) ∧ trail.resolve? clause = none
      ∨ ∃ l, clause.count l = 1 ∧ trail.isOpen l = true
        ∧ (∀ k ∈ clause, k ≠ l → -k ∈ trail.literals.toList)
        ∧ trail.resolve? clause = some (trail.push l) := by
  by_cases satisfied : clause.any trail.isTrue = true
  · refine .inl ⟨.inl ?_, by simp only [resolve?, status, if_pos satisfied]⟩
    obtain ⟨l, member, holds⟩ := List.any_eq_true.mp satisfied
    exact ⟨l, member, (isTrue_iff wf).mp holds⟩
  · -- A literal that is neither open nor true is false.
    have falsified : ∀ k ∈ clause, ¬ k ∈ clause.filter trail.isOpen
        → -k ∈ trail.literals.toList := by
      intro k member closed
      have untrue : ¬ k ∈ trail.literals.toList := fun holds =>
        satisfied (List.any_eq_true.mpr ⟨k, member, (isTrue_iff wf).mpr holds⟩)
      by_contra absent
      exact closed (List.mem_filter.mpr ⟨member, (isOpen_iff wf).mpr ⟨untrue, absent⟩⟩)
    simp only [resolve?, status, if_neg satisfied]
    cases shape : clause.filter trail.isOpen with
    | nil => exact .inr (.inl ⟨fun l member => falsified l member (by simp [shape]), rfl⟩)
    | cons l rest =>
        obtain ⟨member, free⟩ : l ∈ clause ∧ trail.isOpen l = true :=
          List.mem_filter.mp (by simp [shape])
        cases rest with
        | nil =>
            have single : clause.count l = 1 := by
              rw [← List.count_filter free, shape]
              simp
            refine .inr (.inr ⟨l, single, free, fun k inside differ => ?_, rfl⟩)
            exact falsified k inside (by simp [shape, differ])
        | cons k rest => exact .inl ⟨.inr (by simp [shape]), rfl⟩

/-- A pushed literal leaves a guarded clause guarded. -/
theorem Guarded.push {trail : Trail} (wf : trail.WellFormed) {l : Lit} (nonzero : l ≠ 0)
    (free : trail.isOpen l = true) {head : Nat} (early : head ≤ trail.literals.size)
    {clause : Clause} (guarded : trail.Guarded head clause)
    : (trail.push l).Guarded head clause := by
  have last : (trail.push l).literals[trail.literals.size]? = some l := by simp [Trail.push]
  have members : ∀ k, k ∈ (trail.push l).literals.toList ↔ k ∈ trail.literals.toList ∨ k = l := by
    simp [Trail.push]
  rcases guarded with (⟨k, member, holds⟩ | several) | ⟨position, late, k, member, known⟩
  · exact .inl (.inl ⟨k, member, (members k).mpr (.inl holds)⟩)
  · -- The pushed literal makes a literal of the clause true or false, or it leaves all open ones open.
    have grown := wf.push nonzero free
    by_cases holds : l ∈ clause
    · exact .inl (.inl ⟨l, holds, (members l).mpr (.inr rfl)⟩)
    by_cases fails : -l ∈ clause
    · exact .inr ⟨_, early, -l, fails, by rw [last, Int.neg_neg]⟩
    have stays : ∀ m ∈ clause, (trail.push l).isOpen m = trail.isOpen m := by
      intro m inside
      have other : m ≠ l := fun same => holds (same ▸ inside)
      have opposite : -m ≠ l := fun same => fails (by rw [← same, Int.neg_neg]; exact inside)
      rw [Bool.eq_iff_iff, isOpen_iff wf, isOpen_iff grown, members, members]
      simp only [other, opposite, or_false]
    refine .inl (.inr ?_)
    rwa [List.filter_congr stays]
  · refine .inr ⟨position, late, k, member, ?_⟩
    have below : position < trail.literals.size := by
      by_contra beyond
      simp [Array.getElem?_eq_none (Nat.le_of_not_lt beyond)] at known
    rw [Trail.push]
    simp only [Array.getElem?_push, Nat.ne_of_lt below, if_false, known]

/-- At the end of the trail a guarded clause is settled. -/
theorem Guarded.settled {trail : Trail} {head : Nat} {clause : Clause}
    (guarded : trail.Guarded head clause) (late : trail.literals.size ≤ head)
    : trail.Settled clause := by
  rcases guarded with settled | ⟨position, beyond, l, _, known⟩
  · exact settled
  · have below : position < trail.literals.size := by
      by_contra outside
      simp [Array.getElem?_eq_none (Nat.le_of_not_lt outside)] at known
    omega

/-- A clause without the complement of the literal at `head` is guarded from the next position on. -/
theorem Guarded.next {trail : Trail} {head : Nat} {l : Lit} (here : trail.literals[head]? = some l)
    {clause : Clause} (lacks : ¬ -l ∈ clause) (guarded : trail.Guarded head clause)
    : trail.Guarded (head + 1) clause := by
  rcases guarded with settled | ⟨position, late, k, member, known⟩
  · exact .inl settled
  · refine .inr ⟨position, ?_, k, member, known⟩
    have other : position ≠ head := by
      rintro rfl
      rw [here, Option.some.injEq] at known
      rw [known, Int.neg_neg] at lacks
      exact lacks member
    omega

/-- A well-formed trail that holds an assumption and beyond it only what follows. -/
structure Sound (clauses : Clauses) (assumption : List Lit) (trail : Trail) : Prop
    extends WellFormed trail where
  derived : ∀ l ∈ trail.literals.toList, Derived clauses assumption l
  assumed : ∀ l ∈ assumption, l ∈ trail.literals.toList

/-- A trail that has grown: its literals keep their positions and its clauses stay guarded. -/
structure Extends (head : Nat) (trail grown : Trail) : Prop where
  size : trail.literals.size ≤ grown.literals.size
  kept : ∀ {position : Nat} {l : Lit}, trail.literals[position]? = some l
    → grown.literals[position]? = some l
  guarded : ∀ {clause}, trail.Guarded head clause → grown.Guarded head clause

theorem Extends.refl (head : Nat) (trail : Trail) : Extends head trail trail :=
  ⟨Nat.le_refl _, id, id⟩

theorem Extends.trans {head : Nat} {first second third : Trail} (left : Extends head first second)
    (right : Extends head second third)
    : Extends head first third :=
  ⟨Nat.le_trans left.size right.size, right.kept ∘ left.kept, right.guarded ∘ left.guarded⟩

variable {clauses : Clauses} {assumption : List Lit}

/-- The consequence of one of the clauses is sound, and the clause is guarded afterwards. -/
theorem Sound.resolve? {trail : Trail} (sound : trail.Sound clauses assumption)
    (nonzero : ∀ clause ∈ clauses, ∀ l ∈ clause, l ≠ 0) {clause : Clause}
    (inside : clause ∈ clauses) {head : Nat} (early : head ≤ trail.literals.size)
    : (∃ grown, trail.resolve? clause = some grown
        ∧ grown.Sound clauses assumption
        ∧ Extends head trail grown
        ∧ grown.Guarded head clause)
      ∨ trail.resolve? clause = none ∧ Refuted clauses assumption := by
  have wf := sound.toWellFormed
  rcases resolve?_cases wf clause with
    ⟨settled, stays⟩ | ⟨falsified, fails⟩ | ⟨l, single, free, others, extended⟩
  · exact .inl ⟨trail, stays, sound, .refl head trail, .inl settled⟩
  · exact .inr ⟨fails, .falsified inside fun l member => sound.derived _ (falsified l member)⟩
  · have member := mem_of_count_eq_one single
    have present := nonzero clause inside l member
    have members : ∀ k, k ∈ (trail.push l).literals.toList ↔ k ∈ trail.literals.toList ∨ k = l := by
      simp [Trail.push]
    refine .inl ⟨trail.push l, extended, ⟨wf.push present free, fun k known => ?_, fun k known => ?_⟩,
      ⟨by simp [Trail.push], fun {position k} known => ?_, .push wf present free early⟩, ?_⟩
    · rcases (members k).mp known with old | rfl
      · exact sound.derived k old
      · exact .unit inside single fun k other differ => sound.derived _ (others k other differ)
    · exact (members k).mpr (.inl (sound.assumed k known))
    · have below : position < trail.literals.size := by
        by_contra outside
        simp [Array.getElem?_eq_none (Nat.le_of_not_lt outside)] at known
      simpa [Trail.push, Array.getElem?_push, Nat.ne_of_lt below] using known
    · exact .inl (.inl ⟨l, member, (members l).mpr (.inr rfl)⟩)

/-- The consequences of several clauses in turn; induction on the list of clauses. -/
theorem Sound.foldlM_resolve? (nonzero : ∀ clause ∈ clauses, ∀ l ∈ clause, l ≠ 0)
    {sources : Clauses} {trail : Trail} (sound : trail.Sound clauses assumption)
    (inside : ∀ clause ∈ sources, clause ∈ clauses)
    {head : Nat} (early : head ≤ trail.literals.size)
    : (∃ grown, sources.foldlM Trail.resolve? trail = some grown
        ∧ grown.Sound clauses assumption
        ∧ Extends head trail grown
        ∧ ∀ clause ∈ sources, grown.Guarded head clause)
      ∨ sources.foldlM Trail.resolve? trail = none ∧ Refuted clauses assumption := by
  induction sources generalizing trail with
  | nil => exact .inl ⟨trail, rfl, sound, .refl head trail, by simp⟩
  | cons clause rest ih =>
      obtain ⟨first, later⟩ := List.forall_mem_cons.mp inside
      rcases sound.resolve? nonzero first early with
        ⟨middle, resolved, middleSound, extended, guarded⟩ | ⟨fails, refuted⟩
      · rcases ih middleSound later (Nat.le_trans early extended.size) with
          ⟨grown, finished, grownSound, extended', guarded'⟩ | ⟨fails, refuted⟩
        · refine .inl ⟨grown, ?_, grownSound, extended.trans extended', ?_⟩
          · rw [List.foldlM_cons, resolved]
            exact finished
          · exact List.forall_mem_cons.mpr ⟨extended'.guarded guarded, guarded'⟩
        · refine .inr ⟨?_, refuted⟩
          rw [List.foldlM_cons, resolved]
          exact fails
      · refine .inr ⟨?_, refuted⟩
        rw [List.foldlM_cons, fails]
        rfl

/-- A sound trail has at most one literal for each assumed one and each that occurs. -/
theorem Sound.size_le {trail : Trail} (sound : trail.Sound clauses assumption)
    : trail.literals.size
      ≤ assumption.length + (Propagator.ofClauses clauses).positions.size := by
  have subset : trail.literals.toList
      ⊆ assumption ++ (Propagator.ofClauses clauses).positions.keys := by
    intro l member
    rw [List.mem_append]
    rcases (sound.derived l member).mem_or_occurs with assumed | ⟨clause, inside, occurs⟩
    · exact .inl assumed
    · refine .inr (Std.TreeMap.mem_keys.mpr ?_)
      exact Clauses.mem_positionsBy.mpr ⟨clause, inside, l, occurs, rfl⟩
  have nodup : trail.literals.toList.Nodup := List.Nodup.of_map _ sound.distinct
  have bound := (List.subperm_of_subset nodup subset).length_le
  simpa [Std.TreeMap.length_keys] using bound

/-- A trail whose literals are all kept in place is a beginning of the later one. -/
theorem prefix_of_kept {trail later : Trail}
    (kept : ∀ {position : Nat} {l : Lit}, trail.literals[position]? = some l → later.literals[position]? = some l)
    : trail.literals.toList <+: later.literals.toList := by
  rw [List.prefix_iff_getElem?]
  intro position below
  have inRange : position < trail.literals.size := by simpa using below
  have there := kept (Array.getElem?_eq_getElem inRange)
  simpa using there

end Trail

-----------------------------------------------------------------------------------------
-- Propagation
-----------------------------------------------------------------------------------------

namespace Propagator

variable {clauses : Clauses} {assumption : List Lit}

theorem mem_clausesOf {l : Lit} {clause : Clause}
    : clause ∈ (ofClauses clauses).clausesOf l ↔ clause ∈ clauses ∧ l ∈ clause := by
  simp only [clausesOf, ofClauses, List.mem_map, Clauses.mem_getD_positionsBy, id_eq]
  constructor
  · rintro ⟨position, ⟨source, found, k, member, rfl⟩, rfl⟩
    have same : (clauses.toArray.getD position []) = source := by simp [found]
    exact ⟨same ▸ List.mem_of_getElem? found, same ▸ member⟩
  · rintro ⟨inside, member⟩
    obtain ⟨position, found⟩ := List.getElem?_of_mem inside
    exact ⟨position, ⟨clause, found, l, member, rfl⟩, by simp [found]⟩

/-- Draining ends in a trail without further consequences, in a conflict, or at the literal without a
complement. Induction on the fuel: each step guards the clauses of one more position.
-/
theorem drain_spec (nonzero : ∀ clause ∈ clauses, ∀ l ∈ clause, l ≠ 0) {fuel head : Nat}
    {trail : Trail} (sound : trail.Sound clauses assumption) (early : head ≤ trail.literals.size)
    (guarded : ∀ clause ∈ clauses, trail.Guarded head clause)
    (enough : assumption.length + (ofClauses clauses).positions.size < fuel + head)
    : (∃ closed, (ofClauses clauses).drain fuel head trail = .ok (some closed)
        ∧ closed.Sound clauses assumption
        ∧ (∀ {position : Nat} {l : Lit}, trail.literals[position]? = some l
          → closed.literals[position]? = some l)
        ∧ (∀ clause ∈ clauses, closed.Settled clause)
        ∧ ∀ position, head ≤ position → closed.literals[position]? ≠ some Lit.least)
      ∨ (ofClauses clauses).drain fuel head trail = .ok none ∧ Refuted clauses assumption
      ∨ (ofClauses clauses).drain fuel head trail = .error .negationOverflow
        ∧ Derived clauses assumption Lit.least := by
  induction fuel generalizing head trail with
  | zero =>
      have bound := sound.size_le
      omega
  | succ fuel ih =>
      rw [drain]
      cases here : trail.literals[head]? with
      | none =>
          have late : trail.literals.size ≤ head := Array.getElem?_eq_none_iff.mp here
          refine .inl ⟨trail, rfl, sound, id,
            fun clause inside => (guarded clause inside).settled late, fun position beyond => ?_⟩
          simp [Array.getElem?_eq_none (Nat.le_trans late beyond)]
      | some l =>
          have below : head < trail.literals.size := by
            by_contra outside
            simp [Array.getElem?_eq_none (Nat.le_of_not_lt outside)] at here
          by_cases extreme : l = Lit.least
          · refine .inr (.inr ⟨?_, sound.derived _ ?_⟩)
            · rw [extreme]
              rfl
            · rw [← extreme, Array.mem_toList_iff]
              exact Array.mem_of_getElem? here
          have complement : Lit.negate l = .ok (-l) := if_neg extreme
          have sources : ∀ clause ∈ (ofClauses clauses).clausesOf (-l), clause ∈ clauses :=
            fun clause member => (mem_clausesOf.mp member).1
          simp only [complement]
          rcases sound.foldlM_resolve? nonzero sources below with
            ⟨grown, resolved, grownSound, extended, touched⟩ | ⟨fails, refuted⟩
          · have progress : ∀ clause ∈ clauses, grown.Guarded (head + 1) clause := by
              intro clause inside
              by_cases member : -l ∈ clause
              · exact touched clause (mem_clausesOf.mpr ⟨inside, member⟩)
              · exact extended.guarded ((guarded clause inside).next here member)
            rcases ih grownSound (Nat.le_trans below extended.size) progress (by omega) with
              ⟨closed, drained, closedSound, kept, settled, moderate⟩ | ⟨drained, refuted⟩ |
              ⟨drained, derived⟩
            · refine .inl ⟨closed, ?_, closedSound, kept ∘ extended.kept, settled,
                fun position late known => ?_⟩
              · simpa [bind, Except.bind, resolved] using drained
              · rcases Nat.eq_or_lt_of_le late with same | later
                · rw [← same, kept (extended.kept here)] at known
                  exact extreme (Option.some.inj known)
                · exact moderate position later known
            · refine .inr (.inl ⟨?_, refuted⟩)
              simpa [bind, Except.bind, resolved] using drained
            · refine .inr (.inr ⟨?_, derived⟩)
              simpa [bind, Except.bind, resolved] using drained
          · refine .inr (.inl ⟨?_, refuted⟩)
            simp [bind, Except.bind, fails, pure, Except.pure]

/-- Assuming literals in turn: the trail then holds these literals beside those that it held, or there
is a complementary pair among them; induction on the literals.
-/
theorem foldlM_assume? {literals : List Lit} (nonzero : ∀ l ∈ literals, l ≠ 0) {trail : Trail}
    (wf : trail.WellFormed)
    : (∃ assumed, literals.foldlM Trail.assume? trail = some assumed
        ∧ assumed.WellFormed
        ∧ ∀ l, l ∈ assumed.literals.toList ↔ l ∈ trail.literals.toList ∨ l ∈ literals)
      ∨ literals.foldlM Trail.assume? trail = none
        ∧ ∃ l ∈ literals, -l ∈ trail.literals.toList ∨ -l ∈ literals := by
  induction literals generalizing trail with
  | nil => exact .inl ⟨trail, rfl, wf, by simp⟩
  | cons l rest ih =>
      obtain ⟨first, later⟩ := List.forall_mem_cons.mp nonzero
      rw [List.foldlM_cons, Trail.assume?]
      by_cases free : trail.isOpen l = true
      · have members : ∀ k, k ∈ (trail.push l).literals.toList
            ↔ k ∈ trail.literals.toList ∨ k = l := by
          simp [Trail.push]
        rw [if_pos free]
        rcases ih later (wf.push first free) with ⟨assumed, done, assumedWf, holds⟩ | ⟨fails, pair⟩
        · exact .inl ⟨assumed, done, assumedWf, fun k => by
            rw [holds, members, List.mem_cons, or_assoc]⟩
        · refine .inr ⟨fails, ?_⟩
          obtain ⟨k, member, opposite | opposite⟩ := pair
          · rcases (members (-k)).mp opposite with old | same
            · exact ⟨k, by simp [member], .inl old⟩
            · refine ⟨l, by simp, .inr ?_⟩
              rw [← same, Int.neg_neg]
              exact List.mem_cons_of_mem _ member
          · exact ⟨k, by simp [member], .inr (by simp [opposite])⟩
      · rw [if_neg free]
        by_cases holds : trail.isTrue l = true
        · have known := (Trail.isTrue_iff wf).mp holds
          rw [if_pos holds]
          rcases ih later wf with ⟨assumed, done, assumedWf, members⟩ | ⟨fails, pair⟩
          · refine .inl ⟨assumed, done, assumedWf, fun k => ?_⟩
            rw [members, List.mem_cons]
            grind
          · refine .inr ⟨fails, ?_⟩
            obtain ⟨k, member, opposite⟩ := pair
            exact ⟨k, by simp [member], opposite.imp_right (List.mem_cons_of_mem _)⟩
        · rw [if_neg holds]
          refine .inr ⟨rfl, l, by simp, .inl ?_⟩
          by_contra absent
          refine free ((Trail.isOpen_iff wf).mpr ⟨fun known => ?_, absent⟩)
          exact holds ((Trail.isTrue_iff wf).mpr known)

/-- Propagation ends with a trail on which the clauses are settled, in a conflict, or at the literal
without a complement.
-/
theorem propagate_settles (nonzero : ∀ clause ∈ clauses, ∀ l ∈ clause, l ≠ 0)
    (nonzeroAssumption : ∀ l ∈ assumption, l ≠ 0)
    : (∃ found assumed : List Lit, ∃ closed : Trail,
        (ofClauses clauses).propagate assumption = .ok (some found)
        ∧ closed.Sound clauses assumption
        ∧ (∀ clause ∈ clauses, closed.Settled clause)
        ∧ ¬ Lit.least ∈ closed.literals.toList
        ∧ closed.literals.toList = assumed ++ found
        ∧ ∀ l, l ∈ assumed ↔ l ∈ assumption)
      ∨ (ofClauses clauses).propagate assumption = .ok none ∧ Refuted clauses assumption
      ∨ (ofClauses clauses).propagate assumption = .error .negationOverflow
        ∧ Derived clauses assumption Lit.least := by
  rw [propagate]
  rcases foldlM_assume? nonzeroAssumption .empty with ⟨assumed, start, wf, members⟩ | ⟨fails, pair⟩
  · have holds : ∀ l, l ∈ assumed.literals.toList ↔ l ∈ assumption := by
      intro l
      rw [members]
      simp
    have sound : assumed.Sound clauses assumption :=
      ⟨wf, fun l member => .assumed ((holds l).mp member), fun l member => (holds l).mpr member⟩
    rw [start]
    dsimp only
    have all : (ofClauses clauses).clauses.toList = clauses := rfl
    rw [all]
    rcases sound.foldlM_resolve? nonzero (fun _ => id) (Nat.zero_le _) with
      ⟨swept, resolved, sweptSound, extended, guarded⟩ | ⟨fails, refuted⟩
    · rw [resolved]
      dsimp only
      have enough : assumption.length + (ofClauses clauses).positions.size
          < assumption.length + (ofClauses clauses).positions.size + 1 + 0 := by
        omega
      rcases drain_spec nonzero sweptSound (Nat.zero_le _) guarded enough with
        ⟨closed, drained, closedSound, kept, settled, moderate⟩ | ⟨drained, refuted⟩ | ⟨drained, derived⟩
      · have absent : ¬ Lit.least ∈ closed.literals.toList := by
          intro member
          obtain ⟨position, known⟩ := List.getElem?_of_mem member
          exact moderate position (Nat.zero_le _) (by simpa using known)
        obtain ⟨found, whole⟩ := Trail.prefix_of_kept fun known => kept (extended.kept known)
        have dropped : closed.literals.toList.drop assumed.literals.size = found := by
          rw [← whole, ← Array.length_toList, List.drop_left]
        refine .inl ⟨found, assumed.literals.toList, closed, ?_, closedSound, settled, absent, whole.symm,
          holds⟩
        rw [drained]
        simp [bind, Except.bind, pure, Except.pure, dropped]
      · refine .inr (.inl ⟨?_, refuted⟩)
        rw [drained]
        rfl
      · refine .inr (.inr ⟨?_, derived⟩)
        rw [drained]
        rfl
    · exact .inr (.inl ⟨by rw [fails]; rfl, refuted⟩)
  · rw [fails]
    refine .inr (.inl ⟨rfl, ?_⟩)
    obtain ⟨l, member, opposite | opposite⟩ := pair
    · simp at opposite
    · exact .pair (.assumed member) (.assumed opposite)

/-- Two open occurrences in a clause are not both the occurrence of a literal that it holds once. -/
theorem exists_other_open {trail : Trail} {clause : Clause} {l : Lit} (single : clause.count l = 1)
    (several : 2 ≤ (clause.filter trail.isOpen).length)
    : ∃ k ∈ clause, k ≠ l ∧ trail.isOpen k = true := by
  obtain ⟨k, member, other⟩ : ∃ k ∈ clause.filter trail.isOpen, k ≠ l := by
    by_contra same
    push Not at same
    have all : (clause.filter trail.isOpen).count l = (clause.filter trail.isOpen).length :=
      List.count_eq_length.mpr fun k member => (same k member).symm
    have fewer : (clause.filter trail.isOpen).count l ≤ clause.count l :=
      List.filter_sublist.count_le l
    omega
  exact ⟨k, (List.mem_filter.mp member).1, other, (List.mem_filter.mp member).2⟩

/-- A trail on which all clauses are settled holds all that follows; induction on the derivation. -/
theorem mem_of_derived {closed : Trail} (sound : closed.Sound clauses assumption)
    (settled : ∀ clause ∈ clauses, closed.Settled clause) {l : Lit}
    (derived : Derived clauses assumption l)
    : l ∈ closed.literals.toList := by
  induction derived with
  | assumed member => exact sound.assumed _ member
  | @unit clause l inside single others ih =>
      rcases settled clause inside with ⟨k, found, holds⟩ | several
      · by_cases same : k = l
        · exact same ▸ holds
        · exact absurd (ih k found same) (Trail.neg_not_mem sound.toWellFormed holds)
      · -- An open literal other than the derived one would be false.
        obtain ⟨k, found, other, free⟩ := exists_other_open single several
        exact absurd (ih k found other) ((Trail.isOpen_iff sound.toWellFormed).mp free).2

/-- A trail on which all of the clauses are settled is no conflict. -/
theorem not_refuted {closed : Trail} (sound : closed.Sound clauses assumption)
    (settled : ∀ clause ∈ clauses, closed.Settled clause)
    : ¬ Refuted clauses assumption := by
  intro refuted
  cases refuted with
  | pair left right =>
      exact Trail.neg_not_mem sound.toWellFormed (mem_of_derived sound settled left)
        (mem_of_derived sound settled right)
  | @falsified clause inside each =>
      have false_ : ∀ l ∈ clause, -l ∈ closed.literals.toList := fun l member =>
        mem_of_derived sound settled (each l member)
      rcases settled clause inside with ⟨l, member, holds⟩ | several
      · exact Trail.neg_not_mem sound.toWellFormed holds (false_ l member)
      · obtain ⟨l, found⟩ := List.exists_mem_of_length_pos (Nat.lt_of_lt_of_le Nat.two_pos several)
        obtain ⟨member, free⟩ := List.mem_filter.mp found
        exact ((Trail.isOpen_iff sound.toWellFormed).mp free).2 (false_ l member)

/-- Propagation finds the derived literals beyond the assumption, or ends in a conflict if the
assumption refutes the clauses.
-/
theorem propagate_spec (proper : clauses.Proper) (properAssumption : ∀ l ∈ assumption, l.Proper)
    : (∃ found, (ofClauses clauses).propagate assumption = .ok (some found)
        ∧ ¬ Refuted clauses assumption
        ∧ (found.map Lit.var).Nodup
        ∧ ∀ l, l ∈ found ↔ Derived clauses assumption l ∧ ¬ l ∈ assumption)
      ∨ (ofClauses clauses).propagate assumption = .ok none ∧ Refuted clauses assumption := by
  rcases propagate_settles proper.nonzero (fun l member => (properAssumption l member).1) with
    ⟨found, assumed, closed, done, sound, settled, -, whole, holds⟩ | conflict | ⟨-, derived⟩
  · have distinct := sound.distinct
    rw [whole, List.map_append, List.nodup_append] at distinct
    refine .inl ⟨found, done, not_refuted sound settled, distinct.2.1, fun l => ?_⟩
    constructor
    · intro member
      refine ⟨sound.derived l (by simp [whole, member]), fun known => ?_⟩
      exact distinct.2.2 _ (List.mem_map_of_mem ((holds l).mpr known)) _ (List.mem_map_of_mem member) rfl
    · rintro ⟨derived, beyond⟩
      have member := mem_of_derived sound settled derived
      rw [whole, List.mem_append, holds] at member
      exact member.resolve_left beyond
  · exact .inr conflict
  · exact absurd (derived.proper proper properAssumption).2 (by decide)

end Propagator

end KnowledgeCompiler
