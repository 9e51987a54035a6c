import KnowledgeCompiler.Proofs.Circuit.Walk
import KnowledgeCompiler.Proofs.Leaf.Counting

/-! What plain answers depend on.

An answer depends on the query only as far as it speaks about the variables of the node, which is what a
restriction tells. It does not depend on the fuel if that is enough for all paths, and not on the circuit
beyond the gates and derived data of the nodes below.
-/

namespace KnowledgeCompiler

variable {vars : SortedSet Var} {literals literals' : List Lit} {marked marked' : List Var}

/-- Two queries that say the same about some variables. -/
structure SameAbout (vars : SortedSet Var) (literals literals' : List Lit) (marked marked' : List Var)
    : Prop where
  assumes : ∀ {l : Lit}, l.var ∈ vars → (l ∈ literals ↔ l ∈ literals')
  marks : ∀ {v}, v ∈ vars → (v ∈ marked ↔ v ∈ marked')

theorem SameAbout.mono {fewer : SortedSet Var} (same : SameAbout vars literals literals' marked marked')
    (subset : ∀ v, v ∈ fewer → v ∈ vars)
    : SameAbout fewer literals literals' marked marked' :=
  ⟨fun inside => same.assumes (subset _ inside), fun inside => same.marks (subset _ inside)⟩

-----------------------------------------------------------------------------------------
-- Restrictions
-----------------------------------------------------------------------------------------

namespace Restriction

/-- The value that literals give to a variable. -/
def value (literals : List Lit) (v : Var) : Option Bool :=
  if (v : Int) ∈ literals then some true else if -(v : Int) ∈ literals then some false else none

theorem valueOf_ok {v : Var} (small : v < 2147483648) : valueOf literals v = .ok (value literals v) := by
  have negated : Lit.negate (v : Int) = .ok (-(v : Int)) :=
    Lit.negate_eq_ok (lt_of_lt_of_le (by decide) (Int.natCast_nonneg v))
  unfold valueOf value
  rw [Lit.word_eq_self small, negated]
  by_cases high : (v : Int) ∈ literals
  · simp [high, pure, Except.pure]
  · by_cases low : -(v : Int) ∈ literals
    · simp [high, low, pure, Except.pure, bind, Except.bind]
    · simp [high, low, pure, Except.pure, bind, Except.bind]

/-- A variable has a value if a literal mentions it. -/
theorem isSome_value (literals : List Lit) (v : Var)
    : (value literals v).isSome = literals.any fun l => l.var == v := by
  have mentioned : (∃ l ∈ literals, l.var = v) ↔ (v : Int) ∈ literals ∨ -(v : Int) ∈ literals := by
    constructor
    · rintro ⟨l, member, rfl⟩
      simp only [Lit.var]
      rcases Int.natAbs_eq l with same | same
      · exact .inl (same ▸ member)
      · exact .inr (same ▸ member)
    · rintro (member | member)
      · exact ⟨_, member, Int.natAbs_natCast v⟩
      · exact ⟨_, member, (Int.natAbs_neg _).trans (Int.natAbs_natCast v)⟩
  rw [Bool.eq_iff_iff]
  simp only [List.any_eq_true, beq_iff_eq, mentioned, value]
  grind

/-- The restriction of a query to variables. -/
def restrict (vars : SortedSet Var) (literals : List Lit) (marked : List Var) : Restriction :=
  { values := vars.toList.map (value literals), marked := vars.toList.map marked.contains }

theorem of_ok (bounded : ∀ v, v ∈ vars → 0 < v ∧ v < 2147483648)
    : Restriction.of vars literals marked = .ok (restrict vars literals marked) := by
  have values : vars.toList.mapM (valueOf literals) = .ok (vars.toList.map (value literals)) :=
    Checked.mapM_ok fun v inside => valueOf_ok (bounded v inside).2
  rw [Restriction.of, values]
  rfl

/-- Queries with the same restriction say the same about the variables. -/
theorem sameAbout (admissible : Admissible literals) (admissible' : Admissible literals')
    (equal : restrict vars literals marked = restrict vars literals' marked')
    : SameAbout vars literals literals' marked marked' := by
  obtain ⟨values, marks⟩ := Restriction.mk.injEq .. ▸ equal
  rw [List.map_inj_left] at values marks
  refine ⟨fun {l} inside => ?_, fun {v} inside => ?_⟩
  · have same := values l.var inside
    have positive {ls : List Lit} : (l.var : Int) ∈ ls ↔ value ls l.var = some true := by
      unfold value
      grind
    have negative {ls : List Lit} (admissible : Admissible ls)
        : -(l.var : Int) ∈ ls ↔ value ls l.var = some false := by
      have apart := admissible.consistent (l.var : Int)
      unfold value
      grind
    rcases Lit.eq_or_eq_neg (l := l) (k := (l.var : Int)) rfl with equal | equal
    · rw [equal, positive, positive, same]
    · rw [equal, negative admissible, negative admissible', same]
  · have same := marks v inside
    simpa using same

end Restriction

-----------------------------------------------------------------------------------------
-- Leaves
-----------------------------------------------------------------------------------------

namespace Build

variable {β : Type} {c d : Circuit} {id : NodeId} {gate : Gate}

theorem within_eq (same : SameAbout vars literals literals' marked marked') {l : Lit}
    : l ∈ within vars literals ↔ l ∈ within vars literals' := by
  simp only [within, List.mem_filter]
  exact and_congr_left fun inside => same.assumes (SortedSet.contains_iff.mp inside)

/-- A walk whose answer at a leaf depends only on what the query says about the variables of the leaf. -/
structure Walk.Local (walk : Walk β) : Prop where
  leaf
    : ∀ {c : Circuit} {id gate vars literals literals' marked marked'},
        gate.InRange
        → Admissible literals
        → Admissible literals'
        → (∀ v, c.Mentions v gate → v ∈ vars)
        → SameAbout vars literals literals' marked marked'
        → walk.leaf id gate vars literals marked = walk.leaf id gate vars literals' marked'

/-- A literal of a leaf is assumed, or its complement is, in both of two queries or in neither. -/
theorem contains_literal (same : SameAbout vars literals literals' marked marked') {l : Lit}
    (inside : l.var ∈ vars)
    : literals.contains l = literals'.contains l := by
  rw [Bool.eq_iff_iff]
  simpa using same.assumes inside

theorem satisfiableWalk_local : satisfiableWalk.Local where
  leaf {c id gate vars literals literals' marked marked'} inRange admissible admissible' mentions same := by
    cases gate with
    | constant value => rfl
    | literal l =>
        have inside : (-l).var ∈ vars := Lit.var_neg l ▸ mentions l.var rfl
        simp only [satisfiableWalk, Lit.Proper.negate inRange]
        exact congrArg (fun held => Except.ok !held) (contains_literal same inside)
    | twoCnf formula =>
        exact congrArg Outcome.ofChecked
          ((formula.isSatisfiable_spec inRange (admissible.filter _).complementFree).congr
            (formula.isSatisfiable_spec inRange (admissible'.filter _).complementFree)
            fun l => within_eq same)
    | horn formula =>
        exact congrArg Outcome.ofChecked
          ((formula.isSatisfiable_spec inRange (admissible.filter _)).congr
            (formula.isSatisfiable_spec inRange (admissible'.filter _)) fun l => within_eq same)
    | and children => rfl
    | or decision children => rfl
    | mapping names child => rfl

/-- Counts depend on which literals are assumed, not on their order or number. -/
theorem Counts.congr {count other : Checked Nat} {clauses : Clauses} (counts : Counts count clauses literals)
    (counts' : Counts other clauses literals') (same : ∀ l, l ∈ literals ↔ l ∈ literals')
    : count = other := by
  rw [counts, counts']
  refine congrArg Except.ok (countOver_congr fun σ => ?_)
  simp only [Agrees, same]

theorem countWalk_local : countWalk.Local where
  leaf {c id gate vars literals literals' marked marked'} inRange admissible admissible' mentions same := by
    cases gate with
    | constant value => rfl
    | literal l =>
        have inside : (-l).var ∈ vars := Lit.var_neg l ▸ mentions l.var rfl
        simp only [countWalk, Lit.Proper.negate inRange]
        exact congrArg (fun held => Except.ok (if held = true then 0 else 1)) (contains_literal same inside)
    | twoCnf formula =>
        exact congrArg Outcome.ofChecked
          (Counts.congr (formula.modelCount_spec inRange (admissible.filter _))
            (formula.modelCount_spec inRange (admissible'.filter _)) fun l => within_eq same)
    | horn formula =>
        exact congrArg Outcome.ofChecked
          (Counts.congr (formula.modelCount_spec inRange (admissible.filter _))
            (formula.modelCount_spec inRange (admissible'.filter _)) fun l => within_eq same)
    | and children => rfl
    | or decision children => rfl
    | mapping names child => rfl

/-- The cardinality of a literal. -/
theorem literalCardinality_ok {l : Lit} (proper : l.Proper)
    : literalCardinality literals marked l
      = .ok (if -l ∈ literals then none
          else if l ∉ literals ∧ l < 0 ∧ l.var ∈ marked then some 1 else some 0) := by
  unfold literalCardinality
  rw [proper.negate]
  by_cases excluded : -l ∈ literals
  · simp [excluded, bind, Except.bind, pure, Except.pure]
  · by_cases lowers : l ∉ literals ∧ l < 0 ∧ l.var ∈ marked
    · simp [excluded, lowers, bind, Except.bind, pure, Except.pure]
    · have keeps : l ∉ literals → l < 0 → l.var ∉ marked := by simpa using lowers
      rw [if_neg excluded, if_neg lowers]
      simpa [excluded, bind, Except.bind, pure, Except.pure] using keeps

theorem cardinalityWalk_local : cardinalityWalk.Local where
  leaf {c id gate vars literals literals' marked marked'} inRange _ _ mentions same := by
    cases gate with
    | constant value => rfl
    | literal l =>
        have inside : l.var ∈ vars := mentions l.var rfl
        have opposite : (-l).var ∈ vars := (Lit.var_neg l).symm ▸ inside
        simp only [cardinalityWalk, literalCardinality_ok inRange, same.assumes inside,
          same.assumes opposite, same.marks inside]
    | twoCnf formula => rfl
    | horn formula => rfl
    | and children => rfl
    | or decision children => rfl
    | mapping names child => rfl

-----------------------------------------------------------------------------------------
-- Combining
-----------------------------------------------------------------------------------------

theorem combine_congr {m : Type → Type} [Monad m] {step : β → β → β × Bool} {value value' : NodeId → m β}
    {ids : List NodeId} (same : ∀ id ∈ ids, value id = value' id) (start : β)
    : combine step value ids start = combine step value' ids start := by
  induction ids generalizing start with
  | nil => rfl
  | cons id rest ih =>
      obtain ⟨here, later⟩ := List.forall_mem_cons.mp same
      simp only [combine, here, ih later]

namespace Walk

variable {walk : Walk β}

/-- Two queries that say the same about the images of variables say the same about the variables when they
are translated.
-/
theorem sameAbout_image {names : Bijection} {below : SortedSet Var} (bounded : names.toLocal.Bounded)
    (same : SameAbout vars literals literals' marked marked')
    (images : ∀ {v w}, v ∈ below → names.toGlobal.find? v = some w → w ∈ vars)
    : SameAbout below (literals.filterMap names.toLocal.image) (literals'.filterMap names.toLocal.image)
        (marked.filterMap names.toLocal.find?) (marked'.filterMap names.toLocal.find?) where
  assumes {k} inside := by
    simp only [List.mem_filterMap]
    refine exists_congr fun l => and_congr_left fun image => same.assumes ?_
    have found := (Renaming.image_eq_some (σ := fun _ => false) bounded image).1
    exact images inside (names.toLocal_iff.mp found)
  marks {v} inside := by
    simp only [List.mem_filterMap]
    exact exists_congr fun w => and_congr_left fun found =>
      same.marks (images inside (names.toLocal_iff.mp found))

/-- The answer depends on what the query says about the variables of the node; induction on the fuel. -/
theorem answer_congr (local_ : walk.Local) (upToDate : c.UpToDate) (inRange : c.InRange) {fuel : Nat}
    (admissible : Admissible literals) (admissible' : Admissible literals')
    (same : SameAbout (c.varsOf id) literals literals' marked marked')
    : walk.answer c fuel id literals marked = walk.answer c fuel id literals' marked' := by
  induction fuel generalizing id literals literals' marked marked' with
  | zero => rfl
  | succ fuel ih =>
      rw [answer, answer]
      cases found : c.node? id with
      | none => rfl
      | some here =>
          dsimp only
          have at_ := Circuit.gate?_of_node? found
          rw [Circuit.varsOf_of_node? found] at same
          have mentions : ∀ v, c.Mentions v here.gate → v ∈ here.vars := fun v mentioned =>
            Circuit.varsOf_of_node? found ▸ (upToDate.mem_varsOf at_).mpr mentioned
          cases gate : here.gate with
          | and children | or decision children =>
              rw [gate] at mentions
              dsimp only
              rw [combine_congr fun child member => ih admissible admissible'
                (same.mono fun v inside => mentions v ⟨child, member, inside⟩)]
          | mapping names child =>
              rw [gate] at at_ mentions
              obtain ⟨-, bounded⟩ := inRange at_
              dsimp only
              rw [ih (admissible.image bounded names.toLocal_injective)
                (admissible'.image bounded names.toLocal_injective)
                (sameAbout_image bounded same fun {v w} inside image => mentions w ⟨v, inside, image⟩)]
          | constant value | literal l | twoCnf formula | horn formula =>
              rw [gate] at at_ mentions
              exact local_.leaf (inRange at_) admissible admissible' mentions same

/-- Nodes of one gate with one summary have the same answer if the nodes below them do. -/
theorem answer_step {few more : Nat} {here there : Node} (found : c.node? id = some here)
    (found' : d.node? id = some there) (gate' : there.gate = here.gate) (summary' : there.summary = here.summary)
    (step : ∀ child ∈ here.gate.children, ∀ literals marked,
      walk.answer d more child literals marked = walk.answer c few child literals marked)
    : walk.answer d (more + 1) id literals marked = walk.answer c (few + 1) id literals marked := by
  rw [answer, answer, found, found']
  dsimp only [Node.vars, Node.throughout]
  rw [gate', summary']
  cases gate : here.gate with
  | and children | or decision children =>
      rw [gate] at step
      dsimp only [Gate.children] at step ⊢
      rw [combine_congr fun child member => step child member literals marked]
  | mapping names child =>
      rw [gate] at step
      dsimp only
      rw [step child (by simp [Gate.children])]
  | constant value | literal l | twoCnf formula | horn formula => rfl

/-- Fuel for all paths is as good as more; induction on the fuel. -/
theorem answer_within {few more : Nat} (within : c.Within few id) (le : few ≤ more)
    : walk.answer c more id literals marked = walk.answer c few id literals marked := by
  induction few generalizing more id literals marked with
  | zero => exact within.elim
  | succ few ih =>
      obtain ⟨more, rfl⟩ : ∃ rest, more = rest + 1 := ⟨more - 1, by omega⟩
      cases found : c.node? id with
      | none => rw [answer, answer, found]
      | some here =>
          refine answer_step found found rfl rfl fun child member literals marked => ?_
          exact ih (within child ⟨here.gate, Circuit.gate?_of_node? found, member⟩) (by omega)

/-- The answer is the same where all nodes below have the same gates and derived data; induction on the
fuel.
-/
theorem answer_transport {fuel : Nat}
    (same : ∀ other, Relation.ReflTransGen c.IsChild other id → d.bare? other = c.bare? other)
    : walk.answer d fuel id literals marked = walk.answer c fuel id literals marked := by
  induction fuel generalizing id literals marked with
  | zero => rfl
  | succ fuel ih =>
      have here_ := same id .refl
      cases found : c.node? id with
      | none =>
          have missing : d.node? id = none := by
            simpa [Circuit.bare?, found] using here_
          rw [answer, answer, found, missing]
      | some here =>
          obtain ⟨there, found', gate', summary'⟩ := Circuit.node?_of_bare? here_ found
          refine answer_step found found' gate' summary' fun child member literals marked => ?_
          refine ih fun other path => same other (path.tail ?_)
          exact ⟨here.gate, Circuit.gate?_of_node? found, member⟩

end Walk

end Build

end KnowledgeCompiler
