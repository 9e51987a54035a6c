import KnowledgeCompiler.Leaf.Horn
import KnowledgeCompiler.Leaf.TwoCnf
import KnowledgeCompiler.Proofs.Renaming
import KnowledgeCompiler.Proofs.TwoSat

/-! Formula leaves keep their clauses: what is flipped for the Horn form is flipped back, and a renamed
leaf has the renamed clauses. The variables to flip come from a 2-CNF formula.
-/

namespace KnowledgeCompiler

-----------------------------------------------------------------------------------------
-- 2-CNF formulas
-----------------------------------------------------------------------------------------

namespace TwoCnf

theorem ofClauses_ok {clauses : Clauses} (short : ∀ clause ∈ clauses, clause.length ≤ 2)
    : ∃ formula, ofClauses clauses = .ok formula ∧ formula.clauses = clauses :=
  ⟨⟨clauses, short⟩, dif_pos short, rfl⟩

theorem rename?_ok (formula : TwoCnf) {names : Renaming} (bounded : names.Bounded)
    (covered : ∀ v, v ∈ formula.clauses.vars → (names.find? v).isSome = true)
    : ∃ renamed, formula.rename? names = .ok (some renamed)
      ∧ renamed.clauses = formula.clauses.map (List.filterMap names.image) := by
  have short : ∀ clause ∈ formula.clauses.map (List.filterMap names.image), clause.length ≤ 2 := by
    intro clause inside
    obtain ⟨source, member, rfl⟩ := List.mem_map.mp inside
    exact Nat.le_trans (List.length_filterMap_le _ _) (formula.short source member)
  obtain ⟨renamed, made, same⟩ := ofClauses_ok short
  refine ⟨renamed, ?_, same⟩
  rw [rename?, Renaming.clauses?_ok bounded (Renaming.covers_of_vars covered)]
  dsimp only [bind, Except.bind]
  rw [made]
  rfl

/-- What becomes of a formula depends on the images of its variables. -/
theorem rename?_fits (formula : TwoCnf) {names : Renaming} (fits : names.Fits formula.clauses.vars)
    : ∃ renamed, formula.rename? names = .ok (some renamed)
      ∧ renamed.clauses = formula.clauses.map (List.filterMap names.image) := by
  have agree := @Renaming.Fits.agree_only names formula.clauses
  obtain ⟨renamed, made, same⟩ := formula.rename?_ok fits.bounded_only fits.covered_only
  refine ⟨renamed, ?_, same.trans (Renaming.map_image_congr agree).symm⟩
  rw [← made, rename?, rename?, Renaming.clauses?_congr agree]

end TwoCnf

-----------------------------------------------------------------------------------------
-- Horn formulas
-----------------------------------------------------------------------------------------

theorem var_flipLiteral (flipped : SortedSet Var) (l : Lit) : (flipLiteral flipped l).var = l.var := by
  unfold flipLiteral
  split
  · exact Lit.var_neg l
  · rfl

/-- Flipping twice changes nothing. -/
theorem flipLiteral_flipLiteral (flipped : SortedSet Var) (l : Lit)
    : flipLiteral flipped (flipLiteral flipped l) = l := by
  unfold flipLiteral
  split
  · rename_i inside
    simp [Lit.var_neg, inside]
  · rfl

/-- A literal can be flipped unless it has no complement and its variable is flipped. -/
theorem flipChecked_of_flippable {flipped : SortedSet Var} {l : Lit}
    (flippable : l = Lit.least → ¬ l.var ∈ flipped)
    : flipChecked flipped l = .ok (flipLiteral flipped l) := by
  unfold flipChecked flipLiteral
  split
  · rename_i inside
    exact if_neg fun least => flippable least (SortedSet.contains_iff.mp inside)
  · rfl

theorem flipChecked_ok (flipped : SortedSet Var) {l : Lit} (proper : l.Proper)
    : flipChecked flipped l = .ok (flipLiteral flipped l) :=
  flipChecked_of_flippable fun least => absurd least proper.ne_least

/-- A literal that was flipped had a complement. -/
theorem flipped_of_flipChecked {flipped : SortedSet Var} {l k : Lit} (done : flipChecked flipped l = .ok k)
    : k = flipLiteral flipped l := by
  unfold flipChecked at done
  unfold flipLiteral
  split at done
  · rename_i inside
    rw [if_pos inside]
    exact Lit.eq_neg_of_negate done
  · rename_i outside
    rw [if_neg outside]
    exact (Except.ok.inj done).symm

theorem flipLiteral_ne_zero {flipped : SortedSet Var} {l : Lit} (nonzero : l ≠ 0)
    : flipLiteral flipped l ≠ 0 := by
  unfold flipLiteral
  split
  · exact Int.neg_ne_zero.mpr nonzero
  · exact nonzero

theorem proper_flipLiteral {flipped : SortedSet Var} {l : Lit} (proper : l.Proper)
    : (flipLiteral flipped l).Proper := by
  unfold flipLiteral
  split
  · exact proper.neg
  · exact proper

/-- Flipping some variables makes the clauses Horn: at most one occurrence in each of them is positive. -/
def Clauses.HornUnder (flipped : SortedSet Var) (clauses : Clauses) : Prop :=
  ∀ clause ∈ clauses, Clause.positiveCount (clause.map (flipLiteral flipped)) ≤ 1

instance (flipped : SortedSet Var) (clauses : Clauses) : Decidable (clauses.HornUnder flipped) :=
  inferInstanceAs (Decidable (∀ clause ∈ clauses, _ ≤ _))

/-- Images that all exist are listed; induction on the list. -/
theorem mapM_eq_filterMap {α β : Type} {image : α → Option β} {items : List α}
    (all : ∀ a ∈ items, (image a).isSome = true)
    : items.mapM image = some (items.filterMap image) := by
  induction items with
  | nil => rfl
  | cons a rest ih =>
      obtain ⟨first, later⟩ := List.forall_mem_cons.mp all
      obtain ⟨b, found⟩ := Option.isSome_iff_exists.mp first
      rw [List.mapM_cons, found, ih later, List.filterMap_cons_some found]
      rfl

namespace Horn

variable {clauses : Clauses} {flipped : SortedSet Var}

/-- Clauses that flipping makes Horn have a Horn formula, and it keeps them. -/
theorem ofClauses_ok (proper : ∀ clause ∈ clauses, ∀ l ∈ clause, Lit.Proper l)
    (horn : clauses.HornUnder flipped)
    : ∃ formula, ofClauses clauses flipped = .ok formula ∧ formula.unflipped = clauses
      ∧ formula.flipped = flipped := by
  have mapped : clauses.mapM (List.mapM (flipChecked flipped))
      = .ok (clauses.map (List.map (flipLiteral flipped))) :=
    Checked.mapM_ok fun clause inside => Checked.mapM_ok fun l member =>
      flipChecked_ok flipped (proper clause inside l member)
  have condition : ∀ clause ∈ clauses.map (List.map (flipLiteral flipped)),
      Clause.positiveCount clause ≤ 1 := by
    intro clause inside
    obtain ⟨source, member, rfl⟩ := List.mem_map.mp inside
    exact horn source member
  refine ⟨⟨clauses.map (List.map (flipLiteral flipped)), flipped, condition⟩, ?_, ?_, rfl⟩
  · rw [ofClauses, mapped]
    show (if horn : _ then _ else _) = _
    rw [dif_pos condition]
    rfl
  · simp [unflipped, List.map_map, Function.comp_def, flipLiteral_flipLiteral]

/-- The formula of clauses has them before flipping. -/
theorem eq_of_ofClauses {formula : Horn} (made : ofClauses clauses flipped = .ok formula)
    : formula.unflipped = clauses ∧ formula.flipped = flipped := by
  have each : ∀ {clause flippedClause : Clause}, clause.mapM (flipChecked flipped) = .ok flippedClause
      → flippedClause = clause.map (flipLiteral flipped) :=
    Checked.eq_map_of_mapM flipped_of_flipChecked
  cases mapped : clauses.mapM (List.mapM (flipChecked flipped)) with
  | error cause =>
      rw [ofClauses, mapped] at made
      cases made
  | ok flippedClauses =>
      obtain rfl := Checked.eq_map_of_mapM each mapped
      rw [ofClauses, mapped] at made
      dsimp only [bind, Except.bind] at made
      split at made
      · obtain rfl := Except.ok.inj made
        simp [unflipped, List.map_map, Function.comp_def, flipLiteral_flipLiteral]
      · cases made

/-- Flipping the clauses before flipping gives the Horn form. -/
theorem map_unflipped (formula : Horn)
    : formula.unflipped.map (List.map (flipLiteral formula.flipped)) = formula.clauses := by
  simp [unflipped, List.map_map, Function.comp_def, flipLiteral_flipLiteral]

/-- What flipping keeps of the literals holds in the Horn form. -/
theorem forall_of_unflipped {formula : Horn} {holds : Lit → Prop}
    (kept : ∀ {l}, holds l → holds (flipLiteral formula.flipped l))
    (each : ∀ clause ∈ formula.unflipped, ∀ l ∈ clause, holds l)
    : ∀ clause ∈ formula.clauses, ∀ l ∈ clause, holds l := by
  intro clause inside l member
  have flipped : flipLiteral formula.flipped l ∈ clause.map (flipLiteral formula.flipped) :=
    List.mem_map_of_mem member
  have there := each _ (List.mem_map_of_mem inside) _ flipped
  rw [← flipLiteral_flipLiteral formula.flipped l]
  exact kept there

theorem proper_of_unflipped {formula : Horn} (proper : formula.unflipped.Proper)
    : formula.clauses.Proper :=
  forall_of_unflipped proper_flipLiteral proper

theorem proper_unflipped {formula : Horn} (proper : formula.clauses.Proper) : formula.unflipped.Proper := by
  intro clause inside l member
  obtain ⟨source, origin, rfl⟩ := List.mem_map.mp inside
  obtain ⟨k, found, rfl⟩ := List.mem_map.mp member
  exact proper_flipLiteral (proper source origin k found)

/-- Renaming keeps the sign of a literal in the Horn form. -/
theorem isPositive_flip_image {names : Renaming} (bounded : names.Bounded)
    (injective : names.Injective) {renamed : SortedSet Var}
    (images : ∀ w, w ∈ renamed ↔ ∃ v ∈ flipped, names.find? v = some w) {l k : Lit}
    (nonzero : l ≠ 0) (image : names.image l = some k)
    : (flipLiteral renamed k).isPositive = (flipLiteral flipped l).isPositive := by
  obtain ⟨found, sign, proper, _⟩ := @Renaming.image_eq_some names (fun _ => false) l k bounded image
  have same : renamed.contains k.var = flipped.contains l.var := by
    rw [Bool.eq_iff_iff, SortedSet.contains_iff, SortedSet.contains_iff, images]
    constructor
    · intro some_
      obtain ⟨v, inside, other⟩ := some_
      rwa [← injective other found]
    · exact fun inside => ⟨l.var, inside, found⟩
  unfold flipLiteral
  rw [same]
  split
  · rw [Lit.isPositive_neg proper.1, Lit.isPositive_neg nonzero, sign]
  · exact sign

theorem mem_vars_unflipped {formula : Horn} {v : Var}
    : v ∈ formula.unflipped.vars ↔ v ∈ formula.vars := by
  simp only [Clauses.mem_vars, unflipped, vars]
  constructor
  · rintro ⟨clause, inside, k, member, rfl⟩
    obtain ⟨source, origin, rfl⟩ := List.mem_map.mp inside
    obtain ⟨l, found, rfl⟩ := List.mem_map.mp member
    exact ⟨source, origin, l, found, (var_flipLiteral _ l).symm⟩
  · rintro ⟨source, origin, l, found, rfl⟩
    exact ⟨_, List.mem_map_of_mem origin, _, List.mem_map_of_mem found, var_flipLiteral _ l⟩

/-- A Horn formula under other names is a Horn formula. -/
theorem rename?_ok (formula : Horn) {names : Renaming} (bounded : names.Bounded)
    (injective : names.Injective) (proper : formula.unflipped.Proper)
    (occurring : ∀ v, v ∈ formula.flipped → v ∈ formula.unflipped.vars)
    (covered : ∀ v, v ∈ formula.unflipped.vars → (names.find? v).isSome = true)
    : ∃ renamed, formula.rename? names = .ok (some renamed)
      ∧ renamed.unflipped = formula.unflipped.map (List.filterMap names.image)
      ∧ ∀ w, w ∈ renamed.flipped → ∃ v ∈ formula.flipped, names.find? v = some w := by
  have found : formula.flipped.toList.mapM names.find?
      = some (formula.flipped.toList.filterMap names.find?) :=
    mapM_eq_filterMap fun v member => covered v (occurring v member)
  have images : ∀ w, w ∈ SortedSet.ofList (formula.flipped.toList.filterMap names.find?)
      ↔ ∃ v ∈ formula.flipped, names.find? v = some w := by
    simp [List.mem_filterMap]
  have properImage : Clauses.Proper (formula.unflipped.map (List.filterMap names.image)) := by
    intro clause inside k member
    obtain ⟨source, -, rfl⟩ := List.mem_map.mp inside
    obtain ⟨l, -, image⟩ := List.mem_filterMap.mp member
    exact (Renaming.image_eq_some (σ := fun _ => false) bounded image).2.2.1
  have horn : Clauses.HornUnder (SortedSet.ofList (formula.flipped.toList.filterMap names.find?))
      (formula.unflipped.map (List.filterMap names.image)) := by
    intro clause inside
    obtain ⟨source, member, rfl⟩ := List.mem_map.mp inside
    have original : Clause.positiveCount (source.map (flipLiteral formula.flipped)) ≤ 1 := by
      refine formula.horn _ ?_
      rw [← map_unflipped]
      exact List.mem_map_of_mem member
    refine Nat.le_trans ?_ original
    have nonzero : ∀ l ∈ source, l ≠ 0 := fun l listed => (proper source member l listed).1
    clear member original inside
    simp only [Clause.positiveCount, List.countP_map]
    induction source with
    | nil => simp
    | cons l rest ih =>
        obtain ⟨first, later⟩ := List.forall_mem_cons.mp nonzero
        cases image : names.image l with
        | none =>
            rw [List.filterMap_cons_none image]
            exact Nat.le_trans (ih later) (by simp [List.countP_cons])
        | some k =>
            have sign := isPositive_flip_image bounded injective images first image
            rw [List.filterMap_cons_some image, List.countP_cons, List.countP_cons]
            simp only [Function.comp_apply, sign]
            exact Nat.add_le_add_right (ih later) _
  obtain ⟨renamed, made, same, flips⟩ := ofClauses_ok properImage horn
  refine ⟨renamed, ?_, same, fun w inside => (images w).mp (flips ▸ inside)⟩
  rw [rename?, Renaming.clauses?_ok bounded (Renaming.covers_of_vars covered)]
  dsimp only [bind, Except.bind]
  rw [found]
  dsimp only
  rw [made]
  rfl

/-- What becomes of a formula depends on the images of its variables. -/
theorem rename?_fits (formula : Horn) {names : Renaming} (fits : names.Fits formula.unflipped.vars)
    (proper : formula.unflipped.Proper) (occurring : ∀ v, v ∈ formula.flipped → v ∈ formula.unflipped.vars)
    : ∃ renamed, formula.rename? names = .ok (some renamed)
      ∧ renamed.unflipped = formula.unflipped.map (List.filterMap names.image)
      ∧ ∀ w, w ∈ renamed.flipped → w ∈ renamed.vars := by
  have agree := @Renaming.Fits.agree_only names formula.unflipped
  have flips : formula.flipped.toList.mapM names.find?
      = formula.flipped.toList.mapM (names.only formula.unflipped.vars).find? := by
    rw [mapM_eq_filterMap fun v inside => fits.covered v (occurring v inside),
      mapM_eq_filterMap fun v inside => fits.covered_only v (occurring v inside)]
    exact congrArg some (List.filterMap_congr fun v inside => Renaming.Fits.find?_eq_only (occurring v inside))
  obtain ⟨renamed, made, same, flipped⟩ :=
    formula.rename?_ok fits.bounded_only fits.injective_only proper occurring fits.covered_only
  refine ⟨renamed, ?_, same.trans (Renaming.map_image_congr agree).symm, fun w inside => ?_⟩
  · rw [← made, rename?, rename?, Renaming.clauses?_congr agree, flips]
  · obtain ⟨v, origin, image⟩ := flipped w inside
    rw [← mem_vars_unflipped, same]
    exact Renaming.mem_vars_map_image.mpr ⟨v, occurring v origin, image⟩

end Horn

-----------------------------------------------------------------------------------------
-- The variables to flip
-----------------------------------------------------------------------------------------

/-- At most one element passes a test just if of any two elements one does not; induction on the list. -/
theorem countP_le_one_iff {α : Type} {test : α → Bool} {items : List α}
    : items.countP test ≤ 1 ↔ ∀ pair ∈ orderedPairs items, test pair.1 = false ∨ test pair.2 = false := by
  induction items with
  | nil => simp [orderedPairs]
  | cons a rest ih =>
      have heads : (∀ pair ∈ rest.map (a, ·), test pair.1 = false ∨ test pair.2 = false)
          ↔ test a = false ∨ rest.countP test = 0 := by
        rw [List.forall_mem_map, List.countP_eq_zero]
        cases passes : test a <;> simp [passes]
      rw [orderedPairs, List.forall_mem_append, heads, ← ih, List.countP_cons]
      cases test a with
      | false => simp
      | true =>
          simp only [if_true, Bool.true_eq_false, false_or]
          omega

theorem mem_of_mem_orderedPairs {α : Type} {items : List α} {pair : α × α}
    (member : pair ∈ orderedPairs items)
    : pair.1 ∈ items ∧ pair.2 ∈ items := by
  induction items with
  | nil => simp [orderedPairs] at member
  | cons a rest ih =>
      rcases List.mem_append.mp member with first | later
      · obtain ⟨b, inside, rfl⟩ := List.mem_map.mp first
        exact ⟨by simp, by simp [inside]⟩
      · obtain ⟨left, right⟩ := ih later
        exact ⟨List.mem_cons_of_mem a left, List.mem_cons_of_mem a right⟩

/-- A literal becomes negative exactly if flipping, seen as an assignment, makes it true. -/
theorem isPositive_flipLiteral {flipped : SortedSet Var} {l : Lit} (nonzero : l ≠ 0)
    : (flipLiteral flipped l).isPositive = false ↔ l.TrueIn fun v => flipped.contains v := by
  rw [Lit.TrueIn]
  unfold flipLiteral
  split
  · rename_i flips
    rw [Lit.isPositive_neg nonzero, flips]
    cases l.isPositive <;> simp
  · rename_i stays
    rw [(Bool.not_eq_true _).mp stays]
    exact eq_comm

namespace Clauses

/-- The clauses over the variables to flip: of two literals in a clause one becomes negative. -/
def flipConstraints (clauses : Clauses) : Clauses :=
  clauses.flatMap fun clause => (orderedPairs clause).map fun pair => [pair.1, pair.2]

variable {clauses : Clauses}

theorem mem_flipConstraints {constraint : Clause}
    : constraint ∈ clauses.flipConstraints
      ↔ ∃ clause ∈ clauses, ∃ pair ∈ orderedPairs clause, [pair.1, pair.2] = constraint := by
  simp only [flipConstraints, List.mem_flatMap, List.mem_map]

/-- The literals of the constraints are those of the clauses. -/
theorem mem_of_mem_flipConstraints {constraint : Clause} {l : Lit}
    (inside : constraint ∈ clauses.flipConstraints) (member : l ∈ constraint)
    : ∃ clause ∈ clauses, l ∈ clause := by
  obtain ⟨clause, there, pair, listed, rfl⟩ := mem_flipConstraints.mp inside
  obtain ⟨left, right⟩ := mem_of_mem_orderedPairs listed
  refine ⟨clause, there, ?_⟩
  rcases List.mem_cons.mp member with rfl | second
  · exact left
  · exact List.mem_singleton.mp second ▸ right

theorem Proper.flipConstraints (proper : clauses.Proper) : clauses.flipConstraints.Proper := by
  intro constraint inside l member
  obtain ⟨clause, there, found⟩ := mem_of_mem_flipConstraints inside member
  exact proper clause there l found

/-- Variables to flip satisfy the constraints just if flipping them makes the clauses Horn. -/
theorem trueIn_flipConstraints {flipped : SortedSet Var} (proper : clauses.Proper)
    : TrueIn (fun v => flipped.contains v) clauses.flipConstraints ↔ clauses.HornUnder flipped := by
  have each : ∀ clause ∈ clauses, ∀ pair ∈ orderedPairs clause,
      (Clause.TrueIn (fun v => flipped.contains v) [pair.1, pair.2]
        ↔ (flipLiteral flipped pair.1).isPositive = false
          ∨ (flipLiteral flipped pair.2).isPositive = false) := by
    intro clause inside pair listed
    obtain ⟨left, right⟩ := mem_of_mem_orderedPairs listed
    rw [isPositive_flipLiteral (proper clause inside _ left).1,
      isPositive_flipLiteral (proper clause inside _ right).1]
    simp [Clause.TrueIn]
  simp only [TrueIn, flipConstraints, List.forall_mem_flatMap, List.forall_mem_map, HornUnder,
    Clause.positiveCount, List.countP_map, countP_le_one_iff, Function.comp_apply]
  exact forall₂_congr fun clause inside => forall₂_congr fun pair listed => each clause inside pair listed

end Clauses

/-- Among values of distinct variables, a variable comes with `true` just if that is its value. -/
theorem mem_true_iff {values : List (Var × Bool)} (distinct : (values.map Prod.fst).Nodup)
    {entry : Var × Bool} (member : entry ∈ values)
    : (entry.1, true) ∈ values ↔ entry.2 = true := by
  constructor
  · intro other
    rw [← List.inj_on_of_nodup_map distinct other member rfl]
  · intro value
    rwa [← value]

/-- There are variables to flip just if flipping some makes the clauses Horn. Those found do so, and they are
variables of the clauses.
-/
theorem hornRenaming?_spec {clauses : Clauses} (proper : clauses.Proper)
    : ∃ outcome, hornRenaming? clauses = .ok outcome
      ∧ (outcome = none → ∀ flipped, ¬ clauses.HornUnder flipped)
      ∧ ∀ flipped, outcome = some flipped
        → (∀ v, v ∈ flipped → v ∈ clauses.vars) ∧ clauses.HornUnder flipped := by
  have unfolded : hornRenaming? clauses = (do
      let model ← TwoSat.model? clauses.flipConstraints
      return model.map fun values => SortedSet.ofList ((values.filter (·.2)).map (·.1))) := rfl
  rw [unfolded]
  rcases TwoSat.model?_spec proper.flipConstraints with ⟨made, never⟩ | ⟨values, made, firsts, holds⟩
  · rw [made]
    exact ⟨none, rfl, fun _ flipped horn => never _ ((Clauses.trueIn_flipConstraints proper).mpr horn),
      by simp⟩
  · rw [made]
    refine ⟨_, rfl, by simp, fun flipped same => ?_⟩
    obtain rfl := Option.some.inj same
    have mem_flipped : ∀ v, v ∈ SortedSet.ofList ((values.filter (·.2)).map (·.1)) ↔ (v, true) ∈ values := by
      simp
    have distinct : (values.map Prod.fst).Nodup := by
      rw [firsts]
      exact SortedSet.nodup _
    refine ⟨fun v member => ?_, (Clauses.trueIn_flipConstraints proper).mp fun constraint inside => ?_⟩
    · have listed : v ∈ values.map Prod.fst := List.mem_map_of_mem ((mem_flipped v).mp member)
      rw [firsts, SortedSet.mem_toList] at listed
      obtain ⟨constraint, there, l, found, rfl⟩ := Clauses.mem_vars.mp listed
      obtain ⟨clause, outer, at_⟩ := Clauses.mem_of_mem_flipConstraints there found
      exact Clauses.var_mem_vars outer at_
    · obtain ⟨clause, there, pair, listed, rfl⟩ := Clauses.mem_flipConstraints.mp inside
      refine holds _ (fun entry member => ?_) _ inside (by simp) (by simp)
      rw [Bool.eq_iff_iff, SortedSet.contains_iff, mem_flipped]
      exact mem_true_iff distinct member

end KnowledgeCompiler
