import Mathlib.Data.Finset.Powerset
import Mathlib.Data.Finset.Prod
import Mathlib.Logic.Function.DependsOn
import KnowledgeCompiler.Proofs.Assignment
import KnowledgeCompiler.Proofs.SortedSet

/-! The number of assignments of finitely many variables with a property.

An assignment of a set of variables is given by its true variables. A property that depends on other
variables as well is asked where these are false. Counts multiply over variables that do not meet, and add
up over properties that exclude each other.
-/

namespace KnowledgeCompiler

variable {V W : Finset Var} {P Q : Assignment → Prop}

/-- The assignment under which exactly the members of a set are true. -/
def Assignment.ofSet (trues : Finset Var) : Assignment := fun v => decide (v ∈ trues)

theorem Assignment.ofSet_eq {s t : Finset Var} {v : Var} (same : v ∈ s ↔ v ∈ t)
    : ofSet s v = ofSet t v := by
  simp only [ofSet, same]

open Classical in
/-- The assignments of the variables with a property, each as the set of its true variables. -/
noncomputable def modelsOver (V : Finset Var) (P : Assignment → Prop) : Finset (Finset Var) :=
  V.powerset.filter fun trues => P (.ofSet trues)

theorem mem_modelsOver {trues : Finset Var} : trues ∈ modelsOver V P ↔ trues ⊆ V ∧ P (.ofSet trues) := by
  classical
  rw [modelsOver, Finset.mem_filter, Finset.mem_powerset]

/-- The number of assignments of the variables with a property. -/
noncomputable def countOver (V : Finset Var) (P : Assignment → Prop) : Nat := (modelsOver V P).card

theorem countOver_congr (same : ∀ σ, P σ ↔ Q σ) : countOver V P = countOver V Q := by
  have equal : P = Q := funext fun σ => propext (same σ)
  rw [equal]

theorem countOver_false (never : ∀ σ, ¬ P σ) : countOver V P = 0 := by
  simp [countOver, modelsOver, never]

theorem countOver_true (always : ∀ σ, P σ) : countOver V P = 2 ^ V.card := by
  simp [countOver, modelsOver, always]

/-- Without variables there is one assignment. -/
theorem countOver_empty (holds : ∀ σ, P σ) : countOver ∅ P = 1 := by
  rw [countOver_true holds, Finset.card_empty, pow_zero]

/-- Properties that exclude each other add up. -/
theorem countOver_or (exclusive : ∀ σ, P σ → ¬ Q σ)
    : countOver V (fun σ => P σ ∨ Q σ) = countOver V P + countOver V Q := by
  unfold countOver
  rw [← Finset.card_union_of_disjoint]
  · congr 1
    ext trues
    simp only [Finset.mem_union, mem_modelsOver, and_or_left]
  · refine Finset.disjoint_left.mpr fun trues left right => ?_
    exact exclusive _ (mem_modelsOver.mp left).2 (mem_modelsOver.mp right).2

/-- Properties of variables that do not meet multiply: an assignment of all of the variables is a pair
of assignments.
-/
theorem countOver_and (apart : Disjoint V W) (left : DependsOn P V) (right : DependsOn Q W)
    : countOver (V ∪ W) (fun σ => P σ ∧ Q σ) = countOver V P * countOver W Q := by
  have split {a b : Finset Var} (aV : a ⊆ V) (bW : b ⊆ W)
      : (a ∪ b) ∩ V = a ∧ (a ∪ b) ∩ W = b := by
    have outside : ∀ v, v ∈ V → ¬ v ∈ W := fun v inside => Finset.disjoint_left.mp apart inside
    constructor <;> ext v <;> grind
  have restrict {s U : Finset Var}
      : ∀ v ∈ (U : Set Var), Assignment.ofSet s v = Assignment.ofSet (s ∩ U) v :=
    fun v inside => Assignment.ofSet_eq (by simp [Finset.mem_coe.mp inside])
  unfold countOver
  rw [← Finset.card_product]
  refine Finset.card_nbij' (fun s => (s ∩ V, s ∩ W)) (fun pair => pair.1 ∪ pair.2) ?_ ?_ ?_ ?_
  · intro s member
    obtain ⟨-, leftHolds, rightHolds⟩ := mem_modelsOver.mp member
    refine Finset.mem_product.mpr ⟨mem_modelsOver.mpr ⟨Finset.inter_subset_right, ?_⟩,
      mem_modelsOver.mpr ⟨Finset.inter_subset_right, ?_⟩⟩
    · exact (left restrict).mp leftHolds
    · exact (right restrict).mp rightHolds
  · rintro ⟨a, b⟩ member
    obtain ⟨inV, inW⟩ := Finset.mem_product.mp member
    obtain ⟨aV, leftHolds⟩ := mem_modelsOver.mp inV
    obtain ⟨bW, rightHolds⟩ := mem_modelsOver.mp inW
    obtain ⟨first, second⟩ := split aV bW
    refine mem_modelsOver.mpr ⟨Finset.union_subset_union aV bW, ?_, ?_⟩
    · refine (left restrict).mpr ?_
      rwa [first]
    · refine (right restrict).mpr ?_
      rwa [second]
  · intro s member
    have within := (mem_modelsOver.mp member).1
    show s ∩ V ∪ s ∩ W = s
    rw [← Finset.inter_union_distrib_left, Finset.inter_eq_left.mpr within]
  · rintro ⟨a, b⟩ member
    obtain ⟨inV, inW⟩ := Finset.mem_product.mp member
    obtain ⟨first, second⟩ := split (mem_modelsOver.mp inV).1 (mem_modelsOver.mp inW).1
    simp only [first, second]

/-- Variables without influence double the count. -/
theorem countOver_widen (within : V ⊆ W) (depends : DependsOn P V)
    : countOver W P = countOver V P * 2 ^ (W.card - V.card) := by
  have whole : V ∪ (W \ V) = W := Finset.union_sdiff_of_subset within
  calc
    countOver W P
    _ = countOver (V ∪ (W \ V)) fun σ => P σ ∧ True := by
      rw [whole]
      exact countOver_congr fun σ => (and_iff_left trivial).symm
    _ = countOver V P * countOver (W \ V) fun _ => True :=
      countOver_and Finset.disjoint_sdiff depends fun _ _ _ => rfl
    _ = countOver V P * 2 ^ (W.card - V.card) := by
      rw [countOver_true fun _ => trivial, Finset.card_sdiff_of_subset within]

/-- One assignment has the values of a given one. -/
theorem countOver_fixed (τ : Assignment) : countOver V (fun σ => ∀ v ∈ V, σ v = τ v) = 1 := by
  refine Finset.card_eq_one.mpr ⟨V.filter fun v => τ v = true, ?_⟩
  ext s
  rw [mem_modelsOver, Finset.mem_singleton]
  constructor
  · rintro ⟨within, values⟩
    ext v
    rw [Finset.mem_filter]
    constructor
    · intro inside
      refine ⟨within inside, ?_⟩
      simpa [Assignment.ofSet, inside] using (values v (within inside)).symm
    · rintro ⟨inside, value⟩
      simpa [Assignment.ofSet, value] using values v inside
  · rintro rfl
    refine ⟨Finset.filter_subset _ _, fun v inside => ?_⟩
    cases value : τ v <;> simp [Assignment.ofSet, inside, value]

/-- One assignment of its variable makes a literal true. -/
theorem countOver_literal (l : Lit) : countOver {l.var} (fun σ => l.TrueIn σ) = 1 := by
  rw [← countOver_fixed (V := {l.var}) fun _ => l.isPositive]
  exact countOver_congr fun σ => by simp [Lit.TrueIn]

/-- Renaming and flipping variables changes no count. -/
theorem countOver_image {names : Var → Var} {flips : Var → Bool} (injective : Set.InjOn names V)
    (same : ∀ σ τ : Assignment, (∀ v ∈ V, τ v = (σ (names v) ^^ flips v)) → (P σ ↔ Q τ))
    : countOver (V.image names) P = countOver V Q := by
  have there {s : Finset Var} {v : Var} (inside : v ∈ V)
      : v ∈ V.filter (fun v => (decide (names v ∈ s) ^^ flips v) = true)
        ↔ (decide (names v ∈ s) ^^ flips v) = true := by
    rw [Finset.mem_filter, and_iff_right inside]
  have back {t : Finset Var} {v : Var} (inside : v ∈ V)
      : names v ∈ (V.filter fun v => (decide (v ∈ t) ^^ flips v) = true).image names
        ↔ (decide (v ∈ t) ^^ flips v) = true := by
    rw [Finset.mem_image]
    constructor
    · rintro ⟨u, found, equal⟩
      obtain ⟨inside', value⟩ := Finset.mem_filter.mp found
      rwa [injective inside' inside equal] at value
    · exact fun value => ⟨v, Finset.mem_filter.mpr ⟨inside, value⟩, rfl⟩
  refine Finset.card_nbij' (fun s => V.filter fun v => (decide (names v ∈ s) ^^ flips v) = true)
    (fun t => (V.filter fun v => (decide (v ∈ t) ^^ flips v) = true).image names) ?_ ?_ ?_ ?_
  · intro s member
    refine mem_modelsOver.mpr ⟨Finset.filter_subset _ _, ?_⟩
    refine (same _ _ fun v inside => ?_).mp (mem_modelsOver.mp member).2
    simp only [Assignment.ofSet, there inside, Bool.decide_eq_true]
  · intro t member
    refine mem_modelsOver.mpr ⟨Finset.image_subset_image (Finset.filter_subset _ _), ?_⟩
    refine (same _ _ fun v inside => ?_).mpr (mem_modelsOver.mp member).2
    simp only [Assignment.ofSet, back inside]
    cases decide (v ∈ t) <;> cases flips v <;> rfl
  · intro s member
    have within := (mem_modelsOver.mp member).1
    ext w
    constructor
    · intro found
      obtain ⟨v, inside, rfl⟩ := Finset.mem_image.mp found
      have value := (back (Finset.mem_filter.mp inside).1).mp found
      simpa only [there (Finset.mem_filter.mp inside).1, Bool.decide_eq_true, Bool.xor_assoc,
        Bool.xor_self, Bool.xor_false, decide_eq_true_eq] using value
    · intro inside
      obtain ⟨v, member, rfl⟩ := Finset.mem_image.mp (within inside)
      refine (back member).mpr ?_
      simpa only [there member, Bool.decide_eq_true, Bool.xor_assoc, Bool.xor_self, Bool.xor_false,
        decide_eq_true_eq] using inside
  · intro t member
    have within := (mem_modelsOver.mp member).1
    ext v
    by_cases inside : v ∈ V
    · rw [there inside]
      simp only [back inside, Bool.decide_eq_true, Bool.xor_assoc, Bool.xor_self, Bool.xor_false,
        decide_eq_true_eq]
    · exact iff_of_false (fun found => inside (Finset.mem_filter.mp found).1)
        fun found => inside (within found)

-----------------------------------------------------------------------------------------
-- Lists of properties
-----------------------------------------------------------------------------------------

section Lists

variable {ι : Type} {items : List ι} {scope : ι → Finset Var} {holds : ι → Assignment → Prop}

/-- A conjunction of properties depends on the variables of all of them. -/
theorem dependsOn_forall (depends : ∀ i ∈ items, DependsOn (holds i) (scope i))
    (within : ∀ i ∈ items, scope i ⊆ V)
    : DependsOn (fun σ => ∀ i ∈ items, holds i σ) V := by
  intro σ τ agree
  refine propext (forall₂_congr fun i member => ?_)
  exact (depends i member fun v inside => agree v (within i member inside)).to_iff

/-- Assignments of variables that do not meet are parts of one assignment; induction on the parts. -/
theorem exists_merged (apart : items.Pairwise fun i j => Disjoint (scope i) (scope j))
    (part : ι → Assignment)
    : ∃ σ : Assignment, ∀ i ∈ items, ∀ v ∈ scope i, σ v = part i v := by
  induction items with
  | nil => exact ⟨fun _ => false, by simp⟩
  | cons i rest ih =>
      obtain ⟨here, later⟩ := List.pairwise_cons.mp apart
      obtain ⟨τ, parts⟩ := ih later
      refine ⟨fun v => if v ∈ scope i then part i v else τ v, List.forall_mem_cons.mpr ⟨?_, ?_⟩⟩
      · exact fun v inside => if_pos inside
      · intro j member v inside
        exact (if_neg (Finset.disjoint_right.mp (here j member) inside)).trans (parts j member v inside)

/-- The variables of a list of parts are those of the first part and those of the others. -/
theorem exists_split {i : ι} {rest : List ι}
    (apart : (i :: rest).Pairwise fun i j => Disjoint (scope i) (scope j))
    (whole : ∀ v, v ∈ V ↔ ∃ j ∈ i :: rest, v ∈ scope j)
    : ∃ W, V = scope i ∪ W ∧ Disjoint (scope i) W ∧ ∀ v, v ∈ W ↔ ∃ j ∈ rest, v ∈ scope j := by
  classical
  have inside : ∀ v, v ∈ (V.filter fun v => ∃ j ∈ rest, v ∈ scope j) ↔ ∃ j ∈ rest, v ∈ scope j := by
    intro v
    rw [Finset.mem_filter, whole]
    exact and_iff_right_of_imp fun ⟨j, member, found⟩ => ⟨j, List.mem_cons_of_mem i member, found⟩
  refine ⟨V.filter fun v => ∃ j ∈ rest, v ∈ scope j, ?_, ?_, inside⟩
  · ext v
    simp only [whole, Finset.mem_union, inside, List.mem_cons, exists_eq_or_imp]
  · refine Finset.disjoint_left.mpr fun v left right => ?_
    obtain ⟨j, member, found⟩ := (inside v).mp right
    exact Finset.disjoint_left.mp ((List.pairwise_cons.mp apart).1 j member) left found

theorem eq_empty_of_nil (whole : ∀ v, v ∈ V ↔ ∃ j ∈ ([] : List ι), v ∈ scope j) : V = ∅ :=
  Finset.eq_empty_of_forall_notMem fun v inside => by simpa using (whole v).mp inside

/-- Numbers of variables add up over parts that do not meet; induction on the parts. -/
theorem card_filter_scopes {chosen : Var → Prop} [DecidablePred chosen]
    (apart : items.Pairwise fun i j => Disjoint (scope i) (scope j))
    (whole : ∀ v, v ∈ V ↔ ∃ i ∈ items, v ∈ scope i)
    : (V.filter chosen).card = (items.map fun i => ((scope i).filter chosen).card).sum := by
  induction items generalizing V with
  | nil =>
      rw [eq_empty_of_nil whole]
      rfl
  | cons i rest ih =>
      obtain ⟨W, union, disjoint, inside⟩ := exists_split apart whole
      rw [union, Finset.filter_union, Finset.card_union_of_disjoint (Finset.disjoint_filter_filter disjoint),
        ih (List.pairwise_cons.mp apart).2 inside, List.map_cons, List.sum_cons]

/-- Properties whose variables do not meet multiply; induction on the properties. -/
theorem countOver_forall (apart : items.Pairwise fun i j => Disjoint (scope i) (scope j))
    (depends : ∀ i ∈ items, DependsOn (holds i) (scope i))
    (whole : ∀ v, v ∈ V ↔ ∃ i ∈ items, v ∈ scope i)
    : countOver V (fun σ => ∀ i ∈ items, holds i σ)
      = (items.map fun i => countOver (scope i) (holds i)).prod := by
  induction items generalizing V with
  | nil =>
      rw [eq_empty_of_nil whole, countOver_true (by simp)]
      rfl
  | cons i rest ih =>
      obtain ⟨W, union, disjoint, inside⟩ := exists_split apart whole
      obtain ⟨first, others⟩ := List.forall_mem_cons.mp depends
      calc
        countOver V (fun σ => ∀ j ∈ i :: rest, holds j σ)
        _ = countOver (scope i ∪ W) (fun σ => holds i σ ∧ ∀ j ∈ rest, holds j σ) := by
          rw [union]
          exact countOver_congr fun σ => List.forall_mem_cons
        _ = countOver (scope i) (holds i) * countOver W fun σ => ∀ j ∈ rest, holds j σ := by
          refine countOver_and disjoint first (dependsOn_forall others fun j member v found => ?_)
          exact (inside v).mpr ⟨j, member, found⟩
        _ = ((i :: rest).map fun i => countOver (scope i) (holds i)).prod := by
          rw [ih (List.pairwise_cons.mp apart).2 others inside, List.map_cons, List.prod_cons]

/-- Properties that exclude each other add up; induction on the properties. -/
theorem countOver_exists (exclusive : items.Pairwise fun i j => ∀ σ, holds i σ → ¬ holds j σ)
    : countOver V (fun σ => ∃ i ∈ items, holds i σ)
      = (items.map fun i => countOver V (holds i)).sum := by
  induction items with
  | nil => exact countOver_false (by simp)
  | cons i rest ih =>
      obtain ⟨here, later⟩ := List.pairwise_cons.mp exclusive
      calc
        countOver V (fun σ => ∃ j ∈ i :: rest, holds j σ)
        _ = countOver V (fun σ => holds i σ ∨ ∃ j ∈ rest, holds j σ) :=
          countOver_congr fun σ => by simp only [List.mem_cons, exists_eq_or_imp]
        _ = countOver V (holds i) + countOver V fun σ => ∃ j ∈ rest, holds j σ := by
          refine countOver_or fun σ first ⟨j, member, second⟩ => ?_
          exact here j member σ first second
        _ = ((i :: rest).map fun i => countOver V (holds i)).sum := by
          rw [ih later, List.map_cons, List.sum_cons]

end Lists

end KnowledgeCompiler
