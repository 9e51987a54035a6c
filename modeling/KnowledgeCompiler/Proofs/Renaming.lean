import Mathlib.Data.Finset.Dedup
import KnowledgeCompiler.Renaming
import KnowledgeCompiler.Proofs.Assignment
import KnowledgeCompiler.Proofs.Checked

/-! Renamings, known by what they find.

An assignment is seen through a renaming by giving each variable the value of its image. Renaming the
literals of a clause and seeing the assignment through the renaming come to the same.
-/

namespace KnowledgeCompiler

-----------------------------------------------------------------------------------------
-- Images of variables
-----------------------------------------------------------------------------------------

/-- What is found after an insertion; induction on the entries. -/
theorem lookup_insertEntry (v image u : Var) (entries : List (Var × Var))
    : (insertEntry v image entries).lookup u = if u = v then some image else entries.lookup u := by
  induction entries with
  | nil => by_cases same : u = v <;> simp [insertEntry, same]
  | cons entry rest ih =>
      obtain ⟨key, value⟩ := entry
      unfold insertEntry
      split
      · by_cases same : u = v
        · simp [same]
        · simp [List.lookup_cons, same, beq_false_of_ne same]
      · split
        · rename_i equal
          by_cases same : u = v
          · simp [same]
          · have other : u ≠ key := fun key => same (key.trans equal.symm)
            simp [List.lookup_cons, same, beq_false_of_ne same, beq_false_of_ne other]
        · by_cases first : u = key
          · have other : key ≠ v := by grind
            simp [first, other]
          · simp [List.lookup_cons, beq_false_of_ne first, ih]

namespace Renaming

variable {r s : Renaming} {u v w : Var}

@[simp]
theorem find?_empty : Renaming.empty.find? v = none := rfl

theorem find?_insert (r : Renaming) (v image u : Var)
    : (r.insert v image).find? u = if u = v then some image else r.find? u :=
  lookup_insertEntry v image u r.entries

theorem mem_entries : (v, w) ∈ r.entries ↔ r.find? v = some w := by
  obtain ⟨entries, ascending⟩ := r
  simp only [find?]
  induction entries with
  | nil => simp
  | cons entry rest ih =>
      obtain ⟨key, value⟩ := entry
      obtain ⟨below, tail⟩ := List.pairwise_cons.mp ascending
      by_cases same : v = key
      · have absent : (v, w) ∉ rest := fun member => by
          have := below _ member
          grind
        simp [same, same ▸ absent, eq_comm]
      · simp [List.lookup_cons, same, beq_false_of_ne same, ih tail]

/-- The renaming of pairs with distinct sources finds what they list. -/
theorem find?_ofList {pairs : List (Var × Var)} (distinct : (pairs.map Prod.fst).Nodup)
    : (ofList pairs).find? v = some w ↔ (v, w) ∈ pairs := by
  suffices general : ∀ r : Renaming, (∀ pair ∈ pairs, r.find? pair.1 = none)
      → ((pairs.foldl (fun r pair => r.insert pair.1 pair.2) r).find? v = some w
        ↔ r.find? v = some w ∨ (v, w) ∈ pairs) by
    have found := general .empty (by simp)
    simpa [ofList] using found
  induction pairs with
  | nil => simp
  | cons pair rest ih =>
      intro r fresh
      obtain ⟨key, value⟩ := pair
      obtain ⟨absent, distinctRest⟩ := List.nodup_cons.mp distinct
      obtain ⟨freshFirst, freshRest⟩ := List.forall_mem_cons.mp fresh
      have freshGrown : ∀ pair ∈ rest, (r.insert key value).find? pair.1 = none := by
        intro pair member
        have other : pair.1 ≠ key := fun same =>
          absent (List.mem_map.mpr ⟨pair, member, same⟩)
        rw [find?_insert, if_neg other, freshRest pair member]
      rw [List.foldl_cons, ih distinctRest _ freshGrown, find?_insert]
      by_cases same : v = key
      · have missing : (key, w) ∉ rest := fun member => absent (List.mem_map.mpr ⟨_, member, rfl⟩)
        have unknown : r.find? key ≠ some w := by simp [freshFirst]
        simp [same, missing, unknown, eq_comm]
      · simp [same]

theorem distinct_sources (r : Renaming) : (r.entries.map Prod.fst).Nodup := by
  refine List.pairwise_map.mpr (r.ascending.imp (fun below equal => ?_))
  exact Nat.lt_irrefl _ (equal ▸ below)

/-- Two renamings in sequence. -/
theorem find?_andThen (r s : Renaming) (v : Var)
    : (r.andThen s).find? v = (r.find? v).bind s.find? := by
  have distinct : ((r.entries.filterMap fun entry =>
      (s.find? entry.2).map fun image => (entry.1, image)).map Prod.fst).Nodup := by
    have sub : ((r.entries.filterMap fun entry =>
        (s.find? entry.2).map fun image => (entry.1, image)).map Prod.fst).Sublist
          (r.entries.map Prod.fst) := by
      induction r.entries with
      | nil => simp
      | cons entry rest ih =>
          cases found : s.find? entry.2 with
          | none => simpa [found] using ih.cons entry.1
          | some image => simpa [found] using ih
    exact r.distinct_sources.sublist sub
  refine Option.ext (fun w => ?_)
  rw [andThen, find?_ofList distinct, List.mem_filterMap, Option.bind_eq_some_iff]
  constructor
  · intro found
    obtain ⟨⟨source, middle⟩, member, mapped⟩ := found
    obtain ⟨image, second, equal⟩ := Option.map_eq_some_iff.mp mapped
    obtain ⟨rfl, rfl⟩ := Prod.mk.inj equal
    exact ⟨middle, mem_entries.mp member, second⟩
  · intro found
    obtain ⟨middle, first, second⟩ := found
    exact ⟨(v, middle), mem_entries.mpr first, by simp [second]⟩

/-- No two variables have the same image. -/
def Injective (r : Renaming) : Prop :=
  ∀ {u v w}, r.find? u = some w → r.find? v = some w → u = v

theorem Injective.distinct_images (injective : r.Injective) : (r.entries.map Prod.snd).Nodup := by
  refine List.Nodup.map_on (fun a left b right same => ?_)
    (List.Nodup.of_map _ r.distinct_sources)
  have first := mem_entries.mp left
  have second := mem_entries.mp right
  rw [same] at first
  exact Prod.ext (injective first second) same

/-- Of a renaming without two sources of one image the inverse finds the sources. -/
theorem Injective.find?_inverse (injective : r.Injective)
    : r.inverse.find? w = some v ↔ r.find? v = some w := by
  have distinct : ((r.entries.map fun entry => (entry.2, entry.1)).map Prod.fst).Nodup := by
    simpa [Function.comp_def] using injective.distinct_images
  rw [inverse, find?_ofList distinct, ← mem_entries]
  constructor
  · intro found
    obtain ⟨entry, member, equal⟩ := List.mem_map.mp found
    obtain ⟨rfl, rfl⟩ := Prod.mk.inj equal
    exact member
  · intro member
    exact List.mem_map.mpr ⟨(v, w), member, rfl⟩

/-- The sources of a renaming of pairs; induction on the pairs. -/
theorem mem_sources_ofList {pairs : List (Var × Var)}
    : v ∈ (ofList pairs).entries.map Prod.fst ↔ v ∈ pairs.map Prod.fst := by
  have inserted : ∀ (r : Renaming) (key image : Var),
      v ∈ (r.insert key image).entries.map Prod.fst ↔ v = key ∨ v ∈ r.entries.map Prod.fst := by
    intro r key image
    have known : ∀ t : Renaming, v ∈ t.entries.map Prod.fst ↔ ∃ w, t.find? v = some w := by
      intro t
      simp only [List.mem_map, ← mem_entries, Prod.exists, exists_and_right, exists_eq_right]
    rw [known, known]
    simp only [find?_insert]
    by_cases same : v = key <;> simp [same]
  suffices general : ∀ r : Renaming,
      v ∈ (pairs.foldl (fun r pair => r.insert pair.1 pair.2) r).entries.map Prod.fst
        ↔ v ∈ r.entries.map Prod.fst ∨ v ∈ pairs.map Prod.fst by
    have found := general .empty
    simpa [ofList, Renaming.empty] using found
  induction pairs with
  | nil => simp
  | cons pair rest ih =>
      intro r
      rw [List.foldl_cons, ih, inserted, List.map_cons, List.mem_cons]
      grind

/-- The inverse lists each image once. -/
theorem size_inverse (r : Renaming) : r.inverse.size = (r.entries.map Prod.snd).toFinset.card := by
  have same : (r.inverse.entries.map Prod.fst).toFinset = (r.entries.map Prod.snd).toFinset := by
    refine Finset.ext (fun v => ?_)
    rw [List.mem_toFinset, List.mem_toFinset, inverse, mem_sources_ofList, List.map_map]
    rfl
  rw [← same, List.toFinset_card_of_nodup r.inverse.distinct_sources, List.length_map]
  rfl

/-- Turning a renaming around loses nothing exactly if no two variables have the same image. -/
theorem size_inverse_eq_iff : r.inverse.size = r.size ↔ r.Injective := by
  rw [size_inverse]
  constructor
  · intro full u v w first second
    have listed : (r.entries.map Prod.snd).toFinset.card = (r.entries.map Prod.snd).length := by
      simpa [size] using full
    have distinct : (r.entries.map Prod.snd).Nodup := by
      rw [List.card_toFinset] at listed
      rw [← List.dedup_eq_self]
      exact (List.dedup_sublist _).eq_of_length listed
    have equal := List.inj_on_of_nodup_map distinct (mem_entries.mpr first) (mem_entries.mpr second) rfl
    exact congrArg Prod.fst equal
  · intro injective
    rw [List.toFinset_card_of_nodup injective.distinct_images, List.length_map]
    rfl

/-- A renaming without two sources of one image is a bijection. -/
theorem Injective.ofRenaming? (injective : r.Injective)
    : ∃ b, Bijection.ofRenaming? r = some b ∧ b.toGlobal = r := by
  refine ⟨_, dif_pos (size_inverse_eq_iff.mpr injective), rfl⟩

theorem isIdentity_iff : r.isIdentity = true ↔ ∀ {v w}, r.find? v = some w → v = w := by
  simp only [isIdentity, List.all_eq_true, beq_iff_eq, Prod.forall, mem_entries]

end Renaming

theorem Bijection.toGlobal_injective (b : Bijection) : b.toGlobal.Injective :=
  Renaming.size_inverse_eq_iff.mp b.injective

/-- The two directions of a bijection say the same. -/
theorem Bijection.toLocal_iff (b : Bijection) {v w : Var}
    : b.toLocal.find? w = some v ↔ b.toGlobal.find? v = some w := by
  rw [b.toLocal_eq]
  exact Renaming.Injective.find?_inverse b.toGlobal_injective

theorem Bijection.toLocal_injective (b : Bijection) : b.toLocal.Injective := by
  intro u v w left right
  rw [b.toLocal_iff] at left right
  exact Option.some.inj (left.symm.trans right)

-----------------------------------------------------------------------------------------
-- Images of literals
-----------------------------------------------------------------------------------------

/-- The literal of a variable with a polarity. -/
def Lit.signed (v : Var) (polarity : Bool) : Lit := if polarity then (v : Int) else -(v : Int)

namespace Lit

variable {v : Var}

@[simp]
theorem var_signed (v : Var) (polarity : Bool) : var (signed v polarity) = v := by
  cases polarity <;> simp [signed, var]

theorem isPositive_signed (positive : 0 < v) (polarity : Bool)
    : isPositive (signed v polarity) = polarity := by
  cases polarity <;> simp [signed, isPositive, positive]

theorem trueIn_signed {σ : Assignment} (positive : 0 < v) (polarity : Bool)
    : TrueIn σ (signed v polarity) ↔ σ v = polarity := by
  rw [TrueIn, var_signed, isPositive_signed positive]

theorem signed_not (v : Var) (polarity : Bool) : signed v (!polarity) = -signed v polarity := by
  cases polarity <;> simp [signed]

theorem signed_var {l : Lit} (nonzero : l ≠ 0) : signed l.var l.isPositive = l :=
  eq_of_var_eq (var_signed _ _) (isPositive_signed (Int.natAbs_pos.mpr nonzero) _)

theorem proper_signed (positive : 0 < v) (small : v < 2147483648) (polarity : Bool)
    : Proper (signed v polarity) := by
  refine ⟨?_, by simpa using small⟩
  intro zero
  have vanished : var (signed v polarity) = 0 := by simp [zero, var]
  rw [var_signed] at vanished
  exact Nat.ne_of_gt positive vanished

theorem ofVar_eq (small : v < 2147483648) (polarity : Bool)
    : ofVar v polarity = .ok (signed v polarity) := by
  unfold ofVar
  rw [word_eq_self small]
  cases polarity with
  | true => rfl
  | false =>
      have above : least < (v : Int) := by
        simp only [least]
        grind
      exact negate_eq_ok above

end Lit

namespace Renaming

variable {r s : Renaming} {σ : Assignment} {l : Lit} {clause : Clause}

/-- An assignment seen through a renaming: a variable has the value of its image, and is false if it
has none.
-/
def pull (r : Renaming) (σ : Assignment) : Assignment := fun v => (r.find? v).elim false σ

theorem pull_of_find? {v w : Var} (found : r.find? v = some w) : r.pull σ v = σ w := by
  simp [pull, found]

/-- To see an assignment through two renamings is to see it through their sequence. -/
theorem pull_andThen (r s : Renaming) (σ : Assignment) : (r.andThen s).pull σ = r.pull (s.pull σ) := by
  funext v
  simp only [pull, find?_andThen]
  cases r.find? v <;> rfl

/-- All images are positive and below half the range of words. -/
def Bounded (r : Renaming) : Prop := ∀ {v w}, r.find? v = some w → 0 < w ∧ w < 2147483648

theorem bounded_iff : r.Bounded ↔ ∀ entry ∈ r.entries, 0 < entry.2 ∧ entry.2 < 2147483648 :=
  ⟨fun bounded _ member => bounded (mem_entries.mp member),
    fun each {_ _} found => each _ (mem_entries.mpr found)⟩

instance (r : Renaming) : Decidable r.Bounded := decidable_of_iff _ bounded_iff.symm

/-- The image of a literal. -/
def image (r : Renaming) (l : Lit) : Option Lit := (r.find? l.var).map (Lit.signed · l.isPositive)

theorem image_eq_some {k : Lit} (bounded : r.Bounded) (found : r.image l = some k)
    : r.find? l.var = some k.var ∧ k.isPositive = l.isPositive ∧ k.Proper
      ∧ (Lit.TrueIn σ k ↔ Lit.TrueIn (r.pull σ) l) := by
  obtain ⟨w, same, rfl⟩ := Option.map_eq_some_iff.mp found
  obtain ⟨positive, small⟩ := bounded same
  refine ⟨by simpa using same, Lit.isPositive_signed positive _,
    Lit.proper_signed positive small _, ?_⟩
  rw [Lit.trueIn_signed positive, Lit.TrueIn, pull_of_find? same]

theorem image_neg {k : Lit} (nonzero : l ≠ 0) (found : r.image l = some k)
    : r.image (-l) = some (-k) := by
  obtain ⟨w, same, rfl⟩ := Option.map_eq_some_iff.mp found
  rw [image, Lit.var_neg, Lit.isPositive_neg nonzero, same, Option.map_some, Lit.signed_not]

theorem literal?_ok (bounded : r.Bounded) (l : Lit) : r.literal? l = .ok (r.image l) := by
  unfold literal? image
  cases found : r.find? l.var with
  | none => rfl
  | some w =>
      dsimp only
      rw [Lit.ofVar_eq (bounded found).2]
      rfl

theorem literals_ok (bounded : r.Bounded) (ls : List Lit)
    : r.literals ls = .ok (ls.filterMap r.image) := by
  rw [literals, Checked.mapM_ok fun l _ => literal?_ok bounded l]
  simp [bind, Except.bind, pure, Except.pure, List.filterMap_map]

/-- Every literal of a clause has an image. -/
def Covers (r : Renaming) (clause : Clause) : Prop := ∀ l ∈ clause, (r.find? l.var).isSome = true

/-- The image of a covered clause exists; induction on the clause. -/
theorem clause?_ok (bounded : r.Bounded) (covers : r.Covers clause)
    : r.clause? clause = .ok (some (clause.filterMap r.image)) := by
  induction clause with
  | nil => rfl
  | cons l rest ih =>
      obtain ⟨first, later⟩ := List.forall_mem_cons.mp covers
      obtain ⟨w, found⟩ := Option.isSome_iff_exists.mp first
      have image : r.image l = some (Lit.signed w l.isPositive) := by simp [Renaming.image, found]
      rw [clause?, literal?_ok bounded, image, ih later, List.filterMap_cons_some image]
      rfl

/-- The image of covered clauses exists; induction on the clauses. -/
theorem clauses?_ok (bounded : r.Bounded) {clauses : Clauses}
    (covers : ∀ clause ∈ clauses, r.Covers clause)
    : r.clauses? clauses = .ok (some (clauses.map (List.filterMap r.image))) := by
  induction clauses with
  | nil => rfl
  | cons clause rest ih =>
      obtain ⟨first, later⟩ := List.forall_mem_cons.mp covers
      rw [clauses?, clause?_ok bounded first, ih later]
      rfl

theorem mem_filterMap_image (covers : r.Covers clause) (member : l ∈ clause)
    : ∃ k ∈ clause.filterMap r.image, r.image l = some k := by
  obtain ⟨w, found⟩ := Option.isSome_iff_exists.mp (covers l member)
  have image : r.image l = some (Lit.signed w l.isPositive) := by simp [Renaming.image, found]
  exact ⟨_, List.mem_filterMap.mpr ⟨l, member, image⟩, image⟩

/-- A renamed clause is true if the clause is true under the assignment seen through the renaming. -/
theorem trueIn_filterMap_image (bounded : r.Bounded) (covers : r.Covers clause)
    : Clause.TrueIn σ (clause.filterMap r.image) ↔ Clause.TrueIn (r.pull σ) clause := by
  constructor
  · intro holds
    obtain ⟨k, member, true_⟩ := holds
    obtain ⟨l, inside, image⟩ := List.mem_filterMap.mp member
    exact ⟨l, inside, (image_eq_some bounded image).2.2.2.mp true_⟩
  · intro holds
    obtain ⟨l, inside, true_⟩ := holds
    obtain ⟨k, member, image⟩ := mem_filterMap_image covers inside
    exact ⟨k, member, (image_eq_some bounded image).2.2.2.mpr true_⟩

/-- Renaming without two sources of one image keeps a clause tidy. -/
theorem tidy_filterMap_image (bounded : r.Bounded) (injective : r.Injective)
    (tidy : clause.Tidy)
    : Clause.Tidy (clause.filterMap r.image) where
  proper k member := by
    obtain ⟨l, _, image⟩ := List.mem_filterMap.mp member
    exact (@image_eq_some r (fun _ => false) l k bounded image).2.2.1
  distinct := by
    rw [List.map_filterMap]
    have vars : (fun l => Option.map Lit.var (r.image l)) = r.find? ∘ Lit.var := by
      funext l
      simp only [image, Option.map_map, Function.comp_apply]
      cases r.find? l.var <;> simp
    rw [vars, ← List.filterMap_map]
    refine List.Nodup.filterMap (fun u v w first second => ?_) tidy.distinct
    exact injective first second

section Clauses

variable {clauses : Clauses}

theorem covers_of_vars (covered : ∀ v, v ∈ clauses.vars → (r.find? v).isSome = true)
    : ∀ clause ∈ clauses, r.Covers clause := fun _ inside _ member =>
  covered _ (Clauses.var_mem_vars inside member)

theorem trueIn_map_image (bounded : r.Bounded) (covers : ∀ clause ∈ clauses, r.Covers clause)
    : Clauses.TrueIn σ (clauses.map (List.filterMap r.image)) ↔ Clauses.TrueIn (r.pull σ) clauses := by
  simp only [Clauses.TrueIn, List.forall_mem_map]
  exact forall_congr' fun clause => forall_congr' fun inside =>
    trueIn_filterMap_image bounded (covers clause inside)

theorem tidy_map_image (bounded : r.Bounded) (injective : r.Injective) (tidy : clauses.Tidy)
    : Clauses.Tidy (clauses.map (List.filterMap r.image)) := by
  intro clause inside
  obtain ⟨source, member, rfl⟩ := List.mem_map.mp inside
  exact tidy_filterMap_image bounded injective (tidy source member)

theorem mem_vars_map_image {w : Var}
    : w ∈ Clauses.vars (clauses.map (List.filterMap r.image))
      ↔ ∃ v ∈ clauses.vars, r.find? v = some w := by
  simp only [Clauses.mem_vars, List.mem_map, exists_exists_and_eq_and, List.mem_filterMap, image,
    Option.map_eq_some_iff]
  constructor
  · intro found
    obtain ⟨clause, inside, k, ⟨l, member, w', same, rfl⟩, rfl⟩ := found
    exact ⟨l.var, ⟨clause, inside, l, member, rfl⟩, by rwa [Lit.var_signed]⟩
  · intro found
    obtain ⟨v, ⟨clause, inside, l, member, rfl⟩, same⟩ := found
    exact ⟨clause, inside, _, ⟨l, member, w, same, rfl⟩, Lit.var_signed _ _⟩

end Clauses

-----------------------------------------------------------------------------------------
-- Renamings of some variables
-----------------------------------------------------------------------------------------

/-- The renaming of the variables in a set. -/
def only (r : Renaming) (vars : SortedSet Var) : Renaming :=
  ⟨r.entries.filter fun entry => vars.contains entry.1, r.ascending.filter _⟩

theorem find?_only {vars : SortedSet Var} {v w : Var}
    : (r.only vars).find? v = some w ↔ v ∈ vars ∧ r.find? v = some w := by
  rw [← mem_entries, ← mem_entries, only, List.mem_filter, SortedSet.contains_iff, and_comm]

/-- A renaming gives some variables images in range, and no two of them the same one. -/
structure Fits (r : Renaming) (vars : SortedSet Var) : Prop where
  covered : ∀ v, v ∈ vars → (r.find? v).isSome = true
  injective : ∀ {u v w}, u ∈ vars → v ∈ vars → r.find? u = some w → r.find? v = some w → u = v
  bounded : ∀ {v w}, v ∈ vars → r.find? v = some w → 0 < w ∧ w < 2147483648

section Congruence

variable {clauses : Clauses}

/-- What becomes of a clause depends on the images of its variables; induction on the clause. -/
theorem clause?_congr (agree : ∀ l ∈ clause, r.find? l.var = s.find? l.var) : r.clause? clause = s.clause? clause := by
  induction clause with
  | nil => rfl
  | cons l rest ih =>
      obtain ⟨first, later⟩ := List.forall_mem_cons.mp agree
      rw [clause?, clause?, literal?, literal?, first, ih later]

theorem filterMap_image_congr (agree : ∀ l ∈ clause, r.find? l.var = s.find? l.var)
    : clause.filterMap r.image = clause.filterMap s.image :=
  List.filterMap_congr fun l member => by rw [image, image, agree l member]

/-- What becomes of clauses depends on the images of their variables; induction on the clauses. -/
theorem clauses?_congr (agree : ∀ clause ∈ clauses, ∀ l ∈ clause, r.find? l.var = s.find? l.var)
    : r.clauses? clauses = s.clauses? clauses := by
  induction clauses with
  | nil => rfl
  | cons clause rest ih =>
      obtain ⟨first, later⟩ := List.forall_mem_cons.mp agree
      rw [clauses?, clauses?, clause?_congr first, ih later]

theorem map_image_congr (agree : ∀ clause ∈ clauses, ∀ l ∈ clause, r.find? l.var = s.find? l.var)
    : clauses.map (List.filterMap r.image) = clauses.map (List.filterMap s.image) :=
  List.map_congr_left fun clause inside => filterMap_image_congr (agree clause inside)

end Congruence

namespace Fits

variable {vars fewer : SortedSet Var} {clauses : Clauses}

theorem mono (fits : r.Fits vars) (subset : ∀ v, v ∈ fewer → v ∈ vars) : r.Fits fewer where
  covered v inside := fits.covered v (subset v inside)
  injective left right := fits.injective (subset _ left) (subset _ right)
  bounded inside := fits.bounded (subset _ inside)

/-- First one renaming without two sources of one image, and then another one of what comes of it. -/
theorem andThen {inner : Renaming} (fits : r.Fits vars) (injective : inner.Injective)
    (covered : ∀ v, v ∈ fewer → ∃ w ∈ vars, inner.find? v = some w)
    : (inner.andThen r).Fits fewer := by
  have step {v w : Var} (inside : v ∈ fewer) (found : (inner.andThen r).find? v = some w)
      : ∃ middle ∈ vars, inner.find? v = some middle ∧ r.find? middle = some w := by
    obtain ⟨middle, there, first⟩ := covered v inside
    rw [find?_andThen, first] at found
    exact ⟨middle, there, first, found⟩
  refine ⟨fun v inside => ?_, fun left right first second => ?_, fun inside found => ?_⟩
  · obtain ⟨middle, there, first⟩ := covered v inside
    rw [find?_andThen, first]
    exact fits.covered middle there
  · obtain ⟨a, there, here, last⟩ := step left first
    obtain ⟨b, there', here', last'⟩ := step right second
    obtain rfl := fits.injective there there' last last'
    exact injective here here'
  · obtain ⟨middle, there, -, last⟩ := step inside found
    exact fits.bounded there last

theorem bounded_only (fits : r.Fits vars) : (r.only vars).Bounded := fun found =>
  fits.bounded (find?_only.mp found).1 (find?_only.mp found).2

theorem injective_only (fits : r.Fits vars) : (r.only vars).Injective := fun first second =>
  fits.injective (find?_only.mp first).1 (find?_only.mp second).1 (find?_only.mp first).2 (find?_only.mp second).2

theorem find?_eq_only {v : Var} (inside : v ∈ vars) : r.find? v = (r.only vars).find? v :=
  Option.ext fun _ => (find?_only.trans (and_iff_right inside)).symm

theorem agree_only (clauses : Clauses)
    : ∀ clause ∈ clauses, ∀ l ∈ clause, r.find? l.var = (r.only clauses.vars).find? l.var :=
  fun _ inside _ member => find?_eq_only (Clauses.var_mem_vars inside member)

theorem covered_only (fits : r.Fits vars) (v : Var) (inside : v ∈ vars) : ((r.only vars).find? v).isSome = true :=
  find?_eq_only inside ▸ fits.covered v inside

theorem trueIn_map_image (fits : r.Fits clauses.vars)
    : Clauses.TrueIn σ (clauses.map (List.filterMap r.image)) ↔ Clauses.TrueIn (r.pull σ) clauses := by
  rw [map_image_congr (agree_only clauses),
    Renaming.trueIn_map_image fits.bounded_only (covers_of_vars fits.covered_only)]
  exact Clauses.trueIn_congr fun v inside => congrArg (·.elim false σ) (find?_eq_only inside).symm

theorem proper_map_image (fits : r.Fits clauses.vars) : Clauses.Proper (clauses.map (List.filterMap r.image)) := by
  rw [map_image_congr (agree_only clauses)]
  intro clause inside k member
  obtain ⟨source, -, rfl⟩ := List.mem_map.mp inside
  obtain ⟨l, -, image⟩ := List.mem_filterMap.mp member
  exact (image_eq_some (σ := fun _ => false) fits.bounded_only image).2.2.1

/-- Any values of the variables are seen through the renaming. -/
theorem exists_pull (fits : r.Fits vars) (τ : Assignment) : ∃ σ, ∀ v, v ∈ vars → r.pull σ v = τ v := by
  refine ⟨(r.only vars).inverse.pull τ, fun v inside => ?_⟩
  obtain ⟨_, found⟩ := Option.isSome_iff_exists.mp (fits.covered v inside)
  rw [pull_of_find? found]
  exact pull_of_find? (Injective.find?_inverse fits.injective_only |>.mpr (find?_only.mpr ⟨inside, found⟩))

/-- Renamed clauses have a model if the clauses have one. -/
theorem exists_model_iff (fits : r.Fits clauses.vars)
    : (∃ σ, Clauses.TrueIn σ (clauses.map (List.filterMap r.image))) ↔ ∃ τ, Clauses.TrueIn τ clauses := by
  constructor
  · rintro ⟨σ, model⟩
    exact ⟨r.pull σ, fits.trueIn_map_image.mp model⟩
  · rintro ⟨τ, model⟩
    obtain ⟨σ, same⟩ := fits.exists_pull τ
    exact ⟨σ, fits.trueIn_map_image.mpr ((Clauses.trueIn_congr same).mpr model)⟩

end Fits

/-- Whether a renaming fits is told by its entries for the variables. -/
theorem fits_iff {vars : SortedSet Var}
    : r.Fits vars
      ↔ (∀ v ∈ vars.toList, (r.find? v).isSome = true)
        ∧ (r.only vars).inverse.size = (r.only vars).size
        ∧ (r.only vars).Bounded := by
  rw [size_inverse_eq_iff]
  constructor
  · intro fits
    exact ⟨fun v inside => fits.covered v (SortedSet.mem_toList.mp inside), fits.injective_only, fits.bounded_only⟩
  · rintro ⟨covered, injective, bounded⟩
    exact ⟨fun v inside => covered v (SortedSet.mem_toList.mpr inside),
      fun left right first second => injective (find?_only.mpr ⟨left, first⟩) (find?_only.mpr ⟨right, second⟩),
      fun inside found => bounded (find?_only.mpr ⟨inside, found⟩)⟩

instance (r : Renaming) (vars : SortedSet Var) : Decidable (r.Fits vars) := decidable_of_iff _ fits_iff.symm

theorem find?_identityOn {vars : SortedSet Var} {v w : Var}
    : (identityOn vars).find? v = some w ↔ v ∈ vars ∧ w = v := by
  have distinct : ((vars.toList.map fun v => (v, v)).map Prod.fst).Nodup := by
    simpa [Function.comp_def] using vars.nodup
  rw [identityOn, find?_ofList distinct]
  simp only [List.mem_map, Prod.mk.injEq, SortedSet.mem_toList]
  grind

theorem fits_identityOn {vars : SortedSet Var} (bounded : ∀ v, v ∈ vars → 0 < v ∧ v < 2147483648)
    : (identityOn vars).Fits vars where
  covered v inside := Option.isSome_iff_exists.mpr ⟨v, find?_identityOn.mpr ⟨inside, rfl⟩⟩
  injective _ _ first second := (find?_identityOn.mp first).2.symm.trans (find?_identityOn.mp second).2
  bounded inside found := (find?_identityOn.mp found).2 ▸ bounded _ inside

/-- Variables that stay have their values. -/
theorem pull_identityOn {vars : SortedSet Var} {v : Var} (inside : v ∈ vars) : (identityOn vars).pull σ v = σ v :=
  pull_of_find? (find?_identityOn.mpr ⟨inside, rfl⟩)

end Renaming

/-- Images of literals that can be assumed can be assumed, if no two variables have one image. -/
theorem Admissible.image {r : Renaming} {literals : List Lit} (admissible : Admissible literals)
    (bounded : r.Bounded) (injective : r.Injective)
    : Admissible (literals.filterMap r.image) where
  proper k member := by
    obtain ⟨l, _, image⟩ := List.mem_filterMap.mp member
    exact (Renaming.image_eq_some (σ := fun _ => false) bounded image).2.2.1
  consistent k member opposite := by
    obtain ⟨l, assumed, image⟩ := List.mem_filterMap.mp member
    obtain ⟨l', assumed', image'⟩ := List.mem_filterMap.mp opposite
    obtain ⟨here, -, proper, -⟩ := Renaming.image_eq_some (σ := fun _ => false) bounded image
    have there := (Renaming.image_eq_some (σ := fun _ => false) bounded image').1
    rw [Lit.var_neg] at there
    rw [admissible.eq_of_var assumed' assumed (injective there here), image] at image'
    exact proper.ne_neg (Option.some.inj image')

end KnowledgeCompiler
