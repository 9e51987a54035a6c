import Mathlib.Data.Multiset.Filter
import Mathlib.Order.Interval.Finset.Nat
import KnowledgeCompiler.ComponentCache
import KnowledgeCompiler.Proofs.Occurrences
import KnowledgeCompiler.Proofs.Renaming
import KnowledgeCompiler.Proofs.Sorting

/-! Formulas with the same key are counterparts of each other.

A key tells the set of clauses, and the literals of a clause with their multiplicity. Where it disregards
names, the numbers of the variables lead from one formula to the common numbering and back into the other
formula, and the one formula is the other one under these names. A cache holds keys with names and keys
without; they never meet, since a key tells the number of its variables.
-/

namespace KnowledgeCompiler

-----------------------------------------------------------------------------------------
-- Sets of clauses
-----------------------------------------------------------------------------------------

namespace Clauses

variable {source target clauses : Clauses}

/-- The clauses as a set, and each of them as a multiset of literals. -/
def multisets (clauses : Clauses) : Finset (Multiset Lit) :=
  (clauses.map fun clause : List Lit => (clause : Multiset Lit)).toFinset

theorem mem_multisets {m : Multiset Lit}
    : m ∈ clauses.multisets ↔ ∃ clause : List Lit, clause ∈ clauses ∧ (clause : Multiset Lit) = m := by
  rw [multisets, List.mem_toFinset, List.mem_map]

/-- Whether clauses are satisfied depends on the set of clauses only. -/
theorem trueIn_of_multisets {σ : Assignment} (same : source.multisets = target.multisets)
    : Clauses.TrueIn σ source ↔ Clauses.TrueIn σ target := by
  have forward : ∀ {source target : Clauses}, source.multisets = target.multisets
      → Clauses.TrueIn σ source → Clauses.TrueIn σ target := by
    intro source target same holds clause inside
    have listed := same ▸ mem_multisets.mpr ⟨clause, inside, rfl⟩
    obtain ⟨other, there, equal⟩ := mem_multisets.mp listed
    obtain ⟨l, member, true_⟩ := holds other there
    exact ⟨l, (Multiset.coe_eq_coe.mp equal).mem_iff.mp member, true_⟩
  exact ⟨forward same, forward same.symm⟩

/-- So do their variables. -/
theorem mem_vars_of_multisets {v : Var} (same : source.multisets = target.multisets)
    : v ∈ source.vars ↔ v ∈ target.vars := by
  have forward : ∀ {source target : Clauses}, source.multisets = target.multisets
      → v ∈ source.vars → v ∈ target.vars := by
    intro source target same inside
    obtain ⟨clause, there, l, member, rfl⟩ := mem_vars.mp inside
    have listed := same ▸ mem_multisets.mpr ⟨clause, there, rfl⟩
    obtain ⟨other, found, equal⟩ := mem_multisets.mp listed
    exact mem_vars.mpr ⟨other, found, l, (Multiset.coe_eq_coe.mp equal).mem_iff.mpr member, rfl⟩
  exact ⟨forward same, forward same.symm⟩

/-- Taking images of literals goes by the set of clauses. -/
theorem multisets_map_filterMap (f : Lit → Option Lit)
    : multisets (clauses.map (List.filterMap f)) = clauses.multisets.image (Multiset.filterMap f) := by
  ext m
  simp only [mem_multisets, Finset.mem_image, List.mem_map]
  constructor
  · intro found
    obtain ⟨_, ⟨clause, inside, rfl⟩, rfl⟩ := found
    exact ⟨clause, ⟨clause, inside, rfl⟩, Multiset.filterMap_coe f clause⟩
  · intro found
    obtain ⟨_, ⟨clause, inside, rfl⟩, rfl⟩ := found
    exact ⟨_, ⟨clause, inside, rfl⟩, (Multiset.filterMap_coe f clause).symm⟩

end Clauses

-----------------------------------------------------------------------------------------
-- Keys of clauses
-----------------------------------------------------------------------------------------

namespace ComponentKey

variable {clauses : Clauses}

theorem mem_ofClauses {clause : Clause}
    : clause ∈ ofClauses clauses ↔ ∃ source ∈ clauses, sortBy inOrder source = clause :=
  (@SortedSet.mem_ofList Clause _ _ List.instLE _ _ _ _).trans List.mem_map

/-- Sorting a clause is forgetting the order of its literals. -/
theorem sortBy_eq_iff {first second : List Lit}
    : sortBy inOrder first = sortBy inOrder second ↔ (first : Multiset Lit) = (second : Multiset Lit) := by
  have total : ∀ a b : Lit, inOrder a b = true ∨ inOrder b a = true := by
    intro a b
    simp only [inOrder, Int.isLE_compare]
    omega
  have transitive : ∀ a b c : Lit, inOrder a b = true → inOrder b c = true → inOrder a c = true := by
    intro a b c
    simp only [inOrder, Int.isLE_compare]
    omega
  rw [Multiset.coe_eq_coe]
  constructor
  · intro same
    exact (sortBy_perm _ first).symm.trans (same ▸ sortBy_perm _ second)
  · refine sortBy_eq_of_perm total transitive fun a b le ge => ?_
    simp only [inOrder, Int.isLE_compare] at le ge
    exact Int.le_antisymm le ge

/-- Clauses have the same key just if they are the same set. -/
theorem ofClauses_eq_iff {source target : Clauses}
    : ofClauses source = ofClauses target ↔ source.multisets = target.multisets := by
  have listed {clauses : Clauses} {clause : List Lit}
      : sortBy inOrder clause ∈ ofClauses clauses ↔ (clause : Multiset Lit) ∈ clauses.multisets := by
    simp only [mem_ofClauses, sortBy_eq_iff, Clauses.mem_multisets]
  constructor
  · intro same
    ext m
    induction m using Quotient.inductionOn with
    | _ clause => exact (listed.symm.trans (same ▸ Iff.rfl)).trans listed
  · intro same
    refine @SortedSet.ext_mem Clause _ List.instLE _ _ _ _ fun clause => ?_
    constructor
    · intro inside
      obtain ⟨source, _, rfl⟩ := mem_ofClauses.mp inside
      exact listed.mpr (same ▸ listed.mp inside)
    · intro inside
      obtain ⟨source, _, rfl⟩ := mem_ofClauses.mp inside
      exact listed.mpr (same ▸ listed.mp inside)

theorem mem_vars_ofClauses {v : Var}
    : v ∈ Clauses.vars (ofClauses clauses).toList ↔ v ∈ clauses.vars := by
  rw [Clauses.mem_vars, Clauses.mem_vars]
  constructor
  · intro found
    obtain ⟨clause, inside, l, member, same⟩ := found
    obtain ⟨source, there, rfl⟩ := mem_ofClauses.mp inside
    exact ⟨source, there, l, mem_sortBy.mp member, same⟩
  · intro found
    obtain ⟨clause, inside, l, member, same⟩ := found
    exact ⟨_, mem_ofClauses.mpr ⟨clause, inside, rfl⟩, l, mem_sortBy.mpr member, same⟩

end ComponentKey

-----------------------------------------------------------------------------------------
-- Canonical numbers
-----------------------------------------------------------------------------------------

section Numbers

variable {clauses : Clauses}

/-- The profiles list each variable once. -/
theorem occurrenceProfiles_vars (clauses : Clauses)
    : ((occurrenceProfiles clauses).map Prod.snd).Nodup
      ∧ ∀ v, v ∈ (occurrenceProfiles clauses).map Prod.snd ↔ v ∈ clauses.vars := by
  have keys : (occurrenceProfiles clauses).map Prod.snd = clauses.lengthsByVariable.keys := by
    rw [occurrenceProfiles, List.map_map, ← Std.TreeMap.map_fst_toList_eq_keys]
    rfl
  rw [keys]
  refine ⟨?_, fun v => ?_⟩
  · exact Std.TreeMap.nodup_keys
  · rw [Std.TreeMap.mem_keys, Clauses.mem_lengthsByVariable]

/-- The variables of clauses get different numbers, and the numbers are variables again. -/
theorem canonicalNumbers_spec (proper : clauses.Proper)
    : (canonicalNumbers clauses).Bounded
      ∧ (canonicalNumbers clauses).Injective
      ∧ ∀ v, ((canonicalNumbers clauses).find? v).isSome = true ↔ v ∈ clauses.vars := by
  let ordered := sortBy (fun a b => inOrder a.1 b.1) (occurrenceProfiles clauses)
  let pairs := ordered.zipIdx.map fun entry => (entry.1.2, entry.2 + 1)
  obtain ⟨nodup, members⟩ := occurrenceProfiles_vars clauses
  have perm : (ordered.map Prod.snd).Perm ((occurrenceProfiles clauses).map Prod.snd) :=
    (sortBy_perm _ _).map _
  have sources : pairs.map Prod.fst = ordered.map Prod.snd := by
    have firsts : pairs.map Prod.fst = (ordered.zipIdx.map Prod.fst).map Prod.snd := by
      rw [List.map_map, List.map_map]
      rfl
    rw [firsts, List.zipIdx_map_fst]
  have distinct : (pairs.map Prod.fst).Nodup := by
    rw [sources]
    exact perm.nodup_iff.mpr nodup
  have found : ∀ {v n}, (canonicalNumbers clauses).find? v = some n
      ↔ ∃ i, (ordered[i]?).map Prod.snd = some v ∧ i + 1 = n := by
    intro v n
    have lookup : (canonicalNumbers clauses).find? v = some n ↔ (v, n) ∈ pairs :=
      Renaming.find?_ofList distinct
    rw [lookup]
    simp only [pairs, List.mem_map, Prod.mk.injEq, Prod.exists, List.mk_mem_zipIdx_iff_getElem?,
      Option.map_eq_some_iff]
    grind
  have orderedNodup : (ordered.map Prod.snd).Nodup := perm.nodup_iff.mpr nodup
  have count : ordered.length < 2147483648 := by
    have small : (ordered.map Prod.snd).toFinset ⊆ Finset.Ico 1 2147483648 := by
      intro v member
      have inside := (members v).mp (perm.mem_iff.mp (List.mem_toFinset.mp member))
      obtain ⟨positive, small⟩ := proper.vars_bound inside
      exact Finset.mem_Ico.mpr ⟨positive, small⟩
    have cards := Finset.card_le_card small
    rw [List.toFinset_card_of_nodup orderedNodup, List.length_map, Nat.card_Ico] at cards
    omega
  refine ⟨?_, ?_, fun v => ?_⟩
  · intro v n image
    obtain ⟨i, at_, rfl⟩ := found.mp image
    obtain ⟨entry, here, _⟩ := Option.map_eq_some_iff.mp at_
    have inside : i < ordered.length := (List.getElem?_eq_some_iff.mp here).1
    exact ⟨Nat.succ_pos i, Nat.lt_of_le_of_lt inside count⟩
  · intro u v n first second
    obtain ⟨i, at_, rfl⟩ := found.mp first
    obtain ⟨j, other, same⟩ := found.mp second
    rw [Nat.succ_inj.mp same, at_] at other
    exact Option.some.inj other
  · rw [← members, ← perm.mem_iff, Option.isSome_iff_exists, List.mem_iff_getElem?]
    simp only [found, List.getElem?_map]
    constructor
    · intro listed
      obtain ⟨n, i, at_, _⟩ := listed
      exact ⟨i, at_⟩
    · intro listed
      obtain ⟨i, at_⟩ := listed
      exact ⟨i + 1, i, at_, rfl⟩

/-- Numbering the literals is taking their images. -/
theorem map_numbered {numbers : Renaming} (covers : ∀ clause ∈ clauses, numbers.Covers clause)
    : clauses.map (List.map (numbered numbers)) = clauses.map (List.filterMap numbers.image) := by
  refine List.map_congr_left fun clause inside => ?_
  have covered := covers clause inside
  clear covers inside
  induction clause with
  | nil => rfl
  | cons l rest ih =>
      obtain ⟨first, later⟩ := List.forall_mem_cons.mp covered
      obtain ⟨n, found⟩ := Option.isSome_iff_exists.mp first
      have image : numbers.image l = some (numbered numbers l) := by
        simp [Renaming.image, numbered, Lit.signed, found]
      rw [List.map_cons, List.filterMap_cons_some image, ih later]

end Numbers

-----------------------------------------------------------------------------------------
-- Formulas under other names
-----------------------------------------------------------------------------------------

namespace Renaming

variable {names others : Renaming} {source target : Clauses}

/-- The names are a bijection of the variables of one formula with those of another one, and make the clauses of
the first one those of the other.
-/
structure Carries (names : Renaming) (source target : Clauses) : Prop where
  domain : ∀ v, (names.find? v).isSome = true ↔ v ∈ source.vars
  injective : names.Injective
  range : ∀ w, (∃ v, names.find? v = some w) ↔ w ∈ target.vars
  clauses : Clauses.multisets (source.map (List.filterMap names.image)) = target.multisets

/-- The image of a literal under one renaming after another. -/
theorem image_andThen (bounded : names.Bounded) (l : Lit)
    : (names.andThen others).image l = (names.image l).bind others.image := by
  rw [image, image, find?_andThen]
  cases found : names.find? l.var with
  | none => rfl
  | some n =>
      have positive : Lit.isPositive (Lit.signed n l.isPositive) = l.isPositive :=
        Lit.isPositive_signed (bounded found).1 _
      simp [image, positive]

/-- A literal that is numbered and renamed back is itself. -/
theorem image_image_inverse {l : Lit} (bounded : others.Bounded) (injective : others.Injective)
    (nonzero : l ≠ 0) (covered : (others.find? l.var).isSome = true)
    : (others.image l).bind others.inverse.image = some l := by
  obtain ⟨n, found⟩ := Option.isSome_iff_exists.mp covered
  have positive : Lit.isPositive (Lit.signed n l.isPositive) = l.isPositive :=
    Lit.isPositive_signed (bounded found).1 _
  have back : others.inverse.find? n = some l.var := injective.find?_inverse.mpr found
  simp [image, found, positive, back, Lit.signed_var nonzero]

/-- If two formulas are the same under numbers, the numbers of the one and back from those of the other carry the
one onto the other.
-/
theorem carries_of_numbers (bounded : names.Bounded) (injective : names.Injective)
    (domain : ∀ v, (names.find? v).isSome = true ↔ v ∈ source.vars) (bounded' : others.Bounded)
    (injective' : others.Injective) (domain' : ∀ v, (others.find? v).isSome = true ↔ v ∈ target.vars)
    (proper : target.Proper)
    (same : Clauses.multisets (source.map (List.filterMap names.image))
      = Clauses.multisets (target.map (List.filterMap others.image)))
    : (names.andThen others.inverse).Carries source target := by
  have covers : ∀ clause ∈ source, names.Covers clause := covers_of_vars fun v => (domain v).mpr
  have covers' : ∀ clause ∈ target, others.Covers clause := covers_of_vars fun v => (domain' v).mpr
  have find : ∀ {v w}, (names.andThen others.inverse).find? v = some w
      ↔ ∃ n, names.find? v = some n ∧ others.find? w = some n := by
    intro v w
    simp only [find?_andThen, Option.bind_eq_some_iff, injective'.find?_inverse]
  have numbers : ∀ n, (∃ v ∈ source.vars, names.find? v = some n)
      ↔ ∃ v ∈ target.vars, others.find? v = some n := by
    intro n
    rw [← mem_vars_map_image, ← mem_vars_map_image, Clauses.mem_vars_of_multisets same]
  refine ⟨fun v => ⟨fun found => ?_, fun inside => ?_⟩, fun {u v w} left right => ?_, fun w => ⟨fun found => ?_,
    fun inside => ?_⟩, ?_⟩
  · obtain ⟨w, found⟩ := Option.isSome_iff_exists.mp found
    obtain ⟨n, left, _⟩ := find.mp found
    exact (domain v).mp (by simp [left])
  · obtain ⟨n, found⟩ := Option.isSome_iff_exists.mp ((domain v).mpr inside)
    obtain ⟨w, _, back⟩ := (numbers n).mp ⟨v, inside, found⟩
    exact Option.isSome_iff_exists.mpr ⟨w, find.mpr ⟨n, found, back⟩⟩
  · obtain ⟨n, first, at_⟩ := find.mp left
    obtain ⟨m, second, at_'⟩ := find.mp right
    rw [at_] at at_'
    exact injective first (Option.some.inj at_' ▸ second)
  · obtain ⟨v, found⟩ := found
    obtain ⟨n, _, right⟩ := find.mp found
    exact (domain' w).mp (by simp [right])
  · obtain ⟨n, found⟩ := Option.isSome_iff_exists.mp ((domain' w).mpr inside)
    obtain ⟨v, _, there⟩ := (numbers n).mpr ⟨w, inside, found⟩
    exact ⟨v, find.mpr ⟨n, there, found⟩⟩
  · -- both formulas are the same under numbers, and the other one comes back from there
    have there : (names.andThen others.inverse).image = fun l => (names.image l).bind others.inverse.image :=
      funext fun l => image_andThen bounded l
    have through (f : Lit → Option Lit) (clauses : Clauses)
        : (Clauses.multisets (clauses.map (List.filterMap f))).image (Multiset.filterMap others.inverse.image)
          = Clauses.multisets (clauses.map (List.filterMap fun l => (f l).bind others.inverse.image)) := by
      rw [← Clauses.multisets_map_filterMap, List.map_map]
      simp only [Function.comp_def, List.filterMap_filterMap]
    have back : target.map (List.filterMap fun l => (others.image l).bind others.inverse.image) = target := by
      refine (List.map_congr_left fun clause inside => ?_).trans (List.map_id target)
      have each : ∀ l ∈ clause, (others.image l).bind others.inverse.image = some l := fun l member =>
        image_image_inverse bounded' injective' (proper clause inside l member).1 (covers' clause inside l member)
      rw [List.filterMap_congr each, List.filterMap_some]
      rfl
    rw [there, ← through names.image, same, through others.image, back]

end Renaming

/-- How two formulas with one key compare, given the renamings into the key's variables: they are the same set of
clauses, or the renamings together carry the one onto the other.
-/
inductive SameUpToNames (source target : Clauses) : Option Renaming → Option Renaming → Prop where
  | plain (same : source.multisets = target.multisets) : SameUpToNames source target none none
  | named {numbers numbers' names : Renaming} (related : relate (some numbers) (some numbers') = some names)
      (carries : names.Carries source target)
      : SameUpToNames source target (some numbers) (some numbers')

/-- Only formulas with keys of one sort compare. -/
theorem SameUpToNames.isSome_eq {source target : Clauses} {stored current : Option Renaming}
    (alike : SameUpToNames source target stored current) : stored.isSome = current.isSome := by
  cases alike <;> rfl

/-- What is known of a key: it is that of the clauses as they are, or that of their images. -/
inductive Keyed (clauses : Clauses) : ComponentKey → Option Renaming → Prop where
  | plain : Keyed clauses (.ofClauses clauses) none
  | numbered {names : Renaming} (bounded : names.Bounded) (injective : names.Injective)
      (domain : ∀ v, (names.find? v).isSome = true ↔ v ∈ clauses.vars)
      : Keyed clauses (.ofClauses (clauses.map (List.filterMap names.image))) (some names)

/-- A key with names comes from a formula that has enough variables. -/
theorem CachingScheme.keyOf_keyed (scheme : CachingScheme) {g : Residual} (proper : g.current.Proper)
    : Keyed g.current (scheme.keyOf g).1 (scheme.keyOf g).2
      ∧ ((scheme.keyOf g).2.isSome = true
        ↔ ∃ exactBelow, scheme = .upToNames exactBelow ∧ exactBelow ≤ g.current.vars.size) := by
  unfold keyOf
  cases scheme with
  | exact => exact ⟨.plain, by simp⟩
  | upToNames exactBelow =>
      dsimp only
      split
      · rename_i few
        refine ⟨.plain, ?_⟩
        simp only [Option.isSome_none, Bool.false_eq_true, upToNames.injEq, false_iff, not_exists,
          not_and]
        rintro _ rfl
        exact Nat.not_le.mpr few
      · rename_i enough
        obtain ⟨bounded, injective, domain⟩ := canonicalNumbers_spec proper
        rw [map_numbered (Renaming.covers_of_vars fun v => (domain v).mpr)]
        exact ⟨.numbered bounded injective domain,
          by simpa using Nat.le_of_not_lt enough⟩

/-- The variables of a key are as many as those of its clauses. -/
theorem Keyed.size_vars {clauses : Clauses} {key : ComponentKey} {names : Option Renaming}
    (keyed : Keyed clauses key names)
    : (Clauses.vars key.toList).size = clauses.vars.size := by
  cases keyed with
  | plain =>
      have same : Clauses.vars (ComponentKey.ofClauses clauses).toList = clauses.vars :=
        SortedSet.ext_mem fun v => ComponentKey.mem_vars_ofClauses
      rw [same]
  | @numbered names bounded injective domain =>
      have image : (Clauses.vars (ComponentKey.ofClauses
          (clauses.map (List.filterMap names.image))).toList).toFinset
          = clauses.vars.toFinset.image fun v => (names.find? v).getD 0 := by
        ext w
        rw [SortedSet.mem_toFinset, ComponentKey.mem_vars_ofClauses, Renaming.mem_vars_map_image,
          Finset.mem_image]
        constructor
        · intro found
          obtain ⟨v, inside, image⟩ := found
          exact ⟨v, SortedSet.mem_toFinset.mpr inside, by rw [image]; rfl⟩
        · intro found
          obtain ⟨v, inside, rfl⟩ := found
          have inside := SortedSet.mem_toFinset.mp inside
          obtain ⟨w, image⟩ := Option.isSome_iff_exists.mp ((domain v).mpr inside)
          exact ⟨v, inside, by rw [image]; rfl⟩
      rw [← SortedSet.card_toFinset, ← SortedSet.card_toFinset, image]
      refine Finset.card_image_of_injOn ?_
      intro u left v right same
      obtain ⟨x, first⟩ := Option.isSome_iff_exists.mp
        ((domain u).mpr (SortedSet.mem_toFinset.mp left))
      obtain ⟨y, second⟩ := Option.isSome_iff_exists.mp
        ((domain v).mpr (SortedSet.mem_toFinset.mp right))
      simp only [first, second, Option.getD_some] at same
      exact injective first (same ▸ second)

/-- Formulas with the same key are the same up to names, unless only one of the keys comes with names. -/
theorem Keyed.sameUpToNames {source target : Clauses} {key : ComponentKey} {stored current : Option Renaming}
    (proper : target.Proper) (first : Keyed source key stored) (second : Keyed target key current)
    (both : stored.isSome = current.isSome)
    : SameUpToNames source target stored current := by
  cases first with
  | plain =>
      generalize same : ComponentKey.ofClauses source = key at second
      cases second with
      | plain => exact .plain (ComponentKey.ofClauses_eq_iff.mp same)
      | numbered => simp at both
  | @numbered names bounded injective domain =>
      generalize same : ComponentKey.ofClauses (source.map (List.filterMap names.image)) = key at second
      cases second with
      | plain => simp at both
      | @numbered others bounded' injective' domain' =>
          exact .named rfl (Renaming.carries_of_numbers bounded injective domain bounded' injective' domain'
            proper (ComponentKey.ofClauses_eq_iff.mp same))

/-- A key that a scheme gives to two formulas comes with names for both or for none: it comes with names exactly
if it has enough variables. So the formulas are the same up to names.
-/
theorem CachingScheme.sameUpToNames (scheme : CachingScheme) {g h : Residual} (proper : g.current.Proper)
    (proper' : h.current.Proper) (same : (scheme.keyOf g).1 = (scheme.keyOf h).1)
    : SameUpToNames g.current h.current (scheme.keyOf g).2 (scheme.keyOf h).2 := by
  obtain ⟨first, named⟩ := scheme.keyOf_keyed proper
  obtain ⟨second, named'⟩ := scheme.keyOf_keyed proper'
  have sizes : g.current.vars.size = h.current.vars.size := by
    rw [← first.size_vars, ← second.size_vars, same]
  rw [same] at first
  refine first.sameUpToNames proper' second ?_
  rw [Bool.eq_iff_iff, named, named', sizes]

-----------------------------------------------------------------------------------------
-- Stored components
-----------------------------------------------------------------------------------------

namespace ComponentCache

variable {cache : ComponentCache} {key other : ComponentKey} {entry found : CacheEntry}

/-- Looking up finds what is stored, counts, and changes nothing else. -/
theorem get_eq (cache : ComponentCache) (key : ComponentKey)
    : (cache.get key).1 = cache.entries.peek? key
      ∧ (cache.get key).2.scheme = cache.scheme
      ∧ (cache.get key).2.entries.entries = cache.entries.entries := by
  unfold get Tally.get
  cases cache.entries.peek? key <;> exact ⟨rfl, rfl, rfl⟩

/-- After adding a component, what is found is that component under its key, or was there before. -/
theorem peek?_add (held : (cache.add key entry).entries.peek? other = some found)
    : other = key ∧ found = entry ∨ cache.entries.peek? other = some found := by
  have added : (cache.add key entry).entries.peek? other
      = (cache.entries.entries.insertIfNew key entry)[other]? := rfl
  rw [added, Std.TreeMap.getElem?_insertIfNew] at held
  split at held
  · rename_i new
    obtain rfl := Std.LawfulEqCmp.eq_of_compare new.1
    exact .inl ⟨rfl, (Option.some.inj held).symm⟩
  · exact .inr held

end ComponentCache

-----------------------------------------------------------------------------------------
-- Counterparts
-----------------------------------------------------------------------------------------

/-- How a result for one formula becomes one for another: as it is, or under other names. -/
inductive Counterparts (source target : Clauses) : Option Renaming → Prop where
  | same (models : ∀ σ, Clauses.TrueIn σ source ↔ Clauses.TrueIn σ target)
      (vars : ∀ v, v ∈ source.vars ↔ v ∈ target.vars)
      : Counterparts source target none
  | renamed {names : Renaming} (bounded : names.Bounded) (injective : names.Injective)
      (covered : ∀ v, v ∈ source.vars → (names.find? v).isSome = true)
      (images : ∀ {v w}, names.find? v = some w → v ∈ source.vars ∧ w ∈ target.vars)
      (models : ∀ σ, Clauses.TrueIn (names.pull σ) source ↔ Clauses.TrueIn σ target)
      : Counterparts source target (some names)

/-- Formulas that are the same up to names have the same models up to names. -/
theorem SameUpToNames.counterparts {source target : Clauses} {stored current : Option Renaming}
    (alike : SameUpToNames source target stored current) (proper : target.Proper)
    : Counterparts source target (relate stored current) := by
  cases alike with
  | plain same => exact .same (fun σ => Clauses.trueIn_of_multisets same) fun v => Clauses.mem_vars_of_multisets same
  | @named numbers numbers' names related carries =>
      have bounded : names.Bounded := fun {v w} found => proper.vars_bound ((carries.range w).mp ⟨v, found⟩)
      have covers : ∀ clause ∈ source, names.Covers clause :=
        Renaming.covers_of_vars fun v => (carries.domain v).mpr
      rw [related]
      refine .renamed bounded carries.injective (fun v => (carries.domain v).mpr) (fun {v w} found => ?_) fun σ => ?_
      · exact ⟨(carries.domain v).mp (by simp [found]), (carries.range w).mp ⟨v, found⟩⟩
      · exact (Renaming.trueIn_map_image bounded covers).symm.trans (Clauses.trueIn_of_multisets carries.clauses)

/-- Formulas to which a scheme gives the same key are counterparts. -/
theorem CachingScheme.counterparts (scheme : CachingScheme) {g g₀ : Residual} (proper : g.current.Proper)
    (proper₀ : g₀.current.Proper) (same : (scheme.keyOf g₀).1 = (scheme.keyOf g).1)
    : Counterparts g₀.current g.current (relate (scheme.keyOf g₀).2 (scheme.keyOf g).2) :=
  (scheme.sameUpToNames proper₀ proper same).counterparts proper

end KnowledgeCompiler
