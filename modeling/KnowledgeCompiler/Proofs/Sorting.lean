import Mathlib.Data.List.Perm.Basic
import KnowledgeCompiler.Sorting

/-! Insertion sort permutes and sorts, and removing repetitions from a sorted list leaves a list that is
determined by its elements.
-/

namespace KnowledgeCompiler

variable {α : Type}

theorem insertBy_perm (le : α → α → Bool) (a : α) (items : List α)
    : (insertBy le a items).Perm (a :: items) := by
  induction items with
  | nil => rfl
  | cons b rest ih =>
      unfold insertBy
      split
      · rfl
      · exact (ih.cons b).trans (List.Perm.swap a b rest)

/-- Sorting permutes; induction on the list. -/
theorem sortBy_perm (le : α → α → Bool) (items : List α) : (sortBy le items).Perm items := by
  induction items with
  | nil => rfl
  | cons a rest ih => exact (insertBy_perm le a _).trans (ih.cons a)

@[simp]
theorem mem_sortBy {le : α → α → Bool} {items : List α} {a : α}
    : a ∈ sortBy le items ↔ a ∈ items :=
  (sortBy_perm le items).mem_iff

@[simp]
theorem length_sortBy (le : α → α → Bool) (items : List α)
    : (sortBy le items).length = items.length :=
  (sortBy_perm le items).length_eq

/-- A sorted list stays as it is; induction on the list. -/
theorem sortBy_eq_self {le : α → α → Bool} {items : List α}
    (sorted : items.Pairwise fun a b => le a b = true)
    : sortBy le items = items := by
  induction items with
  | nil => rfl
  | cons a rest ih =>
      obtain ⟨below, tail⟩ := List.pairwise_cons.mp sorted
      show insertBy le a (sortBy le rest) = a :: rest
      rw [ih tail]
      cases rest with
      | nil => rfl
      | cons b rest => rw [insertBy, if_pos (below b (by simp))]

section Sorted

variable {le : α → α → Bool} (total : ∀ a b, le a b = true ∨ le b a = true)
  (transitive : ∀ a b c, le a b = true → le b c = true → le a c = true)

include total transitive

theorem pairwise_insertBy {a : α} {items : List α} (sorted : items.Pairwise fun a b => le a b = true)
    : (insertBy le a items).Pairwise fun a b => le a b = true := by
  induction items with
  | nil => simp [insertBy]
  | cons b rest ih =>
      obtain ⟨below, tail⟩ := List.pairwise_cons.mp sorted
      unfold insertBy
      split
      · rename_i first
        refine List.Pairwise.cons (fun c member => ?_) sorted
        rcases List.mem_cons.mp member with rfl | later
        · exact first
        · exact transitive a b c first (below c later)
      · rename_i second
        refine List.Pairwise.cons (fun c member => ?_) (ih tail)
        rcases List.mem_cons.mp ((insertBy_perm le a rest).mem_iff.mp member) with rfl | later
        · exact (total c b).resolve_left second
        · exact below c later

/-- Sorting sorts; induction on the list. -/
theorem pairwise_sortBy (items : List α)
    : (sortBy le items).Pairwise fun a b => le a b = true := by
  induction items with
  | nil => simp [sortBy]
  | cons a rest ih => exact pairwise_insertBy total transitive ih

/-- The order in which the elements come does not matter, if no two of them are in order both ways. -/
theorem sortBy_eq_of_perm (antisymmetric : ∀ a b, le a b = true → le b a = true → a = b) {items others : List α}
    (perm : items.Perm others)
    : sortBy le items = sortBy le others :=
  List.Perm.eq_of_pairwise (fun a b _ _ => antisymmetric a b) (pairwise_sortBy total transitive items)
    (pairwise_sortBy total transitive others)
    ((sortBy_perm le items).trans (perm.trans (sortBy_perm le others).symm))

end Sorted

/-- Removing repetitions keeps the elements; induction along neighbours. -/
@[simp]
theorem mem_dropRepeats [DecidableEq α] {items : List α} {a : α}
    : a ∈ dropRepeats items ↔ a ∈ items := by
  induction items using dropRepeats.induct with
  | case1 => simp [dropRepeats]
  | case2 b => simp [dropRepeats]
  | case3 b rest ih =>
      rw [dropRepeats, if_pos rfl, ih]
      simp
  | case4 b c rest differ ih =>
      rw [dropRepeats, if_neg differ, List.mem_cons, ih, List.mem_cons (a := a) (b := b)]

theorem dropRepeats_sublist [DecidableEq α] (items : List α) : (dropRepeats items).Sublist items := by
  induction items using dropRepeats.induct with
  | case1 | case2 => simp [dropRepeats]
  | case3 a rest ih =>
      simp only [dropRepeats, if_true]
      exact ih.cons a
  | case4 a b rest differ ih =>
      simp only [dropRepeats, differ, if_false]
      exact ih.cons_cons a

/-- In a list sorted by a key that tells its elements apart, removing repetitions leaves strictly
ascending keys; induction along neighbours.
-/
theorem pairwise_dropRepeats [DecidableEq α] {key : α → Nat} {items : List α}
    (sorted : items.Pairwise fun a b => key a ≤ key b)
    (apart : ∀ a ∈ items, ∀ b ∈ items, key a = key b → a = b)
    : (dropRepeats items).Pairwise fun a b => key a < key b := by
  induction items using dropRepeats.induct with
  | case1 => simp [dropRepeats]
  | case2 b => simp [dropRepeats]
  | case3 b rest ih =>
      rw [dropRepeats, if_pos rfl]
      exact ih sorted.of_cons fun a left d right =>
        apart a (List.mem_cons_of_mem b left) d (List.mem_cons_of_mem b right)
  | case4 b c rest differ ih =>
      rw [dropRepeats, if_neg differ]
      refine List.Pairwise.cons (fun d member => ?_) (ih sorted.of_cons fun a left d right =>
        apart a (List.mem_cons_of_mem b left) d (List.mem_cons_of_mem b right))
      rw [mem_dropRepeats] at member
      obtain ⟨below, tail⟩ := List.pairwise_cons.mp sorted
      have first : key b < key c := by
        refine Nat.lt_of_le_of_ne (below c (by simp)) (fun same => differ ?_)
        exact apart b (by simp) c (by simp) same
      rcases List.mem_cons.mp member with rfl | later
      · exact first
      · exact Nat.lt_of_lt_of_le first ((List.pairwise_cons.mp tail).1 d later)

/-- Lists with strictly ascending keys and the same elements are equal; induction on the first list. -/
theorem eq_of_ascending_keys {key : α → Nat} {xs ys : List α}
    (left : xs.Pairwise fun a b => key a < key b) (right : ys.Pairwise fun a b => key a < key b)
    (same : ∀ a, a ∈ xs ↔ a ∈ ys)
    : xs = ys := by
  refine List.Perm.eq_of_pairwise (fun a b _ _ below above => ?_) left right ?_
  · omega
  · have nodup : ∀ zs : List α, (zs.Pairwise fun a b => key a < key b) → zs.Nodup := by
      intro zs order
      refine order.imp (fun {a b} below equal => ?_)
      rw [equal] at below
      exact Nat.lt_irrefl _ below
    exact (List.perm_ext_iff_of_nodup (nodup xs left) (nodup ys right)).mpr same

/-- Sorting by a key and removing repetitions depends on the elements only. -/
theorem dropRepeats_sortBy_congr [DecidableEq α] {key : α → Nat} {xs ys : List α}
    (same : ∀ a, a ∈ xs ↔ a ∈ ys) (apart : ∀ a ∈ xs, ∀ b ∈ xs, key a = key b → a = b)
    : dropRepeats (sortBy (fun a b => key a ≤ key b) xs)
      = dropRepeats (sortBy (fun a b => key a ≤ key b) ys) := by
  have sorted : ∀ zs : List α,
      (sortBy (fun a b => key a ≤ key b) zs).Pairwise fun a b => key a ≤ key b := by
    intro zs
    have order : (sortBy (fun a b => key a ≤ key b) zs).Pairwise
        fun a b => decide (key a ≤ key b) = true :=
      pairwise_sortBy (fun a b => by simpa using Nat.le_total (key a) (key b))
        (fun a b c => by simpa using Nat.le_trans) zs
    simpa using order
  have strict : ∀ zs : List α, (∀ a ∈ zs, ∀ b ∈ zs, key a = key b → a = b)
      → (dropRepeats (sortBy (fun a b => key a ≤ key b) zs)).Pairwise
        fun a b => key a < key b :=
    fun zs apart => pairwise_dropRepeats (sorted zs) fun a left b right =>
      apart a (mem_sortBy.mp left) b (mem_sortBy.mp right)
  refine eq_of_ascending_keys (strict xs apart) (strict ys fun a left b right => ?_)
    (fun a => by simp [same])
  exact apart a ((same a).mpr left) b ((same b).mpr right)

end KnowledgeCompiler
