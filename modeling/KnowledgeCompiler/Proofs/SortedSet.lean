import Mathlib.Algebra.GroupWithZero.Nat
import Mathlib.Data.Finset.Card
import Mathlib.Data.List.Nodup
import KnowledgeCompiler.SortedSet

/-! Sets as ascending lists: two sets with the same members are equal, and each operation is known by
its members. The number of members is the cardinality of a finite set.
-/

namespace KnowledgeCompiler.SortedSet

variable {α : Type} [LT α]

-----------------------------------------------------------------------------------------
-- Membership in the results of the operations
-----------------------------------------------------------------------------------------

@[simp]
theorem mem_mk {items : List α} {order : items.Pairwise (· < ·)} {a : α}
    : a ∈ (⟨items, order⟩ : SortedSet α) ↔ a ∈ items := Iff.rfl

@[simp]
theorem not_mem_empty {a : α} : ¬ a ∈ (∅ : SortedSet α) := List.not_mem_nil

@[simp]
theorem toList_empty : (∅ : SortedSet α).toList = [] := rfl

theorem isEmpty_eq_false_iff {s : SortedSet α} : s.isEmpty = false ↔ ∃ a, a ∈ s := by
  unfold isEmpty
  rw [List.isEmpty_eq_false_iff_exists_mem]
  rfl

theorem isEmpty_iff {s : SortedSet α} : s.isEmpty = true ↔ ∀ a, ¬ a ∈ s := by
  unfold isEmpty
  rw [List.isEmpty_iff, List.eq_nil_iff_forall_not_mem]
  rfl

@[simp]
theorem mem_filter {keep : α → Bool} {s : SortedSet α} {a : α}
    : a ∈ s.filter keep ↔ a ∈ s ∧ keep a = true := List.mem_filter

variable [DecidableEq α]

@[simp]
theorem contains_iff {s : SortedSet α} {a : α} : s.contains a = true ↔ a ∈ s := by
  simp [contains]

@[simp]
theorem contains_eq_false_iff {s : SortedSet α} {a : α} : s.contains a = false ↔ ¬ a ∈ s := by
  simp [contains]

@[simp]
theorem mem_inter {s t : SortedSet α} {a : α} : a ∈ s.inter t ↔ a ∈ s ∧ a ∈ t := by
  simp [inter]

@[simp]
theorem mem_diff {s t : SortedSet α} {a : α} : a ∈ s.diff t ↔ a ∈ s ∧ ¬ a ∈ t := by
  simp [diff]

@[simp]
theorem mem_erase {s : SortedSet α} {a b : α} : a ∈ s.erase b ↔ a ∈ s ∧ a ≠ b := by
  simp [erase]

-----------------------------------------------------------------------------------------
-- Sets with the same members
-----------------------------------------------------------------------------------------

section Order

variable {α : Type} [LT α] [LE α] [Std.IsLinearOrder α] [Std.LawfulOrderLT α]

/-- Strictly ascending lists with the same members are equal; induction on the first list, whose head
is the least member of both.
-/
theorem ascending_ext {xs ys : List α} (left : xs.Pairwise (· < ·)) (right : ys.Pairwise (· < ·))
    (same : ∀ a, a ∈ xs ↔ a ∈ ys)
    : xs = ys := by
  induction xs generalizing ys with
  | nil =>
      cases ys with
      | nil => rfl
      | cons b ys => exact absurd ((same b).mpr (by simp)) (by simp)
  | cons a xs ih =>
      cases ys with
      | nil => exact absurd ((same a).mp (by simp)) (by simp)
      | cons b ys =>
          obtain ⟨belowLeft, leftTail⟩ := List.pairwise_cons.mp left
          obtain ⟨belowRight, rightTail⟩ := List.pairwise_cons.mp right
          have heads : a = b := by
            rcases List.mem_cons.mp ((same a).mp (by simp)) with equal | later
            · exact equal
            · rcases List.mem_cons.mp ((same b).mpr (by simp)) with equal | late
              · exact equal.symm
              · exact (Std.lt_irrefl (Std.lt_trans (belowRight a later) (belowLeft b late))).elim
          subst heads
          have tails : xs = ys := by
            refine ih leftTail rightTail (fun c => ⟨fun member => ?_, fun member => ?_⟩)
            · rcases List.mem_cons.mp ((same c).mp (by simp [member])) with equal | found
              · exact (Std.lt_irrefl (equal ▸ belowLeft c member)).elim
              · exact found
            · rcases List.mem_cons.mp ((same c).mpr (by simp [member])) with equal | found
              · exact (Std.lt_irrefl (equal ▸ belowRight c member)).elim
              · exact found
          rw [tails]

/-- Sets with the same members are equal. -/
theorem ext_mem {s t : SortedSet α} (same : ∀ a, a ∈ s ↔ a ∈ t) : s = t := by
  obtain ⟨xs, left⟩ := s
  obtain ⟨ys, right⟩ := t
  have lists : xs = ys := ascending_ext left right same
  subst lists
  rfl

omit [Std.IsLinearOrder α] in
/-- A set lists no member twice. -/
theorem nodup (s : SortedSet α) : s.toList.Nodup := by
  refine s.ascending.imp (fun below equal => ?_)
  rw [equal] at below
  exact Std.lt_irrefl below

variable [DecidableLT α]

@[simp]
theorem mem_insert {s : SortedSet α} {a b : α} : a ∈ s.insert b ↔ a = b ∨ a ∈ s := by
  simp [insert]

/-- Only the set of nothing is empty. -/
theorem toList_ofList_eq_nil {items : List α} : (ofList items).toList = [] ↔ items = [] := by
  simp only [List.eq_nil_iff_forall_not_mem]
  exact forall_congr' fun a => not_congr mem_ofList

/-- The set of an ascending list is that list. -/
theorem toList_ofList {items : List α} (order : items.Pairwise (· < ·))
    : (ofList items).toList = items :=
  ascending_ext (ofList items).ascending order (fun _ => mem_ofList)

end Order

-----------------------------------------------------------------------------------------
-- Sizes
-----------------------------------------------------------------------------------------

section Size

variable {α : Type} [LT α] [DecidableEq α]

/-- The members as a finite set. -/
def toFinset (s : SortedSet α) : Finset α := s.toList.toFinset

@[simp]
theorem mem_toFinset {s : SortedSet α} {a : α} : a ∈ s.toFinset ↔ a ∈ s := by
  simp [toFinset]

variable [LE α] [Std.LawfulOrderLT α]

@[simp]
theorem card_toFinset (s : SortedSet α) : s.toFinset.card = s.size :=
  List.toFinset_card_of_nodup s.nodup

/-- A subset has no more members. -/
theorem size_le {s t : SortedSet α} (within : ∀ a, a ∈ s → a ∈ t) : s.size ≤ t.size := by
  rw [← card_toFinset, ← card_toFinset]
  exact Finset.card_le_card fun a => by simpa using within a

/-- A subset that misses a member has fewer members. -/
theorem size_lt {s t : SortedSet α} (within : ∀ a, a ∈ s → a ∈ t) {b : α} (member : b ∈ t)
    (missing : ¬ b ∈ s)
    : s.size < t.size := by
  rw [← card_toFinset, ← card_toFinset]
  refine Finset.card_lt_card ⟨fun a => by simpa using within a, fun back => missing ?_⟩
  simpa using back (mem_toFinset.mpr member)

/-- The sizes of sets without common members add up; induction on the sets. -/
theorem size_unionAll [DecidableLT α] [Std.IsLinearOrder α] {sets : List (SortedSet α)}
    (apart : sets.Pairwise fun s t => ∀ a, a ∈ s → ¬ a ∈ t)
    : (unionAll sets).size = (sets.map size).sum := by
  induction sets with
  | nil =>
      have empty : (unionAll ([] : List (SortedSet α))).toFinset = ∅ :=
        Finset.ext (by simp)
      rw [← card_toFinset, empty]
      rfl
  | cons s rest ih =>
      obtain ⟨first, later⟩ := List.pairwise_cons.mp apart
      have parts : (unionAll (s :: rest)).toFinset = s.toFinset ∪ (unionAll rest).toFinset :=
        Finset.ext (by simp)
      have disjoint : Disjoint s.toFinset (unionAll rest).toFinset := by
        refine Finset.disjoint_left.mpr (fun a inside other => ?_)
        obtain ⟨t, member, there⟩ := mem_unionAll.mp (mem_toFinset.mp other)
        exact first t member a (mem_toFinset.mp inside) there
      rw [← card_toFinset, parts, Finset.card_union_of_disjoint disjoint, card_toFinset,
        card_toFinset, ih later, List.map_cons, List.sum_cons]

/-- Sets whose sizes add up to that of their union have no common member; induction on the sets. -/
theorem pairwise_of_size_unionAll [DecidableLT α] [Std.IsLinearOrder α] {sets : List (SortedSet α)}
    (adds : (unionAll sets).size = (sets.map size).sum)
    : sets.Pairwise fun s t => ∀ a, a ∈ s → ¬ a ∈ t := by
  have card : ∀ sets : List (SortedSet α), (unionAll sets).toFinset.card ≤ (sets.map size).sum := by
    intro sets
    induction sets with
    | nil => exact Nat.le_of_eq rfl
    | cons s rest ih =>
        have split : (unionAll (s :: rest)).toFinset = s.toFinset ∪ (unionAll rest).toFinset := by
          ext a
          simp
        rw [split, List.map_cons, List.sum_cons]
        refine Nat.le_trans (Finset.card_union_le _ _) ?_
        rw [card_toFinset]
        omega
  rw [← card_toFinset] at adds
  induction sets with
  | nil => exact List.Pairwise.nil
  | cons s rest ih =>
      have split : (unionAll (s :: rest)).toFinset = s.toFinset ∪ (unionAll rest).toFinset := by
        ext a
        simp
      have below := card rest
      have both := Finset.card_union_add_card_inter s.toFinset (unionAll rest).toFinset
      rw [split, List.map_cons, List.sum_cons] at adds
      rw [card_toFinset s] at both
      have common : (s.toFinset ∩ (unionAll rest).toFinset).card = 0 := by omega
      refine List.Pairwise.cons (fun t member a left right => ?_) (ih (by omega))
      rw [Finset.card_eq_zero, Finset.eq_empty_iff_forall_notMem] at common
      refine common a (Finset.mem_inter.mpr ⟨mem_toFinset.mpr left, mem_toFinset.mpr ?_⟩)
      exact mem_unionAll.mpr ⟨t, member, right⟩

end Size

end KnowledgeCompiler.SortedSet
