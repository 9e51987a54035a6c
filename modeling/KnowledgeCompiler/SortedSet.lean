/-! Finite sets as strictly ascending lists.

Two sets with the same members are the same list, so equality of sets is equality of values, and
the order in which a set is shown is part of its type. Where the members may be visited in any order,
the order is a value of its own.
-/

namespace KnowledgeCompiler

/-- A finite set, listed in strictly ascending order. -/
structure SortedSet (α : Type) [LT α] where
  /-- The members, ascending. -/
  toList : List α
  /-- Each member is below all later ones. -/
  ascending : toList.Pairwise (· < ·)

namespace SortedSet

variable {α : Type} [LT α]

instance [DecidableEq α] : DecidableEq (SortedSet α) := fun s t =>
  decidable_of_iff (s.toList = t.toList) (by cases s; cases t; simp)

instance [Ord α] : Ord (SortedSet α) := ⟨fun s t => compare s.toList t.toList⟩

/-- Comparing sets inherits its laws from comparing lists. -/
instance [Ord α] [Std.TransOrd α] : Std.TransOrd (SortedSet α) where
  eq_swap {s t} := by
    change compare s.toList t.toList = (compare t.toList s.toList).swap
    exact Std.OrientedCmp.eq_swap
  isLE_trans {s t u} below above := by
    change (compare s.toList u.toList).isLE
    exact Std.TransCmp.isLE_trans (b := t.toList) below above

/-- Sets compare as equal only if they are equal. -/
instance [Ord α] [Std.LawfulEqOrd α] : Std.LawfulEqOrd (SortedSet α) where
  compare_self {s} := by
    change compare s.toList s.toList = .eq
    exact Std.ReflCmp.compare_self
  eq_of_compare {s t} same := by
    have lists : s.toList = t.toList := Std.LawfulEqCmp.eq_of_compare same
    cases s
    cases t
    simp_all

instance [Repr α] : Repr (SortedSet α) := ⟨fun s n => reprPrec s.toList n⟩

/-- The set without members. -/
def empty : SortedSet α := ⟨[], List.Pairwise.nil⟩

instance : EmptyCollection (SortedSet α) := ⟨empty⟩

instance : Inhabited (SortedSet α) := ⟨empty⟩

instance : Membership α (SortedSet α) := ⟨fun s a => a ∈ s.toList⟩

instance [DecidableEq α] (a : α) (s : SortedSet α) : Decidable (a ∈ s) :=
  inferInstanceAs (Decidable (a ∈ s.toList))

/-- Membership in a set is membership in its list; by definition. -/
@[simp]
theorem mem_toList {s : SortedSet α} {a : α} : a ∈ s.toList ↔ a ∈ s := Iff.rfl

/-- Number of members. -/
def size (s : SortedSet α) : Nat := s.toList.length

/-- Whether the set has no members. -/
def isEmpty (s : SortedSet α) : Bool := s.toList.isEmpty

/-- Whether `a` is a member. -/
def contains [DecidableEq α] (s : SortedSet α) (a : α) : Bool := decide (a ∈ s)

/-- The set with one member. -/
def singleton (a : α) : SortedSet α := ⟨[a], List.pairwise_singleton _ _⟩

/-- The only member of a singleton is its element. -/
@[simp]
theorem mem_singleton {a b : α} : a ∈ singleton b ↔ a = b := List.mem_singleton

/-- The members that pass a test. -/
def filter (keep : α → Bool) (s : SortedSet α) : SortedSet α :=
  ⟨s.toList.filter keep, s.ascending.filter _⟩

/-- The members of `s` that are also in `t`. -/
def inter [DecidableEq α] (s t : SortedSet α) : SortedSet α := s.filter t.contains

/-- The members of `s` that are not in `t`. -/
def diff [DecidableEq α] (s t : SortedSet α) : SortedSet α := s.filter (!t.contains ·)

/-- The set without the member `a`. -/
def erase [DecidableEq α] (s : SortedSet α) (a : α) : SortedSet α := s.filter (· != a)

/-- Whether every member of `s` is in `t`. -/
def subset [DecidableEq α] (s t : SortedSet α) : Bool := s.toList.all t.contains

variable [DecidableLT α]

/-- Merges `a` and then `rest` of what remains into an ascending list. -/
@[specialize]
def mergeFrom (a : α) (rest : List α → List α) : List α → List α
  | [] => a :: rest []
  | b :: others =>
      if a < b then a :: rest (b :: others)
      else if b < a then b :: mergeFrom a rest others
      else a :: rest others

/-- Merges two ascending lists into one, writing a common member once. -/
@[specialize]
def mergeLists : List α → List α → List α
  | [], others => others
  | a :: rest, others => mergeFrom a (mergeLists rest) others

variable [LE α] [Std.IsLinearOrder α] [Std.LawfulOrderLT α]

/-- A member of a merge comes from one of the merged lists; induction on the second list. -/
theorem mem_mergeFrom {a : α} {rest : List α → List α} {xs : List α}
    (restMem : ∀ ys b, b ∈ rest ys ↔ b ∈ xs ∨ b ∈ ys) (others : List α) (b : α)
    : b ∈ mergeFrom a rest others ↔ b ∈ a :: xs ∨ b ∈ others := by
  induction others with
  | nil => simp [mergeFrom, restMem]
  | cons c others ih =>
      by_cases below : a < c
      · simp only [mergeFrom, below, if_true, List.mem_cons, restMem]
        grind
      · by_cases above : c < a
        · simp only [mergeFrom, below, above, if_true, if_false, List.mem_cons, ih]
          grind
        · have same : a = c := by
            rcases Std.lt_trichotomy a c with h | h | h
            · exact absurd h below
            · exact h
            · exact absurd h above
          subst same
          simp only [mergeFrom, below, if_false, List.mem_cons, restMem]
          grind

/-- The members of a merge are those of both lists; induction on the first list. -/
@[simp]
theorem mem_mergeLists (xs ys : List α) (b : α)
    : b ∈ mergeLists xs ys ↔ b ∈ xs ∨ b ∈ ys := by
  induction xs generalizing ys b with
  | nil => simp [mergeLists]
  | cons a xs ih => exact mem_mergeFrom ih ys b

/-- Merging keeps the order when the first element is below the rest of its list; induction on
the second list.
-/
theorem pairwise_mergeFrom {a : α} {rest : List α → List α} {xs : List α}
    (restMem : ∀ ys b, b ∈ rest ys ↔ b ∈ xs ∨ b ∈ ys)
    (restOrder : ∀ ys, ys.Pairwise (· < ·) → (rest ys).Pairwise (· < ·))
    (below : ∀ b ∈ xs, a < b) {others : List α} (order : others.Pairwise (· < ·))
    : (mergeFrom a rest others).Pairwise (· < ·) := by
  induction others with
  | nil =>
      refine List.Pairwise.cons (fun b member => ?_) (restOrder [] order)
      have := (restMem [] b).mp member
      grind
  | cons c others ih =>
      have tail := order.of_cons
      have head : ∀ b ∈ others, c < b := (List.pairwise_cons.mp order).1
      by_cases lower : a < c
      · simp only [mergeFrom, lower, if_true]
        refine List.Pairwise.cons (fun b member => ?_) (restOrder _ order)
        rcases (restMem _ b).mp member with h | h
        · exact below b h
        · rcases List.mem_cons.mp h with rfl | h
          · exact lower
          · exact Std.lt_trans lower (head b h)
      · by_cases upper : c < a
        · simp only [mergeFrom, lower, upper, if_true, if_false]
          refine List.Pairwise.cons (fun b member => ?_) (ih tail)
          rcases (mem_mergeFrom restMem others b).mp member with h | h
          · rcases List.mem_cons.mp h with rfl | h
            · exact upper
            · exact Std.lt_trans upper (below b h)
          · exact head b h
        · have same : a = c := by
            rcases Std.lt_trichotomy a c with h | h | h
            · exact absurd h lower
            · exact h
            · exact absurd h upper
          subst same
          simp only [mergeFrom, lower, if_false]
          refine List.Pairwise.cons (fun b member => ?_) (restOrder _ tail)
          rcases (restMem _ b).mp member with h | h
          · exact below b h
          · exact head b h

/-- Merging two ascending lists gives an ascending list; induction on the first list. -/
theorem pairwise_mergeLists {xs ys : List α} (left : xs.Pairwise (· < ·))
    (right : ys.Pairwise (· < ·))
    : (mergeLists xs ys).Pairwise (· < ·) := by
  induction xs generalizing ys with
  | nil => exact right
  | cons a xs ih =>
      exact pairwise_mergeFrom (fun ys b => mem_mergeLists xs ys b)
        (fun ys order => ih left.of_cons order) (List.pairwise_cons.mp left).1 right

/-- The members of both sets. -/
@[specialize]
def union (s t : SortedSet α) : SortedSet α :=
  ⟨mergeLists s.toList t.toList, pairwise_mergeLists s.ascending t.ascending⟩

instance : Union (SortedSet α) := ⟨union⟩

/-- The set with `a` as a further member. -/
def insert (a : α) (s : SortedSet α) : SortedSet α := (singleton a).union s

/-- Unites neighbours, which halves the number of sets. -/
@[specialize]
def unitePairs : List (SortedSet α) → List (SortedSet α)
  | s :: t :: rest => s.union t :: unitePairs rest
  | rest => rest

/-- The union of all sets, uniting neighbours for `rounds` rounds first. The number of rounds has
no influence on the result, only on how balanced the unions are.
-/
@[specialize]
def unionRounds : Nat → List (SortedSet α) → SortedSet α
  | 0, sets => sets.foldr union empty
  | rounds + 1, sets => unionRounds rounds (unitePairs sets)

/-- The union of all sets of a list. -/
@[specialize]
def unionAll (sets : List (SortedSet α)) : SortedSet α :=
  unionRounds (Nat.log2 sets.length + 1) sets

/-- The set of the elements of a list. -/
@[specialize]
def ofList (items : List α) : SortedSet α :=
  unionAll (items.map singleton)

/-- The members of a union are those of both sets; a merge has the members of both lists. -/
@[simp]
theorem mem_union {s t : SortedSet α} {a : α} : a ∈ s.union t ↔ a ∈ s ∨ a ∈ t :=
  mem_mergeLists s.toList t.toList a

/-- Uniting neighbours keeps the members; induction along pairs. -/
theorem exists_mem_unitePairs (sets : List (SortedSet α)) (a : α)
    : (∃ s ∈ unitePairs sets, a ∈ s) ↔ ∃ s ∈ sets, a ∈ s := by
  induction sets using unitePairs.induct with
  | case1 s t rest ih =>
      simp only [unitePairs, List.mem_cons, exists_eq_or_imp, mem_union, ih]
      grind
  | case2 rest other => cases rest <;> simp_all [unitePairs]

/-- A union in rounds has the members of all sets, whatever the number of rounds; induction on
the rounds.
-/
theorem mem_unionRounds (rounds : Nat) (sets : List (SortedSet α)) (a : α)
    : a ∈ unionRounds rounds sets ↔ ∃ s ∈ sets, a ∈ s := by
  induction rounds generalizing sets with
  | zero =>
      simp only [unionRounds]
      induction sets with
      | nil => exact ⟨fun h => (List.not_mem_nil h).elim, fun ⟨_, h, _⟩ => (List.not_mem_nil h).elim⟩
      | cons s rest ih => simp [ih]
  | succ rounds ih => rw [unionRounds, ih, exists_mem_unitePairs]

/-- A union of sets has the members of all of them. -/
@[simp]
theorem mem_unionAll {sets : List (SortedSet α)} {a : α}
    : a ∈ unionAll sets ↔ ∃ s ∈ sets, a ∈ s :=
  mem_unionRounds _ sets a

/-- The set of a list has the elements of the list as members. -/
@[simp]
theorem mem_ofList {items : List α} {a : α} : a ∈ ofList items ↔ a ∈ items := by
  simp only [ofList, mem_unionAll, List.mem_map]
  grind [mem_singleton]

end SortedSet

/-- An order in which the members of a collection are visited. -/
structure VisitOrder (α : Type) where
  /-- The members in the order of the visits. -/
  visit : List α → List α
  /-- Each member is visited, and nothing else. -/
  perm : ∀ members, (visit members).Perm members

/-- The members are visited as they are listed. -/
def VisitOrder.asListed {α : Type} : VisitOrder α := ⟨id, List.Perm.refl⟩

end KnowledgeCompiler
