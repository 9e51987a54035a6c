import KnowledgeCompiler.LinkForest
import KnowledgeCompiler.Proofs.Roots
import KnowledgeCompiler.Proofs.SortedSet

/-! The classes of a forest of links.

Halving a path leaves the roots as they are, and linking two numbers joins their classes. So linking the numbers of
lists ties the numbers of each list, and the groups of a forest are the numbers with the same root.
-/

namespace KnowledgeCompiler.LinkForest

variable {forest : LinkForest} {node other target : Nat}

-----------------------------------------------------------------------------------------
-- Roots
-----------------------------------------------------------------------------------------

theorem parent_le (forest : LinkForest) (node : Nat) : forest.parent node ≤ node :=
  forest.descending node

theorem parent_lt (moves : forest.parent node ≠ node) : forest.parent node < node :=
  Nat.lt_of_le_of_ne (forest.parent_le node) moves

/-- The root above a number. -/
def root (forest : LinkForest) (node : Nat) : Nat :=
  if moves : forest.parent node ≠ node then
    have := parent_lt moves
    forest.root (forest.parent node)
  else node
termination_by node

theorem root_of_parent_eq (stays : forest.parent node = node) : forest.root node = node := by
  rw [root, dif_neg (not_not.mpr stays)]

/-- Climbing from parent to parent leads to the root. -/
theorem roots (forest : LinkForest) : Roots forest.parent forest.root where
  below := forest.parent_le
  top := root_of_parent_eq
  climb node := by
    by_cases stays : forest.parent node = node
    · rw [stays]
    · rw [root.eq_1 forest node, dif_pos stays]

theorem root_singletons (size node : Nat) : (singletons size).root node = node := by
  refine root_of_parent_eq ?_
  rw [parent, singletons, Array.getD_eq_getD_getElem?, Array.getElem?_range]
  split <;> simp

@[simp]
theorem size_singletons (size : Nat) : (singletons size).parents.size = size := by
  simp [singletons]

-----------------------------------------------------------------------------------------
-- Another parent
-----------------------------------------------------------------------------------------

@[simp]
theorem size_redirect (below : target ≤ node)
    : (forest.redirect node target below).parents.size = forest.parents.size := by
  simp [redirect]

theorem parent_redirect (forest : LinkForest) (below : target ≤ node) (other : Nat)
    : (forest.redirect node target below).parent other
      = if other = node ∧ node < forest.parents.size then target else forest.parent other := by
  simp only [parent, redirect, Array.getD_eq_getD_getElem?, Array.getElem?_setIfInBounds]
  by_cases same : node = other
  · subst same
    by_cases inside : node < forest.parents.size
    · simp [inside]
    · simp [inside]
  · simp [same, Ne.symm same]

/-- With a smaller parent of the same class no root changes. -/
theorem root_redirect_within (below : target < node) (same : forest.root target = forest.root node)
    : (forest.redirect node target (Nat.le_of_lt below)).root = forest.root := by
  refine forest.roots.eq_of_within (roots _) (fun other stays => ?_) (fun other => ?_)
  · rw [parent_redirect] at stays
    split at stays
    · omega
    · exact stays
  · rw [parent_redirect]
    split
    · rename_i here
      rw [here.1, same]
    · exact forest.roots.climb other

/-- The search finds the root and changes no root; induction on the number, since grandparents are
smaller.
-/
theorem find_spec (forest : LinkForest) (node : Nat)
    : (forest.find node).1 = forest.root node
      ∧ (forest.find node).2.root = forest.root
      ∧ (forest.find node).2.parents.size = forest.parents.size := by
  induction node using Nat.strongRecOn generalizing forest with
  | ind node ih =>
      rw [find]
      split
      · rename_i stays
        exact ⟨(root_of_parent_eq stays).symm, rfl, rfl⟩
      · rename_i moves
        have lower : forest.parent (forest.parent node) < node :=
          Nat.lt_of_le_of_lt (forest.parent_le _) (parent_lt moves)
        have same : forest.root (forest.parent (forest.parent node)) = forest.root node := by
          rw [forest.roots.climb, forest.roots.climb]
        have halved : (forest.redirect node _ (Nat.le_of_lt lower)).root = forest.root :=
          root_redirect_within lower same
        obtain ⟨found, kept, size⟩ := ih _ lower (forest.redirect node _ (Nat.le_of_lt lower))
        refine ⟨?_, ?_, ?_⟩
        · rw [found, halved, same]
        · rw [kept, halved]
        · rw [size, size_redirect]

/-- Linking two numbers joins their classes. -/
theorem link_spec (forest : LinkForest) {a b : Nat} (insideA : a < forest.parents.size)
    (insideB : b < forest.parents.size)
    : (forest.link a b).parents.size = forest.parents.size
      ∧ Joins a b forest.root (forest.link a b).root := by
  obtain ⟨first, kept, size⟩ := forest.find_spec a
  obtain ⟨second, kept', size'⟩ := (forest.find a).2.find_spec b
  rw [kept] at second kept'
  rw [size] at size'
  rw [link]
  dsimp only
  generalize (forest.find a).2.find b = found at second kept' size' ⊢
  rw [first, second]
  split
  · rename_i same
    rw [kept']
    exact ⟨size', .refl same⟩
  · rename_i apart
    have inside : max (forest.root a) (forest.root b) < found.2.parents.size := by
      rw [size']
      exact max_lt (Nat.lt_of_le_of_lt (forest.roots.le a) insideA)
        (Nat.lt_of_le_of_lt (forest.roots.le b) insideB)
    refine ⟨by rw [size_redirect, size'], ?_⟩
    rw [← kept'] at apart inside ⊢
    apply found.2.roots.joins (roots _) apart
    intro node
    simp only [parent_redirect, inside, and_true]

-----------------------------------------------------------------------------------------
-- Ties
-----------------------------------------------------------------------------------------

/-- What linking some pairs does to a forest: its size stays, and the roots are tied by the pairs. -/
structure Ties (pairs : Nat → Nat → Prop) (before after : LinkForest) : Prop
    extends KnowledgeCompiler.Ties pairs before.root after.root where
  size : after.parents.size = before.parents.size

theorem Ties.refl (forest : LinkForest) : Ties (fun _ _ => False) forest forest := ⟨.refl _, rfl⟩

theorem Ties.trans {first second : Nat → Nat → Prop} {a b c : LinkForest}
    (left : Ties first a b) (right : Ties second b c)
    : Ties (fun x y => first x y ∨ second x y) a c :=
  ⟨left.toTies.trans right.toTies, right.size.trans left.size⟩

/-- The same ties under another description of the pairs. -/
theorem Ties.congr {pairs pairs' : Nat → Nat → Prop} {a b : LinkForest} (ties : Ties pairs a b)
    (same : ∀ {x y}, pairs x y ↔ pairs' x y)
    : Ties pairs' a b :=
  ⟨ties.toTies.congr same, ties.size⟩

theorem link_ties (forest : LinkForest) {a b : Nat} (insideA : a < forest.parents.size)
    (insideB : b < forest.parents.size)
    : Ties (fun x y => x = a ∧ y = b) forest (forest.link a b) :=
  ⟨(forest.link_spec insideA insideB).2.ties, (forest.link_spec insideA insideB).1⟩

/-- Linking a number with others in turn; induction on the others. -/
theorem foldl_link_ties {first : Nat} (others : List Nat) (forest : LinkForest)
    (inside : first < forest.parents.size) (within : ∀ other ∈ others, other < forest.parents.size)
    : Ties (fun x y => x = first ∧ y ∈ others) forest
        (others.foldl (fun forest other => forest.link first other) forest) := by
  induction others generalizing forest with
  | nil => exact (Ties.refl forest).congr (by simp)
  | cons other rest ih =>
      obtain ⟨here, later⟩ := List.forall_mem_cons.mp within
      have ties := forest.link_ties inside here
      have rest' := ih (forest.link first other) (ties.size ▸ inside)
        (fun other member => ties.size ▸ later other member)
      exact (ties.trans rest').congr (by simp [and_or_left])

/-- The numbers of a list are linked with each other. -/
theorem linkAll_ties (forest : LinkForest) (members : List Nat)
    (inside : ∀ node ∈ members, node < forest.parents.size)
    : Ties (fun x y => x ∈ members ∧ y ∈ members) forest (forest.linkAll members) := by
  cases members with
  | nil => exact (Ties.refl forest).congr (by simp)
  | cons first others =>
      obtain ⟨here, later⟩ := List.forall_mem_cons.mp inside
      have ties := foldl_link_ties others forest here later
      have central : ∀ a ∈ first :: others, (forest.linkAll (first :: others)).root first
          = (forest.linkAll (first :: others)).root a :=
        List.forall_mem_cons.mpr ⟨rfl, fun a member => ties.joined ⟨rfl, member⟩⟩
      refine ⟨⟨ties.together, fun {a b} both => ?_, fun equivalence holds links => ?_⟩, ties.size⟩
      · exact (central a both.1).symm.trans (central b both.2)
      · refine ties.respects equivalence holds fun {a b} pair => links ⟨?_, ?_⟩
        · exact pair.1 ▸ List.mem_cons_self
        · exact List.mem_cons_of_mem _ pair.2

/-- Lists are linked in turn; induction on the lists. -/
theorem foldl_linkAll_ties (lists : List (List Nat)) (forest : LinkForest)
    (inside : ∀ members ∈ lists, ∀ node ∈ members, node < forest.parents.size)
    : Ties (fun x y => ∃ members ∈ lists, x ∈ members ∧ y ∈ members) forest
        (lists.foldl linkAll forest) := by
  induction lists generalizing forest with
  | nil => exact (Ties.refl forest).congr (by simp)
  | cons members rest ih =>
      obtain ⟨here, later⟩ := List.forall_mem_cons.mp inside
      have ties := forest.linkAll_ties members here
      have rest' := ih (forest.linkAll members)
        (fun members member node known => ties.size ▸ later members member node known)
      exact (ties.trans rest').congr (by simp)

-----------------------------------------------------------------------------------------
-- Groups
-----------------------------------------------------------------------------------------

/-- The groups while the numbers are gathered: the names of those seen so far, under their roots. -/
structure Gathering (forest : LinkForest) (seen : List (Var × Nat))
    (state : LinkForest × Std.TreeMap Nat (SortedSet Var)) : Prop where
  roots : state.1.root = forest.root
  named
    : ∀ {root : Nat} {v : Var}, (∃ group, state.2[root]? = some group ∧ v ∈ group)
        ↔ ∃ entry ∈ seen, entry.1 = v ∧ forest.root entry.2 = root
  inhabited : ∀ {root : Nat} {group}, state.2[root]? = some group → ∃ v, v ∈ group

theorem Gathering.group {seen : List (Var × Nat)}
    {state : LinkForest × Std.TreeMap Nat (SortedSet Var)} (gathering : Gathering forest seen state)
    (entry : Var × Nat)
    : Gathering forest (entry :: seen) (LinkForest.group state entry) := by
  obtain ⟨found, roots, -⟩ := state.1.find_spec entry.2
  rw [gathering.roots] at found roots
  have step : LinkForest.group state entry = ((state.1.find entry.2).2, state.2.alter (forest.root entry.2)
      fun found => some ((found.getD ∅).insert entry.1)) := by
    rw [LinkForest.group, ← found]
  rw [step]
  refine ⟨roots, fun {root v} => ?_, fun {root group} present => ?_⟩
  · simp only [Std.TreeMap.getElem?_alter, List.mem_cons, exists_eq_or_imp, ← gathering.named]
    by_cases same : forest.root entry.2 = root
    · subst same
      cases state.2[forest.root entry.2]? with
      | none => simp [eq_comm]
      | some group => simp [eq_comm]
    · simp [same]
  · rw [Std.TreeMap.getElem?_alter] at present
    split at present
    · cases present
      exact ⟨entry.1, SortedSet.mem_insert.mpr (.inl rfl)⟩
    · exact gathering.inhabited present

/-- Gathering names in turn; induction on the entries. -/
theorem Gathering.foldl_group {seen : List (Var × Nat)}
    {state : LinkForest × Std.TreeMap Nat (SortedSet Var)} (gathering : Gathering forest seen state)
    (entries : List (Var × Nat))
    : Gathering forest (entries.reverse ++ seen) (entries.foldl LinkForest.group state) := by
  induction entries generalizing seen state with
  | nil => exact gathering
  | cons entry rest ih =>
      rw [List.foldl_cons, List.reverse_cons, List.append_assoc]
      exact ih (gathering.group entry)

/-- The groups of a forest, by ascending root. Each is inhabited and has the names of the numbers with its
root, and each root of a named number has its group.
-/
theorem groups_spec (forest : LinkForest) (names : List Var)
    : ∃ found : List (Nat × SortedSet Var),
      forest.groups names = found.map Prod.snd
      ∧ found.Pairwise (fun a b => a.1 < b.1)
      ∧ (∀ entry ∈ found, (∃ v, v ∈ entry.2)
          ∧ ∀ v, v ∈ entry.2 ↔ ∃ place, names[place]? = some v ∧ forest.root place = entry.1)
      ∧ ∀ place v, names[place]? = some v → ∃ entry ∈ found, entry.1 = forest.root place := by
  have start : Gathering forest [] (forest, ∅) := ⟨rfl, by simp, by simp⟩
  have gathering := start.foldl_group names.zipIdx
  have listed : ∀ {place v}, (v, place) ∈ names.zipIdx.reverse ++ [] ↔ names[place]? = some v := by
    intro place v
    rw [List.append_nil, List.mem_reverse, List.mem_zipIdx_iff_getElem?]
  refine ⟨(names.zipIdx.foldl LinkForest.group (forest, ∅)).2.toList, rfl, ?_, fun entry member => ?_,
    fun place v here => ?_⟩
  · exact Std.TreeMap.ordered_keys_toList.imp fun before => Nat.compare_eq_lt.mp before
  · have present := Std.TreeMap.mem_toList_iff_getElem?_eq_some.mp member
    refine ⟨gathering.inhabited present, fun v => ?_⟩
    calc
      v ∈ entry.2
      _ ↔ ∃ group, (names.zipIdx.foldl LinkForest.group (forest, ∅)).2[entry.1]? = some group ∧ v ∈ group := by
        simp [present]
      _ ↔ ∃ other ∈ names.zipIdx.reverse ++ [], other.1 = v ∧ forest.root other.2 = entry.1 :=
        gathering.named
      _ ↔ ∃ place, names[place]? = some v ∧ forest.root place = entry.1 := by
        constructor
        · rintro ⟨⟨name, place⟩, known, rfl, same⟩
          exact ⟨place, listed.mp known, same⟩
        · rintro ⟨place, known, same⟩
          exact ⟨(v, place), listed.mpr known, rfl, same⟩
  · obtain ⟨group, present, -⟩ := gathering.named.mpr ⟨(v, place), listed.mpr here, rfl, rfl⟩
    exact ⟨(forest.root place, group), Std.TreeMap.mem_toList_iff_getElem?_eq_some.mpr present, rfl⟩

end KnowledgeCompiler.LinkForest
