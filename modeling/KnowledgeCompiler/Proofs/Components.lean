import Mathlib.Data.List.Pairwise
import KnowledgeCompiler.Proofs.Connected
import KnowledgeCompiler.Proofs.LinkForest
import KnowledgeCompiler.Proofs.Residual

/-! The components of a residual formula are the classes of variables that chains of clauses link.

The forest links the places of the variables of each clause. Two places have the same root exactly if a chain of
clauses leads from the one variable to the other, and the smallest place of a class is its root, so the classes
come by their smallest variables.
-/

namespace KnowledgeCompiler

/-- Two sets without a common member. -/
def Apart (s t : SortedSet Var) : Prop := ∀ v, v ∈ s → ¬ v ∈ t

theorem Apart.symm {s t : SortedSet Var} (apart : Apart s t) : Apart t s :=
  fun v right left => apart v left right

instance : Std.Symm Apart := ⟨fun _ _ => Apart.symm⟩

/-- The blocks of a partition of the variables of some clauses in which two variables share a block
exactly if a chain of clauses links them.
-/
structure Connects (clauses : Clauses) (blocks : List (SortedSet Var)) : Prop where
  inhabited : ∀ block ∈ blocks, ∃ v, v ∈ block
  apart : blocks.Pairwise Apart
  covers : ∀ v, v ∈ clauses.vars ↔ ∃ block ∈ blocks, v ∈ block
  linked : ∀ v w, (∃ block ∈ blocks, v ∈ block ∧ w ∈ block) ↔ clauses.Linked v w

/-- Sets by ascending smallest member: in each of them some member is below all members of a later one. -/
def Ascending (blocks : List (SortedSet Var)) : Prop :=
  blocks.Pairwise fun s t => ∃ v, v ∈ s ∧ ∀ w, w ∈ t → v < w

-----------------------------------------------------------------------------------------
-- Components
-----------------------------------------------------------------------------------------

namespace Residual

variable {g : Residual} {a b : Nat} {v w : Var}

/-- The place of a variable. -/
def place (g : Residual) (v : Var) : Nat := g.places.getD v 0

/-- A variable is at its place. -/
theorem getElem?_place (occurs : v ∈ g.vars) : g.vars.toList[g.place v]? = some v := by
  obtain ⟨place, here⟩ := List.getElem?_of_mem occurs
  have listed : (v, place) ∈ g.vars.toList.zipIdx := List.mem_zipIdx_iff_getElem?.mpr here
  have distinct : g.vars.toList.zipIdx.Pairwise fun a b => ¬ compare a.1 b.1 = .eq := by
    have names : (g.vars.toList.zipIdx.map Prod.fst).Pairwise (· ≠ ·) := by
      rw [List.zipIdx_map_fst]
      exact g.vars.nodup
    exact (List.pairwise_map.mp names).imp fun differ same => differ (Nat.compare_eq_eq.mp same)
  have found : g.places[v]? = some place :=
    Std.TreeMap.getElem?_ofList_of_mem (k := v) (by simp) distinct listed
  rw [Residual.place, Std.TreeMap.getD_eq_getD_getElem?, found]
  exact here

theorem place_unique (left : g.vars.toList[a]? = some v) (right : g.vars.toList[b]? = some v)
    : a = b := by
  obtain ⟨inside, here⟩ := List.getElem?_eq_some_iff.mp left
  obtain ⟨inside', there⟩ := List.getElem?_eq_some_iff.mp right
  exact g.vars.nodup.getElem_inj_iff.mp (here.trans there.symm)

theorem place_lt (occurs : v ∈ g.vars) : g.place v < g.vars.size :=
  (List.getElem?_eq_some_iff.mp (getElem?_place occurs)).1

/-- What ties places: two variables of one clause. -/
theorem links_ties (g : Residual)
    : LinkForest.Ties
        (fun a b => ∃ p v w, g.current.OccursAt v p ∧ g.current.OccursAt w p
          ∧ g.place v = a ∧ g.place w = b)
        (.singletons g.vars.size) g.links := by
  have inside : ∀ members ∈ g.current.map fun clause => clause.map fun l => g.place l.var,
      ∀ node ∈ members, node < (LinkForest.singletons g.vars.size).parents.size := by
    intro members listed node member
    obtain ⟨clause, known, rfl⟩ := List.mem_map.mp listed
    obtain ⟨l, occurs, rfl⟩ := List.mem_map.mp member
    rw [LinkForest.size_singletons]
    exact place_lt (Clauses.var_mem_vars known occurs)
  have ties := LinkForest.foldl_linkAll_ties _ _ inside
  rw [List.foldl_map] at ties
  refine ties.congr fun {a b} => ?_
  constructor
  · rintro ⟨members, listed, left, right⟩
    obtain ⟨clause, known, rfl⟩ := List.mem_map.mp listed
    obtain ⟨l, here, rfl⟩ := List.mem_map.mp left
    obtain ⟨k, there, rfl⟩ := List.mem_map.mp right
    obtain ⟨p, found⟩ := List.getElem?_of_mem known
    exact ⟨p, l.var, k.var, ⟨clause, found, l, here, rfl⟩, ⟨clause, found, k, there, rfl⟩, rfl, rfl⟩
  · rintro ⟨p, v, w, ⟨clause, found, l, here, rfl⟩, ⟨clause', found', k, there, rfl⟩, rfl, rfl⟩
    obtain rfl : clause = clause' := Option.some.inj (found.symm.trans found')
    exact ⟨_, List.mem_map_of_mem (List.mem_of_getElem? found), List.mem_map_of_mem here,
      List.mem_map_of_mem there⟩

/-- Places with the same root have linked variables: being one place or having linked variables is an
equivalence that has all links.
-/
theorem linked_of_root_eq (left : g.vars.toList[a]? = some v) (right : g.vars.toList[b]? = some w)
    (same : g.links.root a = g.links.root b)
    : g.current.Linked v w := by
  let tied (a b : Nat) : Prop :=
    a = b ∨ ∃ v w, g.vars.toList[a]? = some v ∧ g.vars.toList[b]? = some w ∧ g.current.Linked v w
  have equivalence : Equivalence tied := by
    refine ⟨fun _ => .inl rfl, ?_, ?_⟩
    · rintro a b (rfl | ⟨v, w, left, right, linked⟩)
      · exact .inl rfl
      · exact .inr ⟨w, v, right, left, linked.symm⟩
    · rintro a b c (rfl | ⟨u, v, left, middle, linked⟩) (rfl | ⟨v', w, middle', right, linked'⟩)
      · exact .inl rfl
      · exact .inr ⟨v', w, middle', right, linked'⟩
      · exact .inr ⟨u, v, left, middle, linked⟩
      · obtain rfl : v = v' := Option.some.inj (middle.symm.trans middle')
        exact .inr ⟨u, w, left, right, linked.trans linked'⟩
  have respects : ∀ node, tied node (g.links.root node) := by
    refine g.links_ties.respects equivalence
      (fun node => .inl (LinkForest.root_singletons _ node).symm) ?_
    rintro _ _ ⟨p, v, w, here, there, rfl, rfl⟩
    exact .inr ⟨v, w, getElem?_place (Clauses.mem_vars_iff.mpr ⟨p, here⟩),
      getElem?_place (Clauses.mem_vars_iff.mpr ⟨p, there⟩), .within here there⟩
  have related : tied a b :=
    equivalence.trans (respects a) (equivalence.symm (same ▸ respects b))
  rcases related with rfl | ⟨v', w', left', right', linked⟩
  · obtain rfl : v = w := Option.some.inj (left.symm.trans right)
    exact .refl (List.mem_of_getElem? left)
  · obtain rfl : v = v' := Option.some.inj (left.symm.trans left')
    obtain rfl : w = w' := Option.some.inj (right.symm.trans right')
    exact linked

/-- Two places have the same root exactly if their variables are linked. -/
theorem root_links_iff (left : g.vars.toList[a]? = some v) (right : g.vars.toList[b]? = some w)
    : g.links.root a = g.links.root b ↔ g.current.Linked v w := by
  refine ⟨linked_of_root_eq left right, fun linked => ?_⟩
  have at_place : ∀ {place u}, g.vars.toList[place]? = some u → place = g.place u :=
    fun here => place_unique here (getElem?_place (List.mem_of_getElem? here))
  rw [at_place left, at_place right]
  exact linked.map_eq (f := fun u => g.links.root (g.place u)) fun here there =>
    g.links_ties.joined ⟨_, _, _, here, there, rfl, rfl⟩

/-- The groups of the forest: each has a root, which is the place of its smallest variable, and its members
are the variables with this root.
-/
theorem exists_classes (g : Residual)
    : ∃ found : List (Nat × SortedSet Var),
      g.components = found.map Prod.snd
      ∧ found.Pairwise (fun a b => a.1 < b.1)
      ∧ (∀ entry ∈ found, ∃ least, g.vars.toList[entry.1]? = some least ∧ least ∈ entry.2)
      ∧ (∀ entry ∈ found, ∀ v,
          v ∈ entry.2 ↔ ∃ place, g.vars.toList[place]? = some v ∧ g.links.root place = entry.1)
      ∧ ∀ v, v ∈ g.vars → ∃ entry ∈ found, v ∈ entry.2 := by
  obtain ⟨found, shape, keys, groups, complete⟩ := g.links.groups_spec g.vars.toList
  refine ⟨found, shape, keys, fun entry member => ?_, fun entry member => (groups entry member).2,
    fun v occurs => ?_⟩
  · obtain ⟨⟨v, inside⟩, members⟩ := groups entry member
    obtain ⟨place, here, root⟩ := (members v).mp inside
    have low : entry.1 < g.vars.toList.length := by
      rw [← root]
      exact Nat.lt_of_le_of_lt (g.links.roots.le place) (List.getElem?_eq_some_iff.mp here).1
    have top : g.links.root entry.1 = entry.1 := by rw [← root, g.links.roots.root_root]
    have there := List.getElem?_eq_getElem low
    exact ⟨_, there, (members _).mpr ⟨entry.1, there, top⟩⟩
  · have here := getElem?_place occurs
    obtain ⟨entry, member, key⟩ := complete _ v here
    exact ⟨entry, member, ((groups entry member).2 v).mpr ⟨_, here, key.symm⟩⟩

/-- The components are the classes of linked variables. -/
theorem connects_components (g : Residual) : Connects g.current g.components := by
  obtain ⟨found, shape, keys, roots, members, complete⟩ := g.exists_classes
  rw [shape]
  refine ⟨?_, ?_, fun v => ⟨?_, ?_⟩, fun v w => ⟨?_, ?_⟩⟩
  · refine List.forall_mem_map.mpr fun entry member => ?_
    obtain ⟨least, -, inside⟩ := roots entry member
    exact ⟨least, inside⟩
  · refine List.pairwise_map.mpr (keys.imp_of_mem fun {s t} inS inT below v left right => ?_)
    obtain ⟨a, here, root⟩ := (members s inS v).mp left
    obtain ⟨b, there, root'⟩ := (members t inT v).mp right
    rw [place_unique here there] at root
    omega
  · intro occurs
    obtain ⟨entry, member, inside⟩ := complete v occurs
    exact ⟨entry.2, List.mem_map_of_mem member, inside⟩
  · rintro ⟨block, listed, inside⟩
    obtain ⟨entry, member, rfl⟩ := List.mem_map.mp listed
    obtain ⟨place, here, -⟩ := (members entry member v).mp inside
    exact List.mem_of_getElem? here
  · rintro ⟨block, listed, left, right⟩
    obtain ⟨entry, member, rfl⟩ := List.mem_map.mp listed
    obtain ⟨a, here, root⟩ := (members entry member v).mp left
    obtain ⟨b, there, root'⟩ := (members entry member w).mp right
    exact linked_of_root_eq here there (root.trans root'.symm)
  · intro linked
    obtain ⟨entry, member, inside⟩ := complete v linked.left
    obtain ⟨a, here, root⟩ := (members entry member v).mp inside
    have there := getElem?_place linked.right
    have same := (root_links_iff here there).mpr linked
    exact ⟨entry.2, List.mem_map_of_mem member, inside,
      (members entry member w).mpr ⟨_, there, same.symm.trans root⟩⟩

/-- The components are listed by their smallest variables, whose places are their roots. -/
theorem ascending_components (g : Residual) : Ascending g.components := by
  obtain ⟨found, shape, keys, roots, members, -⟩ := g.exists_classes
  rw [shape]
  refine List.pairwise_map.mpr (keys.imp_of_mem fun {s t} inS inT below => ?_)
  obtain ⟨least, here, inside⟩ := roots s inS
  refine ⟨least, inside, fun w member => ?_⟩
  obtain ⟨place, there, root⟩ := (members t inT w).mp member
  obtain ⟨low, rfl⟩ := List.getElem?_eq_some_iff.mp here
  obtain ⟨high, rfl⟩ := List.getElem?_eq_some_iff.mp there
  have order : s.1 < place := Nat.lt_of_lt_of_le below (root ▸ g.links.roots.le place)
  exact List.pairwise_iff_getElem.mp g.vars.ascending _ _ _ _ order

/-- Every clause that is not empty lies within one component. -/
theorem exists_component {clause : Clause} (inside : clause ∈ g.current) {l : Lit}
    (member : l ∈ clause)
    : ∃ component ∈ g.components, ∀ k ∈ clause, k.var ∈ component := by
  have occurs := Clauses.var_mem_vars inside member
  obtain ⟨component, found, here⟩ := (g.connects_components.covers l.var).mp occurs
  refine ⟨component, found, fun k other => ?_⟩
  obtain ⟨p, at_⟩ := List.getElem?_of_mem inside
  have linked : g.current.Linked l.var k.var :=
    .within ⟨clause, at_, l, member, rfl⟩ ⟨clause, at_, k, other, rfl⟩
  obtain ⟨block, found', here', there⟩ := (g.connects_components.linked _ _).mpr linked
  by_contra outside
  have differ : component ≠ block := fun same => outside (same ▸ there)
  exact g.connects_components.apart.forall found found' differ l.var here here'

/-- The variables of a component occur. -/
theorem mem_vars_of_component {component : SortedSet Var} (found : component ∈ g.components)
    (member : v ∈ component)
    : v ∈ g.vars :=
  (g.connects_components.covers v).mpr ⟨component, found, member⟩

/-- A variable is in one component only. -/
theorem component_unique {component other : SortedSet Var} (found : component ∈ g.components)
    (found' : other ∈ g.components) (left : v ∈ component) (right : v ∈ other)
    : component = other := by
  by_contra differ
  exact g.connects_components.apart.forall found found' differ v left right

theorem component_inhabited {component : SortedSet Var} (found : component ∈ g.components)
    : ∃ v, v ∈ component :=
  g.connects_components.inhabited component found

theorem mem_unionAll_components : v ∈ SortedSet.unionAll g.components ↔ v ∈ g.vars := by
  rw [SortedSet.mem_unionAll]
  exact (g.connects_components.covers v).symm

/-- A clause with a literal over a component lies within the component. -/
theorem within_component {component : SortedSet Var} (found : component ∈ g.components)
    {clause : Clause} (inside : clause ∈ g.current) {l : Lit} (member : l ∈ clause)
    (touches : l.var ∈ component)
    : ∀ k ∈ clause, k.var ∈ component := by
  obtain ⟨other, found', holds⟩ := exists_component inside member
  rw [component_unique found found' touches (holds l member)]
  exact holds

end Residual

end KnowledgeCompiler
