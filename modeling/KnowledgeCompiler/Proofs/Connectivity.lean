import KnowledgeCompiler.Proofs.Components

/-! Splitting clauses and splitting a residual formula compute the same connectivity.

One search visits clauses and the other one links variables. Both put two variables into one block exactly if a
chain of clauses links them, and a partition that does so is unique up to the order of its blocks.
-/

namespace KnowledgeCompiler

variable {clauses : Clauses} {blocks others : List (SortedSet Var)}

-----------------------------------------------------------------------------------------
-- Uniqueness
-----------------------------------------------------------------------------------------

/-- The members of a block are what any one of them is linked with. -/
theorem Connects.mem_iff (connects : Connects clauses blocks) {block : SortedSet Var}
    (listed : block ∈ blocks) {v w : Var} (inside : v ∈ block)
    : w ∈ block ↔ clauses.Linked v w := by
  constructor
  · intro member
    exact (connects.linked v w).mp ⟨block, listed, inside, member⟩
  · intro linked
    obtain ⟨other, listed', inside', member⟩ := (connects.linked v w).mpr linked
    by_contra outside
    have differ : block ≠ other := fun same => outside (same ▸ member)
    exact connects.apart.forall listed listed' differ v inside inside'

/-- Every block is also a block of another partition. -/
theorem Connects.subset (connects : Connects clauses blocks) (connects' : Connects clauses others)
    : blocks ⊆ others := by
  intro block listed
  obtain ⟨v, inside⟩ := connects.inhabited block listed
  have occurs := (connects.covers v).mpr ⟨block, listed, inside⟩
  obtain ⟨other, listed', inside'⟩ := (connects'.covers v).mp occurs
  have same : block = other := SortedSet.ext_mem fun w =>
    (connects.mem_iff listed inside).trans (connects'.mem_iff listed' inside').symm
  exact same ▸ listed'

theorem Connects.nodup (connects : Connects clauses blocks) : blocks.Nodup := by
  refine connects.apart.imp_of_mem fun {s t} listed _ apart same => ?_
  obtain ⟨v, inside⟩ := connects.inhabited s listed
  exact apart v inside (same ▸ inside)

/-- Two partitions into classes of linked variables have the same blocks. -/
theorem Connects.perm (connects : Connects clauses blocks) (connects' : Connects clauses others)
    : blocks.Perm others :=
  (List.perm_ext_iff_of_nodup connects.nodup connects'.nodup).mpr fun _ =>
    ⟨fun listed => connects.subset connects' listed, fun listed => connects'.subset connects listed⟩

-----------------------------------------------------------------------------------------
-- Components of clauses
-----------------------------------------------------------------------------------------

/-- Along a chain of clauses one never leaves a component; induction on the chain. -/
theorem Clauses.Linked.same_component {v w : Var} (linked : clauses.Linked v w)
    : ∃ part ∈ clauses.components, v ∈ part.1.vars ∧ w ∈ part.1.vars := by
  obtain ⟨members, -, apart⟩ := clauses.components_spec
  have home : ∀ {p}, p < clauses.length
      → ∃ part ∈ clauses.components, ∀ u, clauses.OccursAt u p → u ∈ part.1.vars := by
    intro p inside
    obtain ⟨part, known, listed⟩ := (members clauses[p]).mp (List.getElem_mem inside)
    refine ⟨part, known, ?_⟩
    rintro u ⟨clause, found, l, member, rfl⟩
    obtain ⟨_, rfl⟩ := List.getElem?_eq_some_iff.mp found
    exact Clauses.var_mem_vars listed member
  obtain ⟨p, q, first, last, chain⟩ := linked
  induction chain generalizing w with
  | refl =>
      obtain ⟨part, known, holds⟩ := home first.lt
      exact ⟨part, known, holds v first, holds w last⟩
  | tail _ related ih =>
      obtain ⟨u, here, there⟩ := related
      obtain ⟨part, known, left, middle⟩ := ih here
      obtain ⟨other, known', holds⟩ := home last.lt
      have same : part = other := by
        by_contra differ
        have disjoint : Std.Symm fun a b : Clauses × SortedSet Var => ∀ v, v ∈ a.1.vars → ¬ v ∈ b.1.vars :=
          ⟨fun _ _ apart v right left => apart v left right⟩
        exact apart.forall known known' differ u middle (holds u there)
      exact ⟨part, known, left, same ▸ holds w last⟩

/-- The variables of the components of clauses are the classes of linked variables, if no clause is empty. -/
theorem connects_parts (nonempty : ¬ [] ∈ clauses)
    : Connects clauses (clauses.components.map Prod.snd) := by
  obtain ⟨members, each, apart⟩ := clauses.components_spec
  have own : ∀ {part v}, part ∈ clauses.components → (v ∈ part.2 ↔ v ∈ part.1.vars) := by
    intro part v known
    rw [(each part known).2]
  refine ⟨?_, ?_, fun v => ⟨?_, ?_⟩, fun v w => ⟨?_, ?_⟩⟩
  · refine List.forall_mem_map.mpr fun part known => ?_
    obtain ⟨clause, listed⟩ := List.exists_mem_of_ne_nil _ (each part known).1
    cases clause with
    | nil => exact absurd ((members []).mpr ⟨part, known, listed⟩) nonempty
    | cons l rest => exact ⟨l.var, (own known).mpr (Clauses.var_mem_vars listed List.mem_cons_self)⟩
  · refine List.pairwise_map.mpr (apart.imp_of_mem fun {a b} left right disjoint v here there => ?_)
    exact disjoint v ((own left).mp here) ((own right).mp there)
  · intro occurs
    obtain ⟨part, known, inside, -⟩ := (Clauses.Linked.refl occurs).same_component
    exact ⟨part.2, List.mem_map_of_mem known, (own known).mpr inside⟩
  · rintro ⟨block, listed, inside⟩
    obtain ⟨part, known, rfl⟩ := List.mem_map.mp listed
    obtain ⟨clause, member, l, occurs, rfl⟩ := Clauses.mem_vars.mp ((own known).mp inside)
    exact Clauses.var_mem_vars ((members clause).mpr ⟨part, known, member⟩) occurs
  · rintro ⟨block, listed, left, right⟩
    obtain ⟨part, known, rfl⟩ := List.mem_map.mp listed
    exact Clauses.linked_of_component known ((own known).mp left) ((own known).mp right)
  · intro linked
    obtain ⟨part, known, left, right⟩ := linked.same_component
    exact ⟨part.2, List.mem_map_of_mem known, (own known).mpr left, (own known).mpr right⟩

-----------------------------------------------------------------------------------------
-- Both together
-----------------------------------------------------------------------------------------

/-- The components of a residual formula are the classes of variables that chains of clauses link, by
ascending smallest variable. Splitting clauses puts each of them into one component once, the components have
no variable in common, and their own variables are the components of the residual formula of the clauses.
-/
theorem components_compute_connectivity
    : (∀ g : Residual, Connects g.current g.components ∧ Ascending g.components)
      ∧ ∀ clauses : Clauses, ¬ [] ∈ clauses
        → (clauses.components.map Prod.fst).flatten.Perm clauses
          ∧ (∀ part ∈ clauses.components, part.2 = part.1.vars)
          ∧ (clauses.components.map Prod.snd).Pairwise Apart
          ∧ (clauses.components.map Prod.snd).Perm (Residual.ofClauses clauses).components := by
  refine ⟨fun g => ⟨g.connects_components, g.ascending_components⟩, fun clauses nonempty => ?_⟩
  have parts := connects_parts nonempty
  have whole := (Residual.ofClauses clauses).connects_components
  rw [Residual.current_ofClauses] at whole
  exact ⟨clauses.components_perm, fun part known => (clauses.components_spec.2.1 part known).2,
    parts.apart, parts.perm whole⟩

/-- Four clauses that fall into two parts. -/
theorem components_compute_connectivity_two_parts
    : ¬ [] ∈ [[1, 2], [4, 5], [-1, 3], [-5, 6]]
      ∧ (Clauses.components [[1, 2], [4, 5], [-1, 3], [-5, 6]]).map Prod.snd
        = [SortedSet.ofList [1, 2, 3], SortedSet.ofList [4, 5, 6]]
      ∧ ((Clauses.components [[1, 2], [4, 5], [-1, 3], [-5, 6]]).map Prod.snd).Perm
        (Residual.ofClauses [[1, 2], [4, 5], [-1, 3], [-5, 6]]).components := by
  have nonempty : ¬ [] ∈ ([[1, 2], [4, 5], [-1, 3], [-5, 6]] : Clauses) := by decide
  exact ⟨nonempty, by decide +kernel, (components_compute_connectivity.2 _ nonempty).2.2.2⟩

end KnowledgeCompiler
