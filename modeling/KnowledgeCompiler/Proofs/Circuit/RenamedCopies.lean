import KnowledgeCompiler.Proofs.Circuit.CopyRuns

/-! Copies of sub-circuits under other names, and roots replaced by their copies.

A copy that expands nothing keeps all variables, so it is never refused, and it has all flags of the original. A root is
replaced by a copy that gives each variable its own name; so the circuit means what it meant, whatever is copied.
-/

namespace KnowledgeCompiler

open Relation
open KnowledgeCompiler.Build
open KnowledgeCompiler.Action (Yields Hinges)

namespace Circuit

variable {c d : Circuit} {id copied : NodeId} {names : Renaming} {expanding : Bool} {σ : Assignment}

-----------------------------------------------------------------------------------------
-- Circuits that can be copied
-----------------------------------------------------------------------------------------

/-- Between requests a circuit can be copied, if its names cover the variables, its Horn leaves flip variables of their
own and its numbers are in range.
-/
theorem Consistent.copyable (consistent : c.Consistent) (inRange : c.InRange) (covered : c.Covered)
    (flips : c.FlipsOwn)
    : c.Copyable where
  toUpToDate := consistent.upToDate
  inRange := inRange
  covered := covered
  decided := consistent.decided
  flipsOwn := flips

/-- A circuit can be copied again after it has grown. -/
theorem Copyable.advance (copyable : c.Copyable) (advances : c.Advances d) (enlarges : c.Enlarges d)
    : d.Copyable where
  toUpToDate := advances.upToDate
  inRange := advances.inRange
  covered := enlarges.covered copyable.covered
  decided := enlarges.decided copyable.decided
  flipsOwn := advances.flipsOwn copyable.flipsOwn

-----------------------------------------------------------------------------------------
-- Copies without expansion
-----------------------------------------------------------------------------------------

/-- A node of the second circuit is the copy of a node of the first one under other names. No node below it renames, and
none is a formula leaf if there was none.
-/
structure Renames (c d : Circuit) (names : Renaming) (id copied : NodeId) : Prop where
  present : copied < d.nodes.size
  satisfies : ∀ σ, d.Satisfies σ copied ↔ c.Satisfies (names.pull σ) id
  vars : ∀ w, w ∈ d.varsOf copied ↔ ∃ v, v ∈ c.varsOf id ∧ names.find? v = some w
  plain : d.Avoids (· == .mapping) copied
  formulaFree : c.Avoids NodeKind.isFormula id → d.Avoids NodeKind.isFormula copied
  flags
    : ∀ flag ∈ [Properties.decomposable, Properties.deterministic, Properties.smooth],
        flag (c.throughoutOf id) = true → flag (d.throughoutOf copied) = true

/-- Copies that expand formula leaves leave out what renames and what is a formula. -/
theorem avoids_removed_iff
    : c.Avoids (NodeKind.isRemoved true) id ↔ c.Avoids (· == .mapping) id ∧ c.Avoids NodeKind.isFormula id := by
  constructor
  · exact fun avoids => ⟨avoids.mono fun kind kept => by cases kind <;> simp_all [NodeKind.isRemoved],
      avoids.mono fun kind kept => by cases kind <;> simp_all [NodeKind.isRemoved, NodeKind.isFormula]⟩
  · rintro ⟨plain, free⟩ other path gate found
    have first := plain other path gate found
    have second := free other path gate found
    cases kind : gate.kind <;> simp_all [NodeKind.isRemoved, NodeKind.isFormula]

/-- What mirrors a node of which nothing is lost has all variables and all flags. -/
theorem Mirrors.renames (mirrors : c.Mirrors d expanding names id copied) (copyable : c.Copyable)
    (present : id < c.nodes.size) (intact : c.Intact expanding id)
    : c.Renames d names id copied where
  present := mirrors.present
  satisfies := mirrors.satisfies
  vars w := by simp only [mirrors.vars, intact.remains_iff copyable.toUpToDate]
  plain := (mirrors.avoids false nofun).mono fun kind kept => by cases kind <;> simp_all [NodeKind.isRemoved]
  formulaFree free := (avoids_removed_iff.mp (mirrors.avoids true fun _ => .inr free)).2
  flags := by
    simp only [List.forall_mem_cons]
    refine ⟨mirrors.decomposable, mirrors.deterministic, fun smooth => mirrors.smooth.mpr ?_, List.forall_mem_nil _⟩
    exact (intact.level_iff copyable.toUpToDate copyable.inRange present).mpr smooth

/-- Under its own names a sub-circuit means the same. -/
theorem UpToDate.satisfies_identity (upToDate : c.UpToDate)
    : c.Satisfies ((Renaming.identityOn (c.varsOf id)).pull σ) id ↔ c.Satisfies σ id :=
  upToDate.satisfies_congr fun _ inside => Renaming.pull_identityOn inside

/-- A copy under the same names has the same variables. -/
theorem Renames.varsOf (renames : c.Renames d (.identityOn (c.varsOf id)) id copied)
    : d.varsOf copied = c.varsOf id := by
  refine SortedSet.ext_mem fun w => ?_
  simp only [renames.vars, Renaming.find?_identityOn]
  grind

end Circuit

namespace Build

open Circuit

variable {c d : Circuit} {id root : NodeId} {names : Renaming} {expanding : Bool} {unwanted : NodeKind → Bool}

/-- Without expansion copies are never refused, and nothing is lost. -/
theorem copy_yields (copyable : c.Copyable) (present : id < c.nodes.size) (fits : names.Fits (c.varsOf id))
    : Yields (copy id names) c fun copied d => c.Renames d names id copied ∧ c.Enlarges d :=
  ((copyWith_hinges copyable present fits).yields (intact_of_copy.grounded copyable.decided)).mono
    fun _ _ ⟨⟨_, mirrors⟩, enlarges⟩ => ⟨mirrors.renames copyable present intact_of_copy, enlarges⟩

-----------------------------------------------------------------------------------------
-- Roots
-----------------------------------------------------------------------------------------

theorem dominated_spec (present : id < c.nodes.size)
    : Yields (dominated id) c fun ids d => c = d ∧ ids = c.dominated id := by
  rw [dominated, Action.discard_bind]
  refine (node_spec present).bind ?_
  rintro _ _ ⟨rfl, -⟩
  exact Yields.current (Yields.pure ⟨rfl, rfl⟩)

theorem setRoot_spec (upToDate : c.UpToDate) (inRange : c.InRange) (present : id < c.nodes.size)
    : Yields (setRoot id) c fun _ d => d.root = some id ∧ c.Advances d ∧ c.Enlarges d := by
  have chosen : Yields (setRoot id) c fun _ d => d.root = some id ∧ d.nodes = c.nodes := by
    rw [setRoot, Action.discard_bind]
    refine (node_spec present).bind ?_
    rintro _ _ ⟨rfl, -⟩
    exact Yields.updated ⟨root_refreshRoot _, (refreshRoot_frame { c with root := some id }).1⟩
  refine (((setRoot_grows id).enlarges upToDate.toWired).yields chosen).mono ?_
  rintro _ d ⟨⟨root, nodes⟩, enlarges⟩
  have gates (other : NodeId) : d.gate? other = c.gate? other :=
    congrArg (Option.map Node.gate) (node?_of_nodes nodes other)
  exact ⟨root, ⟨enlarges.extends_, enlarges.upToDate upToDate, fun {other _} found => inRange (gates other ▸ found),
    fun known {other _} found => known (gates other ▸ found)⟩, enlarges⟩

/-- None of the nodes below is of an unwanted kind. -/
theorem any_dominated_iff (wired : c.Wired) (present : id < c.nodes.size)
    : ((c.nodesOf (c.dominated id).toList).any fun node => unwanted node.kind) = false ↔ c.Avoids unwanted id := by
  rw [List.any_eq_false]
  constructor
  · intro none_ other path gate found
    obtain ⟨node, there, rfl⟩ := Option.map_eq_some_iff.mp found
    have listed := SortedSet.mem_toList.mpr ((wired.mem_dominated_iff present).mpr path)
    exact Bool.eq_false_iff.mpr (none_ node (mem_nodesOf.mpr ⟨other, listed, there⟩))
  · intro avoids node member
    obtain ⟨other, listed, there⟩ := mem_nodesOf.mp member
    have path := (wired.mem_dominated_iff present).mp (SortedSet.mem_toList.mp listed)
    exact Bool.eq_false_iff.mp (avoids other path node.gate (gate?_of_node? there))

/-- Replacing the root changes nothing if no node below it is unwanted. Otherwise it is refused just if a decision
variable gets lost, and the new root mirrors the old one.
-/
theorem replaceRoot_hinges (copyable : c.Copyable) (chosen : c.root = some root) (present : root < c.nodes.size)
    : Hinges (replaceRoot unwanted expanding) c (c.Avoids unwanted root ∨ c.Grounded expanding root)
        (fun _ d =>
          (c.Advances d ∧ c.Enlarges d)
          ∧ ((c.Avoids unwanted root ∧ c = d)
            ∨ ∃ new, d.root = some new ∧ c.Mirrors d expanding (.identityOn (c.varsOf root)) root new))
        LostVariable := by
  refine Hinges.current ?_
  rw [chosen]
  refine Hinges.after (dominated_spec present) ?_
  rintro _ _ ⟨rfl, rfl⟩
  refine Hinges.current ?_
  have kept : c.Avoids unwanted root
      ↔ ((c.nodesOf (c.dominated root).toList).any fun node => unwanted node.kind) = false :=
    (any_dominated_iff copyable.toWired present).symm
  cases some_ : (c.nodesOf (c.dominated root).toList).any fun node => unwanted node.kind with
  | false =>
      have avoids := kept.mpr some_
      rw [if_neg Bool.false_ne_true]
      exact Hinges.pure (.inl avoids) ⟨⟨copyable.advances, .refl copyable.toWired⟩, .inl ⟨avoids, rfl⟩⟩
  | true =>
      have unavoided : ¬ c.Avoids unwanted root := fun avoids => by simp [kept.mp avoids] at some_
      rw [if_pos rfl]
      refine Hinges.after (node_spec present) ?_
      rintro node _ ⟨rfl, found⟩
      rw [← varsOf_of_node? found]
      have fits : (Renaming.identityOn (c.varsOf root)).Fits (c.varsOf root) :=
        Renaming.fits_identityOn fun v => copyable.vars_bound copyable.inRange
      refine ((copyWith_hinges copyable present fits).andThen ?_).mono (or_iff_right unavoided).symm
        fun _ _ done => done
      rintro copied d ⟨⟨advances, mirrors⟩, enlarges⟩
      refine (setRoot_spec advances.upToDate advances.inRange mirrors.present).mono ?_
      rintro _ e ⟨new, step, larger⟩
      exact ⟨⟨advances.trans step, enlarges.trans larger⟩,
        .inr ⟨copied, new, mirrors.grow step.extends_ advances.upToDate.closed⟩⟩

/-- Without a root nothing is replaced. -/
theorem replaceRoot_yields_of_none (none_ : c.root = none)
    : Yields (replaceRoot unwanted expanding) c fun _ d => c = d := by
  refine Yields.current ?_
  rw [none_]
  exact Yields.pure rfl

/-- Replacing what renames below the root is never refused, and nothing is lost. -/
theorem expandMappings_yields (copyable : c.Copyable) (chosen : c.root = some root) (present : root < c.nodes.size)
    : Yields expandMappings c fun _ d =>
        (c.Advances d ∧ c.Enlarges d)
        ∧ ∃ new, d.root = some new ∧ c.Renames d (.identityOn (c.varsOf root)) root new := by
  refine ((replaceRoot_hinges copyable chosen present).yields (.inr (intact_of_copy.grounded copyable.decided))).mono ?_
  rintro _ d ⟨enlarges, ⟨avoids, rfl⟩ | ⟨new, replaced, mirrors⟩⟩
  · refine ⟨enlarges, root, chosen, present, fun σ => copyable.satisfies_identity.symm, fun w => ?_, avoids,
      fun free => free, fun flag _ holds => holds⟩
    simp only [Renaming.find?_identityOn]
    grind
  · exact ⟨enlarges, new, replaced, mirrors.renames copyable present intact_of_copy⟩

end Build

namespace Circuit

variable {s : Journaled Circuit}

-----------------------------------------------------------------------------------------
-- Copies between requests
-----------------------------------------------------------------------------------------

/-- Between requests each sub-circuit can be copied under names for its variables, no two of them the same. The copy
has the models of the original seen through the renaming, the images of its variables and its flags, no node below it
renames, and the nodes that were there change in their parents only. In the same way the root can be freed from nodes
that rename.
-/
theorem Reachable.copies_exact (reachable : s.state.Reachable) (inRange : s.state.InRange)
    (covered : s.state.Covered) (flips : s.state.FlipsOwn)
    : (∀ {id node names},
        s.state.node? id = some node
        → names.Fits node.vars
        → ∃ copied t, copy id names s = .ok copied t ∧ s.state.Renames t.state names id copied
          ∧ s.state.Undisturbed t.state)
      ∧ ∃ t, expandMappings s = .ok () t ∧ s.state.Undisturbed t.state
        ∧ (s.state.root = none → t.state = s.state)
        ∧ ∀ {root},
            s.state.root = some root
            → ∃ new, t.state.root = some new
              ∧ (∀ σ, t.state.Satisfies σ new ↔ s.state.Satisfies σ root)
              ∧ t.state.varsOf new = s.state.varsOf root
              ∧ (∀ flag ∈ [Properties.decomposable, Properties.deterministic, Properties.smooth],
                flag (s.state.throughoutOf root) = true → flag (t.state.throughoutOf new) = true)
              ∧ t.state.Avoids (· == .mapping) new := by
  have consistent := reachable.consistent
  have copyable := consistent.copyable inRange covered flips
  constructor
  · intro id node names found fits
    rw [← varsOf_of_node? found] at fits
    obtain ⟨copied, t, ran, renames, enlarges⟩ := copy_yields copyable (lt_of_node? found) fits s.journal
    exact ⟨copied, t, ran, renames, enlarges.undisturbed⟩
  · cases chosen : s.state.root with
    | none =>
        obtain ⟨_, t, ran, same⟩ := replaceRoot_yields_of_none chosen s.journal
        exact ⟨t, ran, same ▸ .refl s.state, fun _ => same.symm, nofun⟩
    | some root =>
        obtain ⟨_, t, ran, ⟨-, enlarges⟩, new, replaced, renames⟩ :=
          expandMappings_yields copyable chosen (consistent.rooted.present chosen) s.journal
        refine ⟨t, ran, enlarges.undisturbed, nofun, ?_⟩
        rintro _ ⟨⟩
        exact ⟨new, replaced, fun σ => (renames.satisfies σ).trans copyable.satisfies_identity, renames.varsOf,
          renames.flags, renames.plain⟩

/-- A Horn formula over two variables, the first of which is flipped. -/
def disjunctionOfTwo : Horn where
  clauses := [[-1, 2]]
  flipped := .ofList [1]
  horn := by decide

/-- A run that makes the conjunction of a renamed Horn leaf and a literal, and makes it the root. -/
def conjoinedRun : List Request :=
  [.horn disjunctionOfTwo, .mapping 0 renamedPair, .literal 5, .conjunction [1, 2], .setRoot 3]

/-- The state after that run. -/
def conjoined : Journaled Circuit := (Request.performAll conjoinedRun { state := .empty }).get (by decide +kernel)

theorem conjoined_reachable : conjoined.state.Reachable := by
  refine @Reachable.performAll conjoinedRun { state := .empty } conjoined .empty ?_ (Option.some_get _).symm
  simp [conjoinedRun, Request.Small]

theorem conjoined_inRange : conjoined.state.InRange := by decide +kernel

theorem conjoined_covered : conjoined.state.Covered := by decide +kernel

theorem conjoined_flipsOwn : conjoined.state.FlipsOwn := by decide +kernel

theorem conjoined_root : conjoined.state.root = some 3 := by decide +kernel

/-- The conjunction under other names, and without the node that renames. -/
theorem copies_exact_conjoined
    : (∃ copied t, copy 3 (.ofList [(3, 2), (4, 7), (5, 1)]) conjoined = .ok copied t
        ∧ conjoined.state.Renames t.state (.ofList [(3, 2), (4, 7), (5, 1)]) 3 copied)
      ∧ ∃ t new, expandMappings conjoined = .ok () t ∧ t.state.root = some new
        ∧ (∀ σ, t.state.Satisfies σ new ↔ conjoined.state.Satisfies σ 3) ∧ t.state.Avoids (· == .mapping) new := by
  obtain ⟨copies, t, ran, -, -, replaced⟩ :=
    conjoined_reachable.copies_exact conjoined_inRange conjoined_covered conjoined_flipsOwn
  have shape : (conjoined.state.node? 3).map Node.vars = some (.ofList [3, 4, 5]) := by decide +kernel
  obtain ⟨node, found, vars⟩ := Option.map_eq_some_iff.mp shape
  have fits : (Renaming.ofList [(3, 2), (4, 7), (5, 1)]).Fits node.vars := by
    rw [vars]
    decide +kernel
  obtain ⟨copied, t', ran', renames, -⟩ := copies found fits
  obtain ⟨new, root, satisfies, -, -, plain⟩ := replaced conjoined_root
  exact ⟨⟨copied, t', ran', renames⟩, t, new, ran, root, satisfies, plain⟩

end Circuit

end KnowledgeCompiler
