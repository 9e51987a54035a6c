import KnowledgeCompiler.Proofs.Circuit.Flags

/-! Mapping nodes that name all variables of their children.

Such a mapping node has as many variables as its child, and each variable of the child can be reached from
outside. A new node keeps a circuit covered if its own names cover its child, and no growth repairs a node whose
names do not.
-/

namespace KnowledgeCompiler.Circuit

variable {c d : Circuit} {id child : NodeId} {gate : Gate} {names : Bijection}

/-- Every mapping node has global names for all variables of its child. -/
def Covered (c : Circuit) : Prop :=
  ∀ {id names child},
    c.gate? id = some (.mapping names child)
    → ∀ v, v ∈ c.varsOf child → (names.toGlobal.find? v).isSome = true

/-- The names of a gate cover the child. -/
def Covers (c : Circuit) : Gate → Prop
  | .mapping names child => ∀ v ∈ (c.varsOf child).toList, (names.toGlobal.find? v).isSome = true
  | .constant _ | .literal _ | .and _ | .or .. | .twoCnf _ | .horn _ => True

instance (c : Circuit) : (gate : Gate) → Decidable (c.Covers gate)
  | .mapping names child =>
      inferInstanceAs (Decidable (∀ v ∈ (c.varsOf child).toList, (names.toGlobal.find? v).isSome = true))
  | .constant _ | .literal _ | .and _ | .or .. | .twoCnf _ | .horn _ => inferInstanceAs (Decidable True)

/-- A circuit is covered if all of its gates are. -/
theorem covered_iff_covers : c.Covered ↔ ∀ {id gate}, c.gate? id = some gate → c.Covers gate := by
  constructor
  · intro covered id gate found
    cases gate with
    | mapping names child => exact fun v inside => covered found v inside
    | _ => trivial
  · exact fun each {id names child} found v inside => each found v inside

theorem covered_iff : c.Covered ↔ ∀ node ∈ c.nodes.toList, c.Covers node.gate :=
  covered_iff_covers.trans forall_gate_iff

instance (c : Circuit) : Decidable c.Covered := decidable_of_iff _ covered_iff.symm

/-- Gates without children name nothing. -/
theorem covers_of_childless (childless : gate.children = []) : c.Covers gate := by
  cases gate with
  | mapping names child => simp [Gate.children] at childless
  | _ => trivial

/-- Whether a gate is covered depends on the variables of the nodes below it. -/
theorem covers_congr (same : ∀ child ∈ gate.children, d.varsOf child = c.varsOf child)
    : d.Covers gate ↔ c.Covers gate := by
  cases gate with
  | mapping names child => rw [Covers, Covers, same child (List.mem_singleton_self child)]
  | constant value | literal l | and children | or decision children | twoCnf formula | horn formula => exact Iff.rfl

-----------------------------------------------------------------------------------------
-- Growth
-----------------------------------------------------------------------------------------

/-- A new node whose names cover its child. -/
theorem Covered.append {summary : Summary} (covered : c.Covered) (closed : c.Closed)
    (present : ∀ child ∈ gate.children, child < c.nodes.size) (covers : c.Covers gate)
    : (c.append gate summary).Covered := by
  have grown : c.Extends (c.append gate summary) := extends_append
  rw [covered_iff_covers] at covered ⊢
  intro id key found
  rcases gate?_append found with old | ⟨rfl, rfl⟩
  · refine (covers_congr fun child member => ?_).mpr (covered old)
    exact grown.varsOf (closed old child member)
  · exact (covers_congr fun child member => grown.varsOf (present child member)).mpr covers

/-- A circuit is covered if a larger one is. -/
theorem Extends.covered (grown : c.Extends d) (closed : c.Closed) (covered : d.Covered) : c.Covered := by
  rw [covered_iff_covers] at covered ⊢
  intro id gate found
  refine (covers_congr fun child member => ?_).mp (covered (grown.gate? found))
  exact grown.varsOf (closed found child member)

/-- The same nodes, apart from their parents and what they remember, are covered alike. -/
theorem Covered.of_bare (covered : c.Covered) (same : ∀ id, d.bare? id = c.bare? id) : d.Covered := by
  rw [covered_iff_covers] at covered ⊢
  intro id gate found
  obtain ⟨node, there, rfl⟩ := Option.map_eq_some_iff.mp found
  obtain ⟨other, before, gate, _⟩ := node?_of_bare? (same id).symm there
  refine (covers_congr fun child _ => varsOf_of_bare? (same child)).mpr ?_
  exact covered (gate ▸ gate?_of_node? before)

-----------------------------------------------------------------------------------------
-- What it means for a mapping node
-----------------------------------------------------------------------------------------

/-- A mapping node takes no variable of its child away: each has a global name, the node has as many variables as
the child, and a query that speaks about the variables of the node speaks about all variables of the child.
-/
structure Complete (c : Circuit) (id : NodeId) (names : Bijection) (child : NodeId) : Prop where
  named : ∀ v, v ∈ c.varsOf child → (names.toGlobal.find? v).isSome = true
  size : (c.varsOf id).size = (c.varsOf child).size
  reached : ∀ v, v ∈ c.varsOf child → ∃ w, w ∈ c.varsOf id ∧ names.toLocal.find? w = some v

/-- The variables of a mapping node are the global names of those of its child, if all of these have one. -/
theorem UpToDate.exists_global (upToDate : c.UpToDate) (found : c.gate? id = some (.mapping names child))
    (named : ∀ v, v ∈ c.varsOf child → (names.toGlobal.find? v).isSome = true)
    : ∃ global : Var → Var,
        (∀ v, v ∈ c.varsOf child → names.toGlobal.find? v = some (global v))
        ∧ Set.InjOn global ((c.varsOf child).toFinset : Set Var)
        ∧ (c.varsOf id).toFinset = (c.varsOf child).toFinset.image global := by
  let global : Var → Var := fun v => (names.toGlobal.find? v).getD 0
  have image (v : Var) (inside : v ∈ c.varsOf child) : names.toGlobal.find? v = some (global v) := by
    obtain ⟨w, found⟩ := Option.isSome_iff_exists.mp (named v inside)
    simp [global, found]
  refine ⟨global, image, fun u left v right same => ?_, ?_⟩
  · have first := image u (SortedSet.mem_toFinset.mp (Finset.mem_coe.mp left))
    rw [same] at first
    exact names.toGlobal_injective first (image v (SortedSet.mem_toFinset.mp (Finset.mem_coe.mp right)))
  · ext w
    rw [SortedSet.mem_toFinset, upToDate.mem_varsOf found, Finset.mem_image]
    refine exists_congr fun v => ?_
    rw [SortedSet.mem_toFinset]
    refine and_congr_right fun inside => ?_
    rw [image v inside, Option.some.injEq]

/-- In an up-to-date circuit names for all variables of the child are enough. -/
theorem UpToDate.complete (upToDate : c.UpToDate) (found : c.gate? id = some (.mapping names child))
    (named : ∀ v, v ∈ c.varsOf child → (names.toGlobal.find? v).isSome = true)
    : c.Complete id names child where
  named := named
  size := by
    obtain ⟨global, _, injective, vars⟩ := upToDate.exists_global found named
    rw [← SortedSet.card_toFinset, ← SortedSet.card_toFinset, vars, Finset.card_image_of_injOn injective]
  reached v inside := by
    obtain ⟨w, image⟩ := Option.isSome_iff_exists.mp (named v inside)
    exact ⟨w, (upToDate.mem_varsOf found).mpr ⟨v, inside, image⟩, names.toLocal_iff.mpr image⟩

/-- A circuit is covered just if all of its mapping nodes are complete. -/
theorem UpToDate.covered_iff_complete (upToDate : c.UpToDate)
    : c.Covered ↔ ∀ {id names child}, c.gate? id = some (.mapping names child) → c.Complete id names child :=
  ⟨fun covered {_ _ _} found => upToDate.complete found (covered found),
    fun complete {_ _ _} found => (complete found).named⟩

end KnowledgeCompiler.Circuit
