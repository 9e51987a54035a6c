import KnowledgeCompiler.Proofs.Action
import KnowledgeCompiler.Proofs.Circuit.Derivation
import KnowledgeCompiler.Proofs.Circuit.Summary

/-! Regular circuits, and how they grow.

In a coherent circuit every gate fits the nodes below it and the derived data list its variables and
conjuncts; in a regular circuit the derived data are up to date besides. Adding a node to a regular circuit
leads to a regular circuit that extends it.
-/

namespace KnowledgeCompiler

namespace Circuit

variable {c d : Circuit} {id : NodeId} {node : Node} {gate : Gate}

-----------------------------------------------------------------------------------------
-- Regular circuits
-----------------------------------------------------------------------------------------

/-- The whole sub-circuit of a node is smooth, by its derived data. -/
def Smooth (c : Circuit) (id : NodeId) : Prop :=
  ∀ {node}, c.node? id = some node → node.throughout.smooth = true

/-- A wired circuit in which every gate fits the nodes below it. -/
structure Coherent (c : Circuit) : Prop extends c.Wired where
  ascending : ∀ {id gate}, c.gate? id = some gate → gate.children.Pairwise (· < ·)
  admits : ∀ {id gate}, c.gate? id = some gate → c.Admits gate
  describes : ∀ {id node}, c.node? id = some node → c.Describes node.gate node.summary
  sound : ∀ {id}, id < c.nodes.size → c.Sound id
  unasked : ∀ {id node}, c.node? id = some node → node.memo = {}
  sharing : c.sharing = true

/-- A circuit as it is between operations: the derived data are up to date. -/
structure Regular (c : Circuit) : Prop extends c.Coherent where
  derived : ∀ id, c.Derived id

theorem Regular.empty : Circuit.empty.Regular where
  toWired := .empty
  ascending found := by simp [gate?, node?, Circuit.empty] at found
  admits found := by simp [gate?, node?, Circuit.empty] at found
  describes found := by simp [node?, Circuit.empty] at found
  sound present := absurd present (by simp [Circuit.empty])
  unasked found := by simp [node?, Circuit.empty] at found
  sharing := rfl
  derived := UpToDate.empty.derived

theorem Regular.upToDate (regular : c.Regular) : c.UpToDate := ⟨regular.toWired, regular.derived⟩

/-- The table knows nodes by their gates. -/
theorem Coherent.gate?_of_find? {key : Gate} (coherent : c.Coherent)
    (found : c.table.find? key = some id)
    : c.gate? id = some key := by
  obtain ⟨gate, there, signed⟩ := coherent.table found
  rwa [eq_of_signature? (coherent.ascending there) signed]

/-- The variables of a node are those that its gate mentions. -/
theorem Coherent.mem_varsOf (coherent : c.Coherent) (found : c.gate? id = some gate) {v : Var}
    : v ∈ c.varsOf id ↔ c.Mentions v gate := by
  obtain ⟨node, present, rfl⟩ := Option.map_eq_some_iff.mp found
  rw [varsOf_of_node? present]
  exact (coherent.describes present).vars

/-- The conjuncts of a node are those that its gate forces. -/
theorem Coherent.mem_conjunctsOf (coherent : c.Coherent) (found : c.gate? id = some gate) {l : Lit}
    : l ∈ c.conjunctsOf id ↔ c.Forces l gate := by
  obtain ⟨node, present, rfl⟩ := Option.map_eq_some_iff.mp found
  rw [conjunctsOf_of_node? present]
  exact (coherent.describes present).conjuncts

/-- The variable of a conjunct is a variable of the node; induction from the children upwards. -/
theorem Coherent.var_of_conjunct (coherent : c.Coherent) {l : Lit} (forced : l ∈ c.conjunctsOf id)
    : l.var ∈ c.varsOf id := by
  induction id using coherent.acyclic.induction generalizing l with
  | _ id ih =>
      cases found : c.gate? id with
      | none =>
          have missing : c.node? id = none := by simpa [gate?] using found
          simp [conjunctsOf, missing] at forced
      | some gate =>
          have before : ∀ child ∈ gate.children, c.IsChild child id := fun child member =>
            ⟨gate, found, member⟩
          rw [coherent.mem_conjunctsOf found] at forced
          rw [coherent.mem_varsOf found]
          cases gate with
          | constant value => exact forced.elim
          | literal k =>
              obtain rfl : l = k := forced
              rfl
          | and children =>
              obtain ⟨child, member, inside⟩ := forced
              exact ⟨child, member, ih child (before child member) inside⟩
          | or decision children =>
              obtain ⟨nonempty, every⟩ := forced
              obtain ⟨child, member⟩ := List.exists_mem_of_ne_nil _ nonempty
              exact ⟨child, member, ih child (before child member) (every child member)⟩
          | mapping names child =>
              obtain ⟨k, inside, image⟩ := forced
              have bounded : names.toGlobal.Bounded := (coherent.admits found).1
              exact ⟨k.var, ih child (before child (by simp [Gate.children])) inside,
                (@Renaming.image_eq_some _ (fun _ => false) k l bounded image).1⟩
          | twoCnf formula => exact forced.elim
          | horn formula => exact forced.elim

/-- The variables of a node are positive 32-bit numbers; induction from the children upwards. -/
theorem Coherent.vars_bound (coherent : c.Coherent) {v : Var} (inside : v ∈ c.varsOf id)
    : 0 < v ∧ v < 2147483648 := by
  induction id using coherent.acyclic.induction generalizing v with
  | _ id ih =>
      cases found : c.gate? id with
      | none =>
          have missing : c.node? id = none := by simpa [gate?] using found
          simp [varsOf, missing] at inside
      | some gate =>
          have admits := coherent.admits found
          rw [coherent.mem_varsOf found] at inside
          cases gate with
          | constant value => exact inside.elim
          | literal l =>
              obtain rfl : v = l.var := inside
              exact ⟨Lit.var_pos admits, admits.2⟩
          | and children | or decision children =>
              obtain ⟨child, member, there⟩ := inside
              exact ih child ⟨_, found, member⟩ there
          | mapping names child =>
              obtain ⟨u, _, image⟩ := inside
              exact admits.1 image
          | twoCnf formula => exact Clauses.Tidy.vars_bound admits inside
          | horn formula => exact Clauses.Tidy.vars_bound admits.1 inside

-----------------------------------------------------------------------------------------
-- Growth
-----------------------------------------------------------------------------------------

/-- The second circuit has the nodes of the first one, with the same variables and conjuncts. -/
structure Retains (c d : Circuit) : Prop where
  size_le : c.nodes.size ≤ d.nodes.size
  varsOf : ∀ {id}, id < c.nodes.size → d.varsOf id = c.varsOf id
  conjunctsOf : ∀ {id}, id < c.nodes.size → d.conjunctsOf id = c.conjunctsOf id
  isFalse : ∀ {id}, id < c.nodes.size → d.isFalse id = c.isFalse id

theorem Extends.retains (grown : c.Extends d) : c.Retains d :=
  ⟨grown.size_le, grown.varsOf, grown.conjunctsOf, grown.isFalse⟩

theorem mentions_congr (same : ∀ child ∈ gate.children, d.varsOf child = c.varsOf child) {v : Var}
    : d.Mentions v gate ↔ c.Mentions v gate := by
  cases gate with
  | and children | or decision children =>
      exact exists_congr fun child => and_congr_right fun member => by rw [same child member]
  | mapping names child =>
      simp only [Mentions]
      rw [same child (by simp [Gate.children])]
  | constant value | literal l | twoCnf formula | horn formula => exact Iff.rfl

theorem Retains.mentions_iff (retains : c.Retains d)
    (present : ∀ child ∈ gate.children, child < c.nodes.size) {v : Var}
    : d.Mentions v gate ↔ c.Mentions v gate :=
  mentions_congr fun child member => retains.varsOf (present child member)

theorem Retains.forces_iff (retains : c.Retains d)
    (present : ∀ child ∈ gate.children, child < c.nodes.size) {l : Lit}
    : d.Forces l gate ↔ c.Forces l gate := by
  have same : ∀ child ∈ gate.children, d.conjunctsOf child = c.conjunctsOf child :=
    fun child member => retains.conjunctsOf (present child member)
  cases gate with
  | and children =>
      exact exists_congr fun child => and_congr_right fun member => by rw [same child member]
  | or decision children =>
      refine and_congr_right fun _ => forall_congr' fun child => forall_congr' fun member => ?_
      rw [same child member]
  | mapping names child =>
      simp only [Forces]
      rw [same child (by simp [Gate.children])]
  | constant value | literal l | twoCnf formula | horn formula => exact Iff.rfl

theorem even_congr (same : ∀ child ∈ gate.children, d.varsOf child = c.varsOf child)
    : d.Even gate ↔ c.Even gate := by
  cases gate with
  | or decision children =>
      refine forall_congr' fun a => forall_congr' fun left => forall_congr' fun b =>
        forall_congr' fun right => ?_
      rw [same a left, same b right]
  | constant value | literal l | and children | mapping names child | twoCnf formula | horn formula =>
      exact Iff.rfl

theorem Retains.even_iff (retains : c.Retains d)
    (present : ∀ child ∈ gate.children, child < c.nodes.size)
    : d.Even gate ↔ c.Even gate :=
  even_congr fun child member => retains.varsOf (present child member)

theorem Retains.describes (retains : c.Retains d)
    (present : ∀ child ∈ gate.children, child < c.nodes.size) {summary : Summary}
    (describes : c.Describes gate summary)
    : d.Describes gate summary where
  vars := describes.vars.trans (retains.mentions_iff present).symm
  conjuncts := describes.conjuncts.trans (retains.forces_iff present).symm
  even smooth := (retains.even_iff present).mpr (describes.even smooth)

theorem Retains.admits (retains : c.Retains d)
    (present : ∀ child ∈ gate.children, child < c.nodes.size) (admits : c.Admits gate)
    : d.Admits gate := by
  cases gate with
  | and children =>
      refine List.Pairwise.imp_of_mem (fun {a b} left right apart => ?_) admits
      intro v
      rw [retains.varsOf (present a left), retains.varsOf (present b right)]
      exact apart v
  | or decision children =>
      obtain ⟨contradictory, open_, nonempty, decided⟩ := admits
      refine ⟨List.Pairwise.imp_of_mem (fun {a b} left right found => ?_) contradictory, ?_,
        nonempty, ?_⟩
      · obtain ⟨l, first, second⟩ := found
        exact ⟨l, (retains.conjunctsOf (present a left)).symm ▸ first,
          (retains.conjunctsOf (present b right)).symm ▸ second⟩
      · intro child member
        rw [retains.isFalse (present child member)]
        exact open_ child member
      · intro v same
        obtain ⟨child, member, inside⟩ := decided v same
        exact ⟨child, member, (retains.varsOf (present child member)).symm ▸ inside⟩
  | mapping names child =>
      obtain ⟨bounded, covered, open_⟩ := admits
      have there := present child (by simp [Gate.children])
      refine ⟨bounded, ?_, ?_⟩
      · rw [retains.varsOf there]
        exact covered
      · rw [retains.isFalse there]
        exact open_
  | constant value | literal l | twoCnf formula | horn formula => exact admits

theorem Extends.sound (grown : c.Extends d) (sound : c.Sound id) : d.Sound id where
  present := grown.lt sound.present
  proper := by
    rw [grown.conjunctsOf sound.present]
    exact sound.proper
  countable found := by
    obtain ⟨node, present⟩ := c.exists_node sound.present
    obtain ⟨other, there, _, summary⟩ := grown.kept present
    obtain rfl := Option.some.inj (found.symm.trans there)
    rw [Node.throughout, summary]
    exact sound.countable present

section Append

variable {summary : Summary}

/-- A coherent circuit with a new node is coherent. -/
theorem Coherent.append (coherent : c.Coherent)
    (present : ∀ child ∈ gate.children, child < c.nodes.size)
    (ascending : gate.children.Pairwise (· < ·)) (admits : c.Admits gate)
    (describes : c.Describes gate summary) (countable : Countable summary.throughout)
    : (c.append gate summary).Coherent := by
  have grown : c.Extends (c.append gate summary) := extends_append
  have soundBelow : ∀ child ∈ gate.children, c.Sound child := fun child member =>
    coherent.sound (present child member)
  refine ⟨coherent.toWired.append present (ascending.imp Nat.ne_of_lt), ?_, ?_, ?_, ?_, ?_, ?_⟩
  · intro id key found
    rcases gate?_append found with old | ⟨rfl, rfl⟩
    · exact coherent.ascending old
    · exact ascending
  · intro id key found
    rcases gate?_append found with old | ⟨rfl, rfl⟩
    · exact grown.retains.admits (coherent.closed old) (coherent.admits old)
    · exact grown.retains.admits present admits
  · intro id node found
    rcases node?_append found with ⟨old, before, sameGate, sameSummary, _⟩ | ⟨rfl, rfl⟩
    · rw [sameGate, sameSummary]
      exact grown.retains.describes (coherent.closed (gate?_of_node? before)) (coherent.describes before)
    · exact grown.retains.describes present describes
  · intro id inside
    rcases Nat.lt_succ_iff_lt_or_eq.mp (size_append ▸ inside) with old | rfl
    · exact grown.sound (coherent.sound old)
    · refine ⟨inside, fun l forced => ?_, fun found => ?_⟩
      · rw [conjunctsOf_of_node? node?_append_new] at forced
        exact admits.proper_of_forces soundBelow (describes.conjuncts.mp forced)
      · obtain rfl := Option.some.inj (found.symm.trans node?_append_new)
        exact countable
  · intro id node found
    rcases node?_append found with ⟨old, before, _, _, memo, _⟩ | ⟨rfl, rfl⟩
    · rw [memo, coherent.unasked before]
    · rfl
  · show (Circuit.register _ _ _).sharing = true
    rw [(register_frame _ _ _).2]
    exact (c.linkParent_frame c.nodes.size gate.children).2.2.trans coherent.sharing

end Append

end Circuit

-----------------------------------------------------------------------------------------
-- Building
-----------------------------------------------------------------------------------------

namespace Build

open KnowledgeCompiler.Action

variable {c : Circuit} {gate : Gate}

/-- What building a node leads to: a regular circuit that extends the one before, and a node with the
gate.
-/
def Built (c : Circuit) (gate : Gate) (id : NodeId) (d : Circuit) : Prop :=
  c.Extends d ∧ d.Regular ∧ d.gate? id = some gate

/-- A gate that fits the circuit becomes a node, shared or new, and there is no other new gate. -/
theorem insert_coherent (coherent : c.Coherent)
    (present : ∀ child ∈ gate.children, child < c.nodes.size)
    (ascending : gate.children.Pairwise (· < ·)) (admits : c.Admits gate)
    : Yields (insert gate) c fun id d =>
        c.Extends d ∧ d.Coherent ∧ (c.Regular → d.Regular) ∧ d.gate? id = some gate
        ∧ ∀ other key, d.gate? other = some key → c.gate? other = some key ∨ key = gate := by
  refine Yields.current ?_
  cases shared : c.shared? gate with
  | some id =>
      rw [Circuit.shared?, if_pos coherent.sharing] at shared
      obtain ⟨key, signed, found⟩ := Option.bind_eq_some_iff.mp shared
      rw [Circuit.eq_of_signature? ascending signed] at found
      exact Yields.pure ⟨Circuit.Extends.refl c, coherent, fun regular => regular,
        coherent.gate?_of_find? found, fun _ _ there => .inl there⟩
  | none =>
      obtain ⟨summary, done, describes, countable, smooth⟩ := admits.summarize fun child member =>
        coherent.sound (present child member)
      refine Yields.note (Yields.checked done (Yields.update (Yields.pure ?_)))
      have appended := coherent.append present ascending admits describes countable
      refine ⟨Circuit.extends_append, appended, fun regular => ⟨appended, ?_⟩,
        Circuit.gate?_of_node? Circuit.node?_append_new,
        fun other key there => (Circuit.gate?_append there).imp id And.right⟩
      exact (regular.upToDate.append present (ascending.imp Nat.ne_of_lt) done).derived

theorem insert_spec (regular : c.Regular)
    (present : ∀ child ∈ gate.children, child < c.nodes.size)
    (ascending : gate.children.Pairwise (· < ·)) (admits : c.Admits gate)
    : Yields (insert gate) c (Built c gate) := by
  refine (insert_coherent regular.toCoherent present ascending admits).mono fun id d result => ?_
  obtain ⟨grown, _, regular', found, _⟩ := result
  exact ⟨grown, regular' regular, found⟩

end Build

end KnowledgeCompiler
