import KnowledgeCompiler.Proofs.Circuit.Flags
import KnowledgeCompiler.Proofs.Circuit.Regular

/-! Building nodes: what each operation means.

Every operation keeps the circuit regular and adds at most nodes. What is built is known by the gate of
the resulting node, seen from the circuit before.
-/

namespace KnowledgeCompiler

namespace Circuit

variable {c d : Circuit} {id : NodeId} {gate : Gate} {σ τ : Assignment}

-----------------------------------------------------------------------------------------
-- Meaning and variables
-----------------------------------------------------------------------------------------

theorem Regular.satisfies_congr (regular : c.Regular) (agree : ∀ v, v ∈ c.varsOf id → σ v = τ v)
    : c.Satisfies σ id ↔ c.Satisfies τ id :=
  regular.upToDate.satisfies_congr agree

theorem Extends.holds_iff (grown : c.Extends d) (closed : c.Closed)
    (present : ∀ child ∈ gate.children, child < c.nodes.size)
    : d.Holds σ gate ↔ c.Holds σ gate :=
  holds_congr fun child member _ => grown.satisfies_iff closed (present child member)

/-- A node stands for clauses: it is satisfied exactly by their models, and its variables are among
theirs.
-/
structure Denotes (c : Circuit) (id : NodeId) (clauses : Clauses) : Prop where
  present : id < c.nodes.size
  satisfies : ∀ σ, c.Satisfies σ id ↔ Clauses.TrueIn σ clauses
  vars : ∀ {v}, v ∈ c.varsOf id → v ∈ clauses.vars

theorem Denotes.grow {clauses : Clauses} (denotes : c.Denotes id clauses) (grown : c.Extends d)
    (closed : c.Closed)
    : d.Denotes id clauses where
  present := grown.lt denotes.present
  satisfies σ := (grown.satisfies_iff closed denotes.present).trans (denotes.satisfies σ)
  vars inside := denotes.vars (grown.varsOf denotes.present ▸ inside)

/-- The constant false stands for clauses without a model only. -/
theorem Denotes.not_trueIn {clauses : Clauses} (denotes : c.Denotes id clauses) (falsum : c.isFalse id = true)
    (σ : Assignment)
    : ¬ Clauses.TrueIn σ clauses := fun model =>
  not_satisfies_of_isFalse falsum ((denotes.satisfies σ).mpr model)

/-- A choice for the elements of a list together with one for an element before them. -/
theorem exists_map_cons {α β : Type} [DecidableEq α] (related : α → β → Prop) {first : α} {rest : List α}
    {chosen : β} {choice : α → β} (new : ¬ first ∈ rest) (here : related first chosen)
    (later : ∀ a ∈ rest, related a (choice a))
    : ∃ extended : α → β,
        chosen :: rest.map choice = (first :: rest).map extended
        ∧ ∀ a ∈ first :: rest, related a (extended a) := by
  have other : ∀ a ∈ rest, Function.update choice first chosen a = choice a := fun a member =>
    Function.update_of_ne (fun same : a = first => new (same ▸ member)) ..
  refine ⟨Function.update choice first chosen, ?_, List.forall_mem_cons.mpr ⟨?_, fun a member => ?_⟩⟩
  · rw [List.map_cons, Function.update_self, List.map_congr_left other]
  · rw [Function.update_self]
    exact here
  · rw [other a member]
    exact later a member

end Circuit

namespace Build

open KnowledgeCompiler.Action

variable {c d : Circuit} {gate : Gate} {id : NodeId} {σ : Assignment} {children : List NodeId}

/-- What has been built, seen from the circuit before. -/
theorem Built.meaning (built : Built c gate id d) (closed : c.Closed)
    (present : ∀ child ∈ gate.children, child < c.nodes.size)
    : (∀ σ, d.Satisfies σ id ↔ c.Holds σ gate)
      ∧ (∀ v, v ∈ d.varsOf id ↔ c.Mentions v gate)
      ∧ ∀ l, l ∈ d.conjunctsOf id ↔ c.Forces l gate := by
  obtain ⟨grown, regular, found⟩ := built
  refine ⟨fun σ => ?_, fun v => ?_, fun l => ?_⟩
  · rw [Circuit.satisfies_iff found, grown.holds_iff closed present]
  · rw [regular.mem_varsOf found, grown.retains.mentions_iff present]
  · rw [regular.mem_conjunctsOf found, grown.retains.forces_iff present]

-----------------------------------------------------------------------------------------
-- Constants and literals
-----------------------------------------------------------------------------------------

theorem constant_spec (regular : c.Regular) (value : Bool)
    : Yields (constant value) c (Built c (.constant value)) :=
  insert_spec regular (by simp [Gate.children]) (by simp [Gate.children]) trivial

theorem literal_spec (regular : c.Regular) {l : Lit} (proper : l.Proper)
    : Yields (literal l) c (Built c (.literal l)) := by
  unfold literal
  rw [if_neg proper.1]
  exact insert_spec regular (by simp [Gate.children]) (by simp [Gate.children]) proper

-----------------------------------------------------------------------------------------
-- Conjunctions and disjunctions
-----------------------------------------------------------------------------------------

theorem existing_spec (present : ∀ child ∈ children, child < c.nodes.size)
    : Yields (existing children) c fun ids d => c = d ∧ ids = (SortedSet.ofList children).toList := by
  refine Yields.current ?_
  have none_ : ((SortedSet.ofList children).toList.find? fun id => (c.node? id).isNone) = none := by
    refine List.find?_eq_none.mpr (fun id member => ?_)
    obtain ⟨node, found⟩ := c.exists_node (present id (SortedSet.mem_ofList.mp member))
    simp [found]
  rw [none_]
  exact Yields.pure ⟨rfl, rfl⟩

/-- The gate of a conjunction. -/
def conjunctionGate (children : List NodeId) : Gate :=
  if (SortedSet.ofList children).toList = [] then .constant true
  else .and (SortedSet.ofList children).toList

theorem mem_children_conjunctionGate {child : NodeId}
    : child ∈ (conjunctionGate children).children ↔ child ∈ children := by
  unfold conjunctionGate
  split
  · rename_i empty
    have none_ : ¬ child ∈ children := fun member => by
      have inside : child ∈ (SortedSet.ofList children).toList := by simpa using member
      rw [empty] at inside
      exact List.not_mem_nil inside
    simp [Gate.children, none_]
  · simp [Gate.children]

/-- What a conjunction means, mentions and forces. -/
theorem conjunctionGate_meaning (c : Circuit) (children : List NodeId)
    : (∀ σ, c.Holds σ (conjunctionGate children) ↔ ∀ child ∈ children, c.Satisfies σ child)
      ∧ (∀ v, c.Mentions v (conjunctionGate children) ↔ ∃ child ∈ children, v ∈ c.varsOf child)
      ∧ ∀ l, c.Forces l (conjunctionGate children) ↔ ∃ child ∈ children, l ∈ c.conjunctsOf child := by
  have members : ∀ child, child ∈ (SortedSet.ofList children).toList ↔ child ∈ children := by simp
  unfold conjunctionGate
  split
  · rename_i empty
    have none_ : children = [] := List.eq_nil_iff_forall_not_mem.mpr fun child member => by
      have inside := (members child).mpr member
      rw [empty] at inside
      exact List.not_mem_nil inside
    simp [none_, Circuit.Holds, Circuit.Mentions, Circuit.Forces]
  · simp only [Circuit.Holds, Circuit.Mentions, Circuit.Forces, members, implies_true, and_self]

/-- Nodes without a common variable are conjoined. -/
theorem conjunction_spec (regular : c.Regular) (present : ∀ child ∈ children, child < c.nodes.size)
    (apart : ∀ a ∈ children, ∀ b ∈ children, a ≠ b → c.Apart a b)
    : Yields (conjunction children) c (Built c (conjunctionGate children)) := by
  unfold conjunction
  refine Yields.bind (existing_spec present) (fun ids d result => ?_)
  obtain ⟨rfl, rfl⟩ := result
  have members : ∀ child ∈ (SortedSet.ofList children).toList, child ∈ children := by simp
  have ascending := (SortedSet.ofList children).ascending
  have nodup := (SortedSet.ofList children).nodup
  unfold conjunctionGate
  generalize (SortedSet.ofList children).toList = ids at members ascending nodup
  cases ids with
  | nil =>
      rw [if_pos rfl]
      exact constant_spec regular true
  | cons first rest =>
      rw [if_neg (by simp)]
      refine insert_spec regular (fun child member => present child (members child member)) ascending ?_
      exact nodup.pairwise_of_forall_ne fun a left b right differ =>
        apart a (members a left) b (members b right) differ

theorem not_isFalse_conjunction (built : Built c (conjunctionGate children) id d)
    : d.isFalse id = false := by
  refine Circuit.isFalse_of_gate? built.2.2 ?_
  unfold conjunctionGate
  split <;> simp

/-- Contradicting nodes are disjoined. -/
theorem disjunction_spec (regular : c.Regular) (present : ∀ child ∈ children, child < c.nodes.size)
    (nonempty : children ≠ [])
    (contradictory : ∀ a ∈ children, ∀ b ∈ children, a ≠ b → c.Contradict a b)
    (open_ : ∀ child ∈ children, c.isFalse child = false) {decision : Option Var}
    (decided : ∀ v, decision = some v → ∃ child ∈ children, v ∈ c.varsOf child)
    : Yields (disjunction children decision) c
        (Built c (.or decision (SortedSet.ofList children).toList)) := by
  unfold disjunction
  refine Yields.bind (existing_spec present) (fun ids d result => ?_)
  obtain ⟨rfl, rfl⟩ := result
  have members : ∀ child, child ∈ (SortedSet.ofList children).toList ↔ child ∈ children := by simp
  have ascending := (SortedSet.ofList children).ascending
  have nodup := (SortedSet.ofList children).nodup
  generalize (SortedSet.ofList children).toList = ids at members ascending nodup
  have found : (decision.filter fun v => !(c.nodesOf ids).any fun node => node.vars.contains v)
      = none := by
    refine Option.filter_eq_none_iff.mpr (fun v same => ?_)
    obtain ⟨child, member, inside⟩ := decided v same
    obtain ⟨node, there⟩ := c.exists_node (present child member)
    have listed := Circuit.mem_nodesOf.mpr ⟨child, (members child).mpr member, there⟩
    rw [Circuit.varsOf_of_node? there] at inside
    simp only [Bool.not_eq_true', Bool.not_eq_false, List.any_eq_true]
    exact ⟨node, listed, by simpa using inside⟩
  cases ids with
  | nil =>
      obtain ⟨child, member⟩ := List.exists_mem_of_ne_nil _ nonempty
      exact absurd ((members child).mpr member) List.not_mem_nil
  | cons first rest =>
      refine Yields.current ?_
      rw [found]
      refine insert_spec regular (fun child member => present child ((members child).mp member))
        ascending ⟨?_, ?_, by simp, ?_⟩
      · exact nodup.pairwise_of_forall_ne fun a left b right differ =>
          contradictory a ((members a).mp left) b ((members b).mp right) differ
      · exact fun child member => open_ child ((members child).mp member)
      · intro v same
        obtain ⟨child, member, inside⟩ := decided v same
        exact ⟨child, (members child).mpr member, inside⟩

/-- A node conjoined with a literal over another variable. -/
theorem conjunction_literal_spec (regular : c.Regular) {node p : NodeId} {l : Lit}
    (present : node < c.nodes.size) (found : c.gate? p = some (.literal l))
    (fresh : ¬ l.var ∈ c.varsOf node)
    : Yields (conjunction [node, p]) c fun id d =>
        c.Extends d ∧ d.Regular ∧ id < d.nodes.size ∧ d.isFalse id = false
        ∧ (∀ σ, d.Satisfies σ id ↔ Lit.TrueIn σ l ∧ c.Satisfies σ node)
        ∧ (∀ v, v ∈ d.varsOf id ↔ v = l.var ∨ v ∈ c.varsOf node)
        ∧ l ∈ d.conjunctsOf id := by
  have literal : ∀ v, v ∈ c.varsOf p ↔ v = l.var := fun v => regular.mem_varsOf found
  have there : ∀ child ∈ [node, p], child < c.nodes.size := by
    simp [present, Circuit.lt_of_gate? found]
  have apart : ∀ a ∈ [node, p], ∀ b ∈ [node, p], a ≠ b → c.Apart a b := by
    intro a left b right differ v first second
    simp only [List.mem_cons, List.not_mem_nil, or_false] at left right
    rcases left with rfl | rfl
    · rcases right with rfl | rfl
      · exact differ rfl
      · exact fresh ((literal v).mp second ▸ first)
    · rcases right with rfl | rfl
      · exact fresh ((literal v).mp first ▸ second)
      · exact differ rfl
  refine (conjunction_spec regular there apart).mono (fun id d built => ?_)
  obtain ⟨satisfies, vars, conjuncts⟩ := built.meaning regular.closed fun child member =>
    there child (mem_children_conjunctionGate.mp member)
  obtain ⟨holds, mentions, forces⟩ := conjunctionGate_meaning c [node, p]
  refine ⟨built.1, built.2.1, Circuit.lt_of_gate? built.2.2, not_isFalse_conjunction built,
    fun σ => ?_, fun v => ?_, ?_⟩
  · rw [satisfies, holds]
    simp only [List.mem_cons, List.not_mem_nil, or_false, forall_eq_or_imp, forall_eq,
      Circuit.satisfies_iff found, Circuit.Holds]
    exact and_comm
  · rw [vars, mentions]
    simp only [List.mem_cons, List.not_mem_nil, or_false, exists_eq_or_imp, exists_eq_left, literal]
    exact or_comm
  · rw [conjuncts, forces]
    exact ⟨p, by simp, (regular.mem_conjunctsOf found).mpr rfl⟩

/-- The decision on a variable that occurs on neither side. -/
theorem decision_spec (regular : c.Regular) {v : Var} {high low : NodeId} (positive : 0 < v)
    (small : v < 2147483648) (highPresent : high < c.nodes.size) (lowPresent : low < c.nodes.size)
    (highFresh : ¬ v ∈ c.varsOf high) (lowFresh : ¬ v ∈ c.varsOf low)
    : Yields (decision v high low) c fun id d =>
        c.Extends d ∧ d.Regular ∧ id < d.nodes.size
        ∧ (∀ σ, d.Satisfies σ id
            ↔ σ v = true ∧ c.Satisfies σ high ∨ σ v = false ∧ c.Satisfies σ low)
        ∧ ∀ w, w ∈ d.varsOf id ↔ w = v ∨ w ∈ c.varsOf high ∨ w ∈ c.varsOf low := by
  have proper : Lit.Proper (v : Int) := ⟨by grind, by simpa [Lit.var] using small⟩
  unfold decision
  rw [Lit.word_eq_self small]
  refine Yields.bind (literal_spec regular proper) (fun p c₁ built => ?_)
  obtain ⟨grown₁, regular₁, foundPositive⟩ := built
  refine Yields.checked proper.negate ?_
  refine Yields.bind (literal_spec regular₁ proper.neg) (fun n c₂ built => ?_)
  obtain ⟨grown₂, regular₂, foundNegative⟩ := built
  have grown := grown₁.trans grown₂
  refine Yields.bind (conjunction_literal_spec regular₂ (grown.lt highPresent)
    (grown₂.gate? foundPositive) (by rwa [grown.varsOf highPresent])) (fun whenTrue c₃ result => ?_)
  obtain ⟨grown₃, regular₃, present₃, open₃, meaning₃, vars₃, conjunct₃⟩ := result
  have grownTo₃ := grown.trans grown₃
  refine Yields.bind (conjunction_literal_spec regular₃ (grownTo₃.lt lowPresent)
    (grown₃.gate? foundNegative) (by rw [grownTo₃.varsOf lowPresent, Lit.var_neg]; exact lowFresh))
    (fun whenFalse c₄ result => ?_)
  obtain ⟨grown₄, regular₄, present₄, open₄, meaning₄, vars₄, conjunct₄⟩ := result
  have contradict : c₄.Contradict whenTrue whenFalse :=
    ⟨v, by rwa [grown₄.conjunctsOf present₃], conjunct₄⟩
  have members : ∀ child, child ∈ [whenTrue, whenFalse] ↔ child = whenTrue ∨ child = whenFalse := by
    simp
  have there : ∀ child ∈ [whenTrue, whenFalse], child < c₄.nodes.size := by
    simp [grown₄.lt present₃, present₄]
  have varsTrue : ∀ w, w ∈ c₄.varsOf whenTrue ↔ w = v ∨ w ∈ c.varsOf high := by
    intro w
    rw [grown₄.varsOf present₃, vars₃, grown.varsOf highPresent]
    rfl
  refine (disjunction_spec regular₄ there (by simp) (Circuit.forall_pair contradict fun child => (members child).mp)
    ?_ ?_).mono (fun id d built => ?_)
  · simp [grown₄.isFalse present₃, open₃, open₄]
  · intro w same
    obtain rfl := Option.some.inj same
    exact ⟨whenTrue, by simp, (varsTrue v).mpr (.inl rfl)⟩
  · have below : ∀ child ∈ (Gate.or (some v)
        (SortedSet.ofList [whenTrue, whenFalse]).toList).children, child < c₄.nodes.size := by
      intro child member
      exact there child (by simpa [Gate.children] using member)
    obtain ⟨satisfies, vars, _⟩ := built.meaning regular₄.closed below
    have old := grownTo₃.trans grown₄
    refine ⟨old.trans built.1, built.2.1, Circuit.lt_of_gate? built.2.2, fun σ => ?_, fun w => ?_⟩
    · rw [satisfies]
      simp only [Circuit.Holds, SortedSet.mem_toList, SortedSet.mem_ofList, members,
        exists_eq_or_imp, exists_eq_left]
      rw [grown₄.satisfies_iff regular₃.closed present₃, meaning₃, meaning₄,
        Lit.trueIn_ofNat positive, Lit.trueIn_neg_ofNat positive,
        grown.satisfies_iff regular.closed highPresent,
        grownTo₃.satisfies_iff regular.closed lowPresent]
    · rw [vars]
      simp only [Circuit.Mentions, SortedSet.mem_toList, SortedSet.mem_ofList, members,
        exists_eq_or_imp, exists_eq_left]
      rw [varsTrue, vars₄, grownTo₃.varsOf lowPresent, Lit.var_neg]
      have var : Lit.var (v : Int) = v := rfl
      rw [var]
      grind

-----------------------------------------------------------------------------------------
-- Renamed nodes and formula leaves
-----------------------------------------------------------------------------------------

theorem node_spec (present : id < c.nodes.size)
    : Yields (node id) c fun node d => c = d ∧ c.node? id = some node := by
  obtain ⟨node, found⟩ := c.exists_node present
  refine Yields.current ?_
  rw [found]
  exact Yields.pure ⟨rfl, rfl⟩

/-- A node under other names. -/
theorem mapping_spec (regular : c.Regular) {child : NodeId} {names : Bijection}
    (present : child < c.nodes.size) (bounded : names.toGlobal.Bounded) (inside : names.toLocal.Bounded)
    (covered : ∀ v, v ∈ c.varsOf child → (names.toGlobal.find? v).isSome = true)
    : Yields (mapping child names) c fun id d =>
        c.Extends d ∧ d.Regular ∧ id < d.nodes.size
        ∧ (∀ σ, d.Satisfies σ id ↔ c.Satisfies (names.toGlobal.pull σ) child)
        ∧ ∀ v, v ∈ d.varsOf id ↔ ∃ u ∈ c.varsOf child, names.toGlobal.find? u = some v := by
  unfold mapping
  refine Yields.bind (node_spec present) (fun node d result => ?_)
  obtain ⟨rfl, found⟩ := result
  rw [← Circuit.varsOf_of_node? found]
  have complete : ((c.varsOf child).toList.find? fun v => (names.toGlobal.find? v).isNone) = none := by
    refine List.find?_eq_none.mpr (fun v member => ?_)
    simpa using Option.isSome_iff_ne_none.mp (covered v member)
  dsimp only
  rw [complete]
  dsimp only
  split
  · rename_i identity
    simp only [List.all_eq_true, SortedSet.mem_toList, beq_iff_eq] at identity
    refine Yields.pure ⟨.refl c, regular, present, fun σ => ?_, fun v => ?_⟩
    · refine regular.satisfies_congr (fun v inside => ?_)
      rw [Renaming.pull_of_find? (identity v inside)]
    · constructor
      · exact fun inside => ⟨v, inside, identity v inside⟩
      · intro found
        obtain ⟨u, inside, image⟩ := found
        obtain rfl := Option.some.inj ((identity u inside).symm.trans image)
        exact inside
  · rename_i renames
    have below : ∀ node ∈ (Gate.mapping names child).children, node < c.nodes.size := by
      simpa [Gate.children] using present
    have open_ : c.isFalse child = false := by
      rw [← Bool.not_eq_true]
      intro constant
      refine renames (List.all_eq_true.mpr fun v inside => ?_)
      exact ((regular.mem_varsOf (Circuit.isFalse_iff.mp constant)).mp inside).elim
    refine (insert_spec regular below (by simp [Gate.children]) ⟨bounded, covered, open_, inside⟩).mono
      (fun id d built => ?_)
    obtain ⟨satisfies, vars, _⟩ := built.meaning regular.closed below
    exact ⟨built.1, built.2.1, Circuit.lt_of_gate? built.2.2, satisfies, vars⟩

/-- What building a formula leaf leads to. -/
def BuiltLeaf (c : Circuit) (clauses : Clauses) (id : NodeId) (d : Circuit) : Prop :=
  c.Extends d ∧ d.Regular ∧ d.Denotes id clauses ∧ d.isFalse id = false
  ∧ ∀ v, v ∈ clauses.vars → v ∈ d.varsOf id

/-- A formula leaf with some clauses; without clauses it is the constant true. -/
theorem leaf_spec (regular : c.Regular) {clauses : Clauses} {empty : Bool}
    (childless : gate.children = []) (open_ : gate ≠ .constant false) (admits : c.Admits gate)
    (holds : ∀ σ, c.Holds σ gate ↔ Clauses.TrueIn σ clauses)
    (mentions : ∀ v, c.Mentions v gate ↔ v ∈ clauses.vars) (emptiness : empty = clauses.isEmpty)
    : Yields (if empty then constant true else insert gate) c (BuiltLeaf c clauses) := by
  cases none_ : clauses.isEmpty with
  | true =>
      obtain rfl := List.isEmpty_iff.mp none_
      rw [emptiness, none_, if_pos rfl]
      refine (constant_spec regular true).mono (fun id d built => ?_)
      obtain ⟨satisfies, vars, _⟩ := built.meaning regular.closed (by simp [Gate.children])
      refine ⟨built.1, built.2.1, ⟨Circuit.lt_of_gate? built.2.2, fun σ => ?_, fun {v} inside => ?_⟩,
        Circuit.isFalse_of_gate? built.2.2 (by simp), fun v inside => ?_⟩
      · simp [satisfies, Circuit.Holds, Clauses.TrueIn]
      · exact ((vars v).mp inside).elim
      · simp [Clauses.mem_vars] at inside
  | false =>
      rw [emptiness, none_, if_neg (by simp)]
      have below : ∀ child ∈ gate.children, child < c.nodes.size := by simp [childless]
      refine (insert_spec regular below (by simp [childless]) admits).mono (fun id d built => ?_)
      obtain ⟨satisfies, vars, _⟩ := built.meaning regular.closed below
      refine ⟨built.1, built.2.1, ⟨Circuit.lt_of_gate? built.2.2, fun σ => ?_, fun {v} inside => ?_⟩,
        Circuit.isFalse_of_gate? built.2.2 open_, fun v inside => ?_⟩
      · rw [satisfies, holds]
      · exact (mentions v).mp ((vars v).mp inside)
      · exact (vars v).mpr ((mentions v).mpr inside)

theorem twoCnf_spec (regular : c.Regular) {formula : TwoCnf} (tidy : formula.clauses.Tidy)
    : Yields (twoCnf formula) c (BuiltLeaf c formula.clauses) :=
  leaf_spec regular rfl (by simp) tidy (fun _ => Iff.rfl) (fun _ => Iff.rfl) rfl

theorem horn_spec (regular : c.Regular) {formula : Horn} (tidy : formula.unflipped.Tidy)
    (occurring : ∀ v, v ∈ formula.flipped → v ∈ formula.unflipped.vars)
    : Yields (horn formula) c (BuiltLeaf c formula.unflipped) :=
  leaf_spec regular rfl (by simp) ⟨tidy, occurring⟩ (fun _ => Iff.rfl) (fun _ => Iff.rfl)
    (by cases clauses : formula.clauses <;> simp [Horn.isEmpty, Horn.unflipped, clauses])

end Build

end KnowledgeCompiler
