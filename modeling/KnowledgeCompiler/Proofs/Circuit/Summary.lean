import KnowledgeCompiler.Proofs.Circuit.Meaning

/-! What the derived data of a node say.

The variables of a node are those that its gate mentions, and its conjuncts are the literals that its
gate forces, both in terms of the nodes below. In a consistent circuit the derived data of all nodes are
up to date; there the meaning of a node depends on the values of its variables only.
-/

namespace KnowledgeCompiler.Circuit

variable {c d : Circuit} {id : NodeId} {gate : Gate} {σ τ : Assignment}

-----------------------------------------------------------------------------------------
-- Variables and conjuncts of a gate
-----------------------------------------------------------------------------------------

/-- A gate mentions a variable. -/
def Mentions (c : Circuit) (v : Var) : Gate → Prop
  | .constant _ => False
  | .literal l => v = l.var
  | .and children | .or _ children => ∃ child ∈ children, v ∈ c.varsOf child
  | .mapping names child => ∃ u ∈ c.varsOf child, names.toGlobal.find? u = some v
  | .twoCnf formula => v ∈ formula.clauses.vars
  | .horn formula => v ∈ formula.unflipped.vars

/-- A gate forces a literal by its shape. -/
def Forces (c : Circuit) (l : Lit) : Gate → Prop
  | .literal k => l = k
  | .and children => ∃ child ∈ children, l ∈ c.conjunctsOf child
  | .or _ children => children ≠ [] ∧ ∀ child ∈ children, l ∈ c.conjunctsOf child
  | .mapping names child => ∃ k ∈ c.conjunctsOf child, names.toGlobal.image k = some l
  | .constant _ | .twoCnf _ | .horn _ => False

/-- The children of a disjunction have the same variables. -/
def Even (c : Circuit) : Gate → Prop
  | .or _ children => ∀ a ∈ children, ∀ b ∈ children, c.varsOf a = c.varsOf b
  | .constant _ | .literal _ | .and _ | .mapping _ _ | .twoCnf _ | .horn _ => True

/-- A summary lists the variables and the conjuncts of a gate, and a disjunction that it calls smooth is
even.
-/
structure Describes (c : Circuit) (gate : Gate) (summary : Summary) : Prop where
  vars : ∀ {v}, v ∈ summary.vars ↔ c.Mentions v gate
  conjuncts : ∀ {l}, l ∈ summary.conjuncts ↔ c.Forces l gate
  even : summary.own.smooth = true → c.Even gate

/-- Two nodes have no common variable. -/
def Apart (c : Circuit) (a b : NodeId) : Prop := ∀ v, v ∈ c.varsOf a → ¬ v ∈ c.varsOf b

/-- A conjunct of one node is the complement of a conjunct of another one. -/
def Contradict (c : Circuit) (a b : NodeId) : Prop :=
  ∃ l, l ∈ c.conjunctsOf a ∧ -l ∈ c.conjunctsOf b

instance (c : Circuit) : Std.Symm c.Apart := ⟨fun _ _ apart v second first => apart v first second⟩

theorem Contradict.symm {a b : NodeId} (contradict : c.Contradict a b) : c.Contradict b a := by
  obtain ⟨l, first, second⟩ := contradict
  exact ⟨-l, second, by simpa using first⟩

instance (c : Circuit) : Std.Symm c.Contradict := ⟨fun _ _ => Contradict.symm⟩

/-- A symmetric relation between two nodes holds between any different ones of them. -/
theorem forall_pair {R : NodeId → NodeId → Prop} [Std.Symm R] {a b : NodeId} {ids : List NodeId} (holds : R a b)
    (members : ∀ id ∈ ids, id = a ∨ id = b)
    : ∀ x ∈ ids, ∀ y ∈ ids, x ≠ y → R x y := by
  intro x left y right differ
  rcases members x left with rfl | rfl <;> rcases members y right with rfl | rfl
  · exact absurd rfl differ
  · exact holds
  · exact Std.Symm.symm _ _ holds
  · exact absurd rfl differ

/-- A gate fits the nodes below it: the children of a conjunction have no variable in common, those of a
disjunction contradict each other, a decision variable occurs below, a renaming covers the variables of
its child, and neither stands on the constant false.
-/
def Admits (c : Circuit) : Gate → Prop
  | .constant _ => True
  | .literal l => l.Proper
  | .and children => children.Pairwise c.Apart
  | .or decision children =>
      children.Pairwise c.Contradict
      ∧ (∀ child ∈ children, c.isFalse child = false)
      ∧ children ≠ []
      ∧ ∀ v, decision = some v → ∃ child ∈ children, v ∈ c.varsOf child
  | .mapping names child =>
      names.toGlobal.Bounded
      ∧ (∀ v, v ∈ c.varsOf child → (names.toGlobal.find? v).isSome = true)
      ∧ c.isFalse child = false
      ∧ names.toLocal.Bounded
  | .twoCnf formula => formula.clauses.Tidy
  | .horn formula =>
      formula.unflipped.Tidy ∧ ∀ v, v ∈ formula.flipped → v ∈ formula.unflipped.vars

/-- Both properties that counting needs. -/
def Countable (p : Properties) : Prop := p.decomposable = true ∧ p.deterministic = true

/-- A node is there, can be counted below, and its conjuncts have complements. -/
structure Sound (c : Circuit) (id : NodeId) : Prop where
  present : id < c.nodes.size
  proper : ∀ l, l ∈ c.conjunctsOf id → l.Proper
  countable : ∀ {node}, c.node? id = some node → Countable node.throughout

section Nodes

variable {children : List NodeId}

theorem mem_unionAll_vars {v : Var}
    : v ∈ SortedSet.unionAll ((c.nodesOf children).map Node.vars)
      ↔ ∃ child ∈ children, v ∈ c.varsOf child := by
  rw [SortedSet.mem_unionAll]
  constructor
  · intro found
    obtain ⟨vars, member, inside⟩ := found
    obtain ⟨node, listed, rfl⟩ := List.mem_map.mp member
    obtain ⟨child, first, present⟩ := mem_nodesOf.mp listed
    exact ⟨child, first, by rwa [varsOf_of_node? present]⟩
  · intro found
    obtain ⟨child, first, inside⟩ := found
    cases present : c.node? child with
    | none => simp [varsOf, present] at inside
    | some node =>
        rw [varsOf_of_node? present] at inside
        exact ⟨_, List.mem_map_of_mem (mem_nodesOf.mpr ⟨child, first, present⟩), inside⟩

theorem mem_unionAll_conjuncts {l : Lit}
    : l ∈ SortedSet.unionAll ((c.nodesOf children).map Node.conjuncts)
      ↔ ∃ child ∈ children, l ∈ c.conjunctsOf child := by
  rw [SortedSet.mem_unionAll]
  constructor
  · intro found
    obtain ⟨conjuncts, member, inside⟩ := found
    obtain ⟨node, listed, rfl⟩ := List.mem_map.mp member
    obtain ⟨child, first, present⟩ := mem_nodesOf.mp listed
    exact ⟨child, first, by rwa [conjunctsOf_of_node? present]⟩
  · intro found
    obtain ⟨child, first, inside⟩ := found
    cases present : c.node? child with
    | none => simp [conjunctsOf, present] at inside
    | some node =>
        rw [conjunctsOf_of_node? present] at inside
        exact ⟨_, List.mem_map_of_mem (mem_nodesOf.mpr ⟨child, first, present⟩), inside⟩

theorem mem_commonConjuncts {nodes : List Node} {l : Lit}
    : l ∈ Summary.commonConjuncts nodes ↔ nodes ≠ [] ∧ ∀ node ∈ nodes, l ∈ node.conjuncts := by
  have folded : ∀ (rest : List Node) (common : SortedSet Lit),
      l ∈ rest.foldl (fun common node => common.inter node.conjuncts) common
        ↔ l ∈ common ∧ ∀ node ∈ rest, l ∈ node.conjuncts := by
    intro rest
    induction rest with
    | nil => simp
    | cons node rest ih =>
        intro common
        rw [List.foldl_cons, ih, SortedSet.mem_inter, List.forall_mem_cons, and_assoc]
  cases nodes with
  | nil => simp [Summary.commonConjuncts]
  | cons first rest => simp [Summary.commonConjuncts, folded]

/-- Without constants among the children all of them count. -/
theorem filter_alive (alive : ∀ child ∈ children, c.isFalse child = false)
    : (c.nodesOf children).filter (!·.isFalse) = c.nodesOf children := by
  refine List.filter_eq_self.mpr (fun node member => ?_)
  obtain ⟨child, listed, present⟩ := mem_nodesOf.mp member
  have open_ := alive child listed
  simpa [isFalse, present] using open_

/-- Whether two nodes contradict each other is decided if their conjuncts have complements. -/
theorem contradict_ok {a b : Node} (proper : ∀ l, l ∈ a.conjuncts → l.Proper)
    : Summary.contradict a b
      = .ok (a.conjuncts.toList.any fun l => b.conjuncts.contains (-l)) := by
  refine Checked.anyM_ok (fun l member => ?_)
  rw [(proper l member).negate]
  rfl

/-- What holds of a node and of all its children. -/
theorem countable_throughout {own : Properties} {nodes : List Node} (here : Countable own)
    (below : ∀ node ∈ nodes, Countable node.throughout)
    : Countable (Summary.propertiesThroughout own nodes) := by
  unfold Summary.propertiesThroughout
  induction nodes generalizing own with
  | nil => exact here
  | cons node rest ih =>
      obtain ⟨first, later⟩ := List.forall_mem_cons.mp below
      refine ih ?_ later
      simp [Countable, Properties.meet, here.1, here.2, first.1, first.2]

/-- Smoothness of a node and of all its children. -/
theorem smooth_throughout {own : Properties} {nodes : List Node} (here : own.smooth = true)
    (below : ∀ node ∈ nodes, node.throughout.smooth = true)
    : (Summary.propertiesThroughout own nodes).smooth = true := by
  unfold Summary.propertiesThroughout
  induction nodes generalizing own with
  | nil => exact here
  | cons node rest ih =>
      obtain ⟨first, later⟩ := List.forall_mem_cons.mp below
      refine ih ?_ later
      simp [Properties.meet, here, first]

/-- The children of a disjunction are compared with the union of their variables. -/
theorem all_vars_iff (present : ∀ child ∈ children, child < c.nodes.size)
    : ((c.nodesOf children).all fun child =>
          child.vars == SortedSet.unionAll ((c.nodesOf children).map Node.vars)) = true
      ↔ ∀ a ∈ children, ∀ b ∈ children, c.varsOf a = c.varsOf b := by
  simp only [List.all_eq_true, beq_iff_eq]
  constructor
  · intro same a left b right
    obtain ⟨first, found⟩ := c.exists_node (present a left)
    obtain ⟨second, found'⟩ := c.exists_node (present b right)
    rw [varsOf_of_node? found, varsOf_of_node? found', same _ (mem_nodesOf.mpr ⟨a, left, found⟩),
      same _ (mem_nodesOf.mpr ⟨b, right, found'⟩)]
  · intro even node member
    obtain ⟨a, left, found⟩ := mem_nodesOf.mp member
    refine SortedSet.ext_mem (fun v => ?_)
    rw [mem_unionAll_vars, ← varsOf_of_node? found]
    constructor
    · exact fun inside => ⟨a, left, inside⟩
    · intro some_
      obtain ⟨b, right, inside⟩ := some_
      rwa [even a left b right]

/-- The numbers of variables of nodes add up. -/
theorem foldl_size_vars (nodes : List Node) (start : Nat)
    : nodes.foldl (fun count child => count + child.vars.size) start
      = start + ((nodes.map Node.vars).map SortedSet.size).sum := by
  induction nodes generalizing start with
  | nil => simp
  | cons node rest ih => rw [List.foldl_cons, ih, List.map_cons, List.map_cons, List.sum_cons, Nat.add_assoc]

/-- A conjunction of nodes without a common variable is decomposable. -/
theorem decomposable_of_apart (apart : children.Pairwise c.Apart)
    : (Summary.ofConjunction (c.nodesOf children)).own.decomposable = true := by
  refine decide_eq_true ?_
  have disjoint : ((c.nodesOf children).map Node.vars).Pairwise fun s t => ∀ v, v ∈ s → ¬ v ∈ t := by
    rw [List.pairwise_map, nodesOf, List.pairwise_filterMap]
    refine apart.imp (fun {a b} separate node first other second v inside => ?_)
    rw [← varsOf_of_node? first] at inside
    rw [← varsOf_of_node? second]
    exact separate v inside
  rw [foldl_size_vars, SortedSet.size_unionAll disjoint, Nat.zero_add]

/-- A conjunction of nodes is decomposable just if no two of them have a common variable. -/
theorem decomposable_iff (present : ∀ child ∈ children, child < c.nodes.size)
    : (Summary.ofConjunction (c.nodesOf children)).own.decomposable = true ↔ children.Pairwise c.Apart := by
  refine ⟨fun own => ?_, decomposable_of_apart⟩
  have adds := of_decide_eq_true own
  rw [foldl_size_vars, Nat.zero_add] at adds
  have apart := SortedSet.pairwise_of_size_unionAll adds.symm
  rw [List.pairwise_map, nodesOf, List.pairwise_filterMap] at apart
  refine apart.imp_of_mem fun {a b} left right separate v inside => ?_
  obtain ⟨first, there⟩ := c.exists_node (present a left)
  obtain ⟨second, there'⟩ := c.exists_node (present b right)
  rw [varsOf_of_node? there] at inside
  rw [varsOf_of_node? there']
  exact separate first there second there' v inside

/-- A conjunction of nodes without a common variable can be counted. -/
theorem countable_ofConjunction (apart : children.Pairwise c.Apart)
    (below : ∀ node ∈ c.nodesOf children, Countable node.throughout)
    : Countable (Summary.ofConjunction (c.nodesOf children)).throughout :=
  countable_throughout ⟨decomposable_of_apart apart, rfl⟩ below

end Nodes

/-- The common conjuncts of the children that are not the constant false. -/
theorem mem_conjuncts_alive {l : Lit} (present : ∀ child ∈ children, child < c.nodes.size)
    : l ∈ Summary.commonConjuncts ((c.nodesOf children).filter (!·.isFalse))
      ↔ (∃ child ∈ children, c.isFalse child = false)
        ∧ ∀ child ∈ children, c.isFalse child = false → l ∈ c.conjunctsOf child := by
  have alive {child node} (found : c.node? child = some node) : c.isFalse child = node.isFalse := by
    simp [isFalse, found]
  have listed {child node} (member : child ∈ children) (found : c.node? child = some node)
      (open_ : c.isFalse child = false)
      : node ∈ (c.nodesOf children).filter (!·.isFalse) := by
    refine List.mem_filter.mpr ⟨mem_nodesOf.mpr ⟨child, member, found⟩, ?_⟩
    rw [← alive found, open_]
    rfl
  rw [mem_commonConjuncts]
  refine and_congr ⟨fun some_ => ?_, fun some_ => ?_⟩ ⟨fun every child member open_ => ?_, fun every node inside => ?_⟩
  · obtain ⟨node, inside⟩ := List.exists_mem_of_ne_nil _ some_
    obtain ⟨member, open_⟩ := List.mem_filter.mp inside
    obtain ⟨child, first, found⟩ := mem_nodesOf.mp member
    exact ⟨child, first, (alive found).trans (by simpa using open_)⟩
  · obtain ⟨child, member, open_⟩ := some_
    obtain ⟨node, found⟩ := c.exists_node (present child member)
    exact List.ne_nil_of_mem (listed member found open_)
  · obtain ⟨node, found⟩ := c.exists_node (present child member)
    rw [conjunctsOf_of_node? found]
    exact every node (listed member found open_)
  · obtain ⟨member, open_⟩ := List.mem_filter.mp inside
    obtain ⟨child, first, found⟩ := mem_nodesOf.mp member
    rw [← conjunctsOf_of_node? found]
    exact every child first ((alive found).trans (by simpa using open_))

/-- Nodes that contradict each other are found to do so. -/
theorem pairwiseChecked_contradict (contradictory : children.Pairwise c.Contradict)
    (sound : ∀ child ∈ children, c.Sound child)
    : pairwiseChecked Summary.contradict (c.nodesOf children) = .ok true := by
  have proper : ∀ node ∈ c.nodesOf children, ∀ l, l ∈ node.conjuncts → l.Proper := by
    intro node member l inside
    obtain ⟨child, listed, present⟩ := mem_nodesOf.mp member
    exact (sound child listed).proper l (by rwa [conjunctsOf_of_node? present])
  obtain ⟨verdict, done, meaning⟩ := Checked.pairwiseChecked_ok
    fun a first b (_ : b ∈ c.nodesOf children) => @contradict_ok a b (proper a first)
  suffices deterministic : verdict = true by rw [done, deterministic]
  rw [meaning, nodesOf, List.pairwise_filterMap]
  refine contradictory.imp (fun {a b} found node first other second => ?_)
  obtain ⟨l, left, right⟩ := found
  rw [conjunctsOf_of_node? first] at left
  rw [conjunctsOf_of_node? second] at right
  exact List.any_eq_true.mpr ⟨l, left, by simpa using right⟩

/-- The summary of a gate that fits the nodes below exists. It lists the variables and conjuncts of the
gate, the gate can be counted, and an even gate over smooth nodes is smooth.
-/
theorem Admits.summarize (admits : c.Admits gate) (sound : ∀ child ∈ gate.children, c.Sound child)
    : ∃ summary, c.summarize gate = .ok summary ∧ c.Describes gate summary
      ∧ Countable summary.throughout
      ∧ (c.Even gate → (∀ node ∈ c.nodesOf gate.children, node.throughout.smooth = true)
          → summary.throughout.smooth = true) := by
  have all : Countable .all := ⟨rfl, rfl⟩
  have below : ∀ node ∈ c.nodesOf gate.children, Countable node.throughout := by
    intro node member
    obtain ⟨child, listed, present⟩ := mem_nodesOf.mp member
    exact (sound child listed).countable present
  cases gate with
  | constant value => exact ⟨_, rfl, ⟨by simp [Summary.ofConstant, Mentions],
      by simp [Summary.ofConstant, Forces], fun _ => trivial⟩, all, fun _ _ => rfl⟩
  | literal l => exact ⟨_, rfl, ⟨by simp [Summary.ofLiteral, Mentions],
      by simp [Summary.ofLiteral, Forces], fun _ => trivial⟩, all, fun _ _ => rfl⟩
  | and children =>
      exact ⟨_, rfl, ⟨mem_unionAll_vars, mem_unionAll_conjuncts, fun _ => trivial⟩,
        countable_ofConjunction admits below, fun _ smooth => smooth_throughout rfl smooth⟩
  | or decision children =>
      obtain ⟨contradictory, open_, _⟩ := admits
      have present : ∀ child ∈ children, child < c.nodes.size := fun child member =>
        (sound child member).present
      have alive := filter_alive open_
      have forces (l : Lit)
          : l ∈ Summary.commonConjuncts (c.nodesOf children) ↔ c.Forces l (.or decision children) := by
        rw [← alive, mem_conjuncts_alive present]
        refine and_congr ⟨fun ⟨child, member, _⟩ => List.ne_nil_of_mem member, fun some_ => ?_⟩
          (forall₂_congr fun child member => imp_iff_right (open_ child member))
        obtain ⟨child, member⟩ := List.exists_mem_of_ne_nil _ some_
        exact ⟨child, member, open_ child member⟩
      have compared := all_vars_iff present
      refine ⟨?_, ?_, ⟨?_, ?_, ?_⟩, ?_, ?_⟩
      pick_goal 2
      · show Summary.ofDisjunction (c.nodesOf children) = _
        rw [Summary.ofDisjunction, alive, pairwiseChecked_contradict contradictory sound]
        rfl
      · exact mem_unionAll_vars
      · exact forces _
      · exact compared.mp
      · exact countable_throughout ⟨rfl, rfl⟩ below
      · exact fun even smooth => smooth_throughout (compared.mpr even) smooth
  | mapping names child =>
      have here := sound child (by simp [Gate.children])
      obtain ⟨node, found⟩ := c.exists_node here.present
      have bounded : names.toGlobal.Bounded := admits.1
      refine ⟨?_, ?_, ⟨?_, ?_, fun _ => trivial⟩, ?_, ?_⟩
      pick_goal 2
      · simp only [Circuit.summarize, found, Summary.ofMapping, Renaming.literals_ok bounded]
        rfl
      · simp [Mentions, varsOf_of_node? found]
      · simp [Forces, conjunctsOf_of_node? found]
      · exact here.countable found
      · exact fun _ smooth => smooth node (mem_nodesOf.mpr ⟨child, by simp [Gate.children], found⟩)
  | twoCnf formula => exact ⟨_, rfl, ⟨Iff.rfl, by simp [Summary.ofClauses, Forces],
      fun _ => trivial⟩, all, fun _ _ => rfl⟩
  | horn formula => exact ⟨_, rfl, ⟨Iff.rfl, by simp [Summary.ofClauses, Forces],
      fun _ => trivial⟩, all, fun _ _ => rfl⟩

/-- The literals that a fitting gate forces have complements. -/
theorem Admits.proper_of_forces (admits : c.Admits gate)
    (sound : ∀ child ∈ gate.children, c.Sound child) {l : Lit} (forced : c.Forces l gate)
    : l.Proper := by
  cases gate with
  | constant value => exact forced.elim
  | literal k =>
      obtain rfl : l = k := forced
      exact admits
  | and children =>
      obtain ⟨child, member, inside⟩ := forced
      exact (sound child member).proper l inside
  | or decision children =>
      obtain ⟨nonempty, every⟩ := forced
      obtain ⟨child, member⟩ := List.exists_mem_of_ne_nil _ nonempty
      exact (sound child member).proper l (every child member)
  | mapping names child =>
      obtain ⟨k, _, image⟩ := forced
      exact (@Renaming.image_eq_some _ (fun _ => false) k l admits.1 image).2.2.1
  | twoCnf formula => exact forced.elim
  | horn formula => exact forced.elim

end KnowledgeCompiler.Circuit
