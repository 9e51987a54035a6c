import Mathlib.Data.List.Pairwise
import KnowledgeCompiler.Proofs.Circuit.Flags

/-! What an evaluation from scratch gives.

The size of a node counts its sub-circuit as a tree, its sets and its own properties are determined by its gate
and the children, and it has a property throughout if all nodes below have it themselves. In an up-to-date
circuit the derived data of each node are just that.
-/

namespace KnowledgeCompiler

open Relation

/-- The number of literal occurrences of a formula leaf. -/
def Gate.occurrences : Gate → Nat
  | .twoCnf formula => formula.clauses.flatten.length
  | .horn formula => formula.unflipped.flatten.length
  | _ => 0

/-- The size of a gate over children of these sizes, counted as a tree: the edges and what is below them. -/
def Gate.treeSize (sizeOf : NodeId → Nat) (gate : Gate) : Nat :=
  match gate with
  | .constant _ | .literal _ => 1
  | .and children | .or _ children => children.length + (children.map sizeOf).sum
  | .mapping _ child => sizeOf child + 1
  | .twoCnf _ | .horn _ => gate.occurrences

namespace Circuit

variable {c : Circuit} {id : NodeId} {node : Node} {gate : Gate} {children : List NodeId}

/-- The size of what is below a node, down to some depth. -/
def treeSizeWithin (c : Circuit) : Nat → NodeId → Nat
  | 0, _ => 0
  | depth + 1, id => (c.gate? id).elim 0 (Gate.treeSize (c.treeSizeWithin depth))

/-- The exact size of the sub-circuit of a node, counted as a tree. -/
def treeSize (c : Circuit) (id : NodeId) : Nat := c.treeSizeWithin c.nodes.size id

-----------------------------------------------------------------------------------------
-- Sizes
-----------------------------------------------------------------------------------------

theorem treeSize_congr {first second : NodeId → Nat} (same : ∀ child ∈ gate.children, first child = second child)
    : gate.treeSize first = gate.treeSize second := by
  cases gate with
  | and children | or decision children =>
      have mapped : children.map first = children.map second := List.map_congr_left same
      simp only [Gate.treeSize, mapped]
  | mapping names child => simp only [Gate.treeSize, same child (List.mem_singleton_self child)]
  | constant value | literal l | twoCnf formula | horn formula => rfl

/-- Any depth that no path exceeds gives the same size; induction on the depth. -/
theorem treeSizeWithin_eq {depth more : Nat} (within : c.Within depth id) (le : depth ≤ more)
    : c.treeSizeWithin more id = c.treeSizeWithin depth id := by
  induction depth generalizing id more with
  | zero => exact within.elim
  | succ depth ih =>
      obtain ⟨more, rfl⟩ := Nat.exists_eq_add_of_le' (Nat.lt_of_lt_of_le (Nat.succ_pos depth) le)
      simp only [treeSizeWithin]
      cases found : c.gate? id with
      | none => rfl
      | some gate =>
          refine treeSize_congr fun child member => ?_
          exact ih (within child ⟨gate, found, member⟩) (Nat.le_of_succ_le_succ le)

/-- The equations of tree sizes. -/
theorem treeSize_eq (acyclic : c.Acyclic) (closed : c.Closed) (found : c.gate? id = some gate)
    : c.treeSize id = gate.treeSize c.treeSize := by
  have within := acyclic.within closed (lt_of_gate? found)
  rw [treeSize, ← treeSizeWithin_eq within (Nat.le_succ _), treeSizeWithin, found]
  rfl

theorem addSizes_le (a b : Nat) : Summary.addSizes a b ≤ Text.largestWord := Nat.min_le_right _ _

/-- The sizes of children add up to the bound. -/
theorem foldl_addSizes {nodes : List Node} {start : Nat} (small : start ≤ Text.largestWord)
    : nodes.foldl (fun size child => Summary.addSizes size child.size) start
      = min Text.largestWord (start + (nodes.map Node.size).sum) := by
  induction nodes generalizing start with
  | nil => simp [small]
  | cons node rest ih =>
      rw [List.foldl_cons, ih (addSizes_le ..), Summary.addSizes, List.map_cons, List.sum_cons]
      omega

/-- The size of an inner node over nodes with bounded sizes. -/
theorem innerSize_eq {exact : NodeId → Nat} (present : ∀ child ∈ children, child < c.nodes.size)
    (sizes : ∀ {child node}, child ∈ children → c.node? child = some node
      → node.size = min Text.largestWord (exact child))
    : Summary.innerSize (c.nodesOf children)
      = min Text.largestWord (children.length + (children.map exact).sum) := by
  have counted : (c.nodesOf children).length = children.length
      ∧ min Text.largestWord ((c.nodesOf children).map Node.size).sum
        = min Text.largestWord (children.map exact).sum := by
    induction children with
    | nil => exact ⟨rfl, rfl⟩
    | cons child rest ih =>
        obtain ⟨here, below⟩ := List.forall_mem_cons.mp present
        obtain ⟨length, sum⟩ := ih below fun member => sizes (List.mem_cons_of_mem child member)
        obtain ⟨node, found⟩ := c.exists_node here
        have size := sizes List.mem_cons_self found
        have first : c.nodesOf (child :: rest) = node :: c.nodesOf rest := by simp [nodesOf, found]
        rw [first]
        simp only [List.length_cons, List.map_cons, List.sum_cons, length, true_and]
        omega
  obtain ⟨length, sum⟩ := counted
  unfold Summary.innerSize
  rw [length]
  cases listed : c.nodesOf children with
  | nil =>
      have none_ : children = [] := List.eq_nil_of_length_eq_zero (length ▸ by rw [listed]; rfl)
      simp [none_]
  | cons first rest =>
      rw [listed, List.map_cons, List.sum_cons] at sum
      rw [List.foldl_cons, foldl_addSizes (addSizes_le ..), Summary.addSizes]
      omega

/-- The number of literal occurrences of each formula leaf is a 64-bit number. -/
def FormulasFit (c : Circuit) : Prop := ∀ {id gate}, c.gate? id = some gate → gate.occurrences ≤ Text.largestWord

/-- The size of a node is the exact one, up to the bound; induction from the children upwards. -/
theorem UpToDate.size_eq (upToDate : c.UpToDate) (fit : c.FormulasFit) (found : c.node? id = some node)
    : node.size = min Text.largestWord (c.treeSize id) := by
  induction id using upToDate.acyclic.induction generalizing node with
  | _ id ih =>
      have here := gate?_of_node? found
      have done := upToDate.derived id node found
      have closed := upToDate.closed here
      have sizes : ∀ {child below}, child ∈ node.children → c.node? child = some below
          → below.size = min Text.largestWord (c.treeSize child) := fun member there =>
        ih _ ⟨_, here, member⟩ there
      rw [treeSize_eq upToDate.acyclic upToDate.closed here, Node.size]
      have occurrences := fit here
      rw [Node.children] at sizes
      cases gate : node.gate with
      | constant value | literal l =>
          rw [gate] at done
          rw [← Except.ok.inj done]
          rfl
      | and children =>
          rw [gate] at done closed sizes
          rw [← Except.ok.inj done]
          exact innerSize_eq closed sizes
      | or decision children =>
          rw [gate] at done closed sizes
          obtain ⟨_, _, size, _⟩ := ofDisjunction_eq done
          rw [size]
          exact innerSize_eq closed sizes
      | mapping names child =>
          rw [gate] at here sizes
          obtain ⟨other, below, there, inside, renamed⟩ := upToDate.summarize_mapping here
          obtain rfl := Option.some.inj (found.symm.trans there)
          obtain ⟨_, _, _, _, same⟩ := ofMapping_eq renamed
          have size := sizes (List.mem_singleton_self child) inside
          rw [same]
          simp only [Summary.addSizes, size, Gate.treeSize]
          omega
      | twoCnf formula | horn formula =>
          rw [gate] at done occurrences
          rw [← Except.ok.inj done]
          exact (Nat.min_eq_right occurrences).symm

-----------------------------------------------------------------------------------------
-- Sets and properties of a node itself
-----------------------------------------------------------------------------------------

/-- The literals of the sub-circuit of a node. -/
def literalsOf (c : Circuit) (id : NodeId) : SortedSet Lit := (c.node? id).elim ∅ (·.summary.literals)

theorem literalsOf_of_node? (found : c.node? id = some node) : c.literalsOf id = node.summary.literals := by
  simp [literalsOf, found]

/-- A literal stands in a gate or below it. -/
def Contains (c : Circuit) (l : Lit) : Gate → Prop
  | .constant _ => False
  | .literal k => l = k
  | .and children | .or _ children => ∃ child ∈ children, l ∈ c.literalsOf child
  | .mapping names child => ∃ k ∈ c.literalsOf child, names.toGlobal.image k = some l
  | .twoCnf formula => l ∈ formula.clauses.flatten
  | .horn formula => l ∈ formula.unflipped.flatten

/-- A literal is a conjunct of a gate: of a child of a conjunction, of all children of a disjunction but the
constant false, or the image of one under a renaming.
-/
def Commits (c : Circuit) (l : Lit) : Gate → Prop
  | .literal k => l = k
  | .and children => ∃ child ∈ children, l ∈ c.conjunctsOf child
  | .or _ children =>
      (∃ child ∈ children, c.isFalse child = false)
      ∧ ∀ child ∈ children, c.isFalse child = false → l ∈ c.conjunctsOf child
  | .mapping names child => ∃ k ∈ c.conjunctsOf child, names.toGlobal.image k = some l
  | .constant _ | .twoCnf _ | .horn _ => False

/-- A summary holds the variables, literals and conjuncts of a gate over the nodes below, and its own
properties say whether a conjunction splits its variables among its children, whether the children of a
disjunction contradict each other, and whether they have the same variables.
-/
structure Evaluates (c : Circuit) (gate : Gate) (summary : Summary) : Prop where
  vars : ∀ {v}, v ∈ summary.vars ↔ c.Mentions v gate
  literals : ∀ {l}, l ∈ summary.literals ↔ c.Contains l gate
  conjuncts : ∀ {l}, l ∈ summary.conjuncts ↔ c.Commits l gate
  decomposable
    : summary.own.decomposable = true ↔ ∀ children, gate = .and children → children.Pairwise c.Apart
  deterministic
    : summary.own.deterministic = true
      ↔ ∀ decision children,
          gate = .or decision children
          → (children.filter fun child => !c.isFalse child).Pairwise c.Contradict
  smooth : summary.own.smooth = true ↔ c.Even gate

theorem mem_unionAll_literals {l : Lit}
    : l ∈ SortedSet.unionAll ((c.nodesOf children).map fun child => child.summary.literals)
      ↔ ∃ child ∈ children, l ∈ c.literalsOf child := by
  rw [SortedSet.mem_unionAll]
  constructor
  · intro found
    obtain ⟨literals, member, inside⟩ := found
    obtain ⟨node, listed, rfl⟩ := List.mem_map.mp member
    obtain ⟨child, first, present⟩ := mem_nodesOf.mp listed
    exact ⟨child, first, by rwa [literalsOf_of_node? present]⟩
  · intro found
    obtain ⟨child, first, inside⟩ := found
    cases present : c.node? child with
    | none => simp [literalsOf, present] at inside
    | some node =>
        rw [literalsOf_of_node? present] at inside
        exact ⟨_, List.mem_map_of_mem (mem_nodesOf.mpr ⟨child, first, present⟩), inside⟩

/-- A gate whose numbers are in range can be summarized, and the summary is what the nodes below give. -/
theorem summarize_evaluates (range : gate.InRange) (present : ∀ child ∈ gate.children, child < c.nodes.size)
    (proper : ∀ child ∈ gate.children, ∀ l, l ∈ c.conjunctsOf child → l.Proper)
    : ∃ summary, c.summarize gate = .ok summary ∧ c.Evaluates gate summary := by
  cases gate with
  | constant value | literal l | twoCnf formula | horn formula =>
      refine ⟨_, rfl, ?_, ?_, ?_, by simp [Summary.ofConstant, Summary.ofLiteral, Summary.ofClauses, Properties.all],
        by simp [Summary.ofConstant, Summary.ofLiteral, Summary.ofClauses, Properties.all], ?_⟩
      all_goals
        simp [Summary.ofConstant, Summary.ofLiteral, Summary.ofClauses, Mentions, Contains, Commits, Even,
          Properties.all]
  | and children =>
      have split := @decomposable_iff c children present
      refine ⟨_, rfl, mem_unionAll_vars, mem_unionAll_literals, mem_unionAll_conjuncts, ?_,
        by simp [Summary.ofConjunction, Properties.all], by simp [Summary.ofConjunction, Properties.all, Even]⟩
      rw [split]
      simp
  | or decision children =>
      obtain ⟨verdict, compared, meaning⟩ := @compare_children c children present proper
      have done : ∃ summary, Summary.ofDisjunction (c.nodesOf children) = .ok summary := by
        rw [Summary.ofDisjunction, compared]
        exact ⟨_, rfl⟩
      obtain ⟨summary, done⟩ := done
      obtain ⟨other, compared', _, literals, own, vars, conjuncts, _⟩ := ofDisjunction_eq done
      obtain rfl := Except.ok.inj (compared.symm.trans compared')
      refine ⟨summary, done, ?_, ?_, ?_, ?_, ?_, ?_⟩
      · exact vars ▸ mem_unionAll_vars
      · exact literals ▸ mem_unionAll_literals
      · exact conjuncts ▸ mem_conjuncts_alive present
      · simp [own, Properties.all]
      · rw [own]
        simp [meaning]
      · rw [own]
        exact all_vars_iff present
  | mapping names child =>
      have bounded : names.toGlobal.Bounded := range.1
      obtain ⟨node, found⟩ := c.exists_node (present child (List.mem_singleton_self child))
      refine ⟨?_, ?_, ?_⟩
      pick_goal 2
      · simp only [summarize, found, Summary.ofMapping, Renaming.literals_ok bounded]
        rfl
      · constructor <;>
          simp [Mentions, Contains, Commits, Even, varsOf_of_node? found, literalsOf_of_node? found,
            conjunctsOf_of_node? found, Properties.all]

/-- In an up-to-date circuit the derived data of a node are what the nodes below it give. -/
theorem UpToDate.evaluates (upToDate : c.UpToDate) (inRange : c.InRange) (found : c.node? id = some node)
    : c.Evaluates node.gate node.summary := by
  have here := gate?_of_node? found
  obtain ⟨summary, done, evaluates⟩ := summarize_evaluates (inRange here) (upToDate.closed here)
    fun _ _ _ inside => (upToDate.conjunct_sound inRange inside).1
  obtain rfl := Except.ok.inj ((upToDate.derived id node found).symm.trans done)
  exact evaluates

/-- No assignment satisfies two children of a disjunction that is deterministic itself: neither is the constant
false, so they contradict each other by conjuncts that both would have to satisfy.
-/
theorem UpToDate.eq_of_satisfies_children {σ : Assignment} {decision : Option Var} {a b : NodeId}
    (upToDate : c.UpToDate) (inRange : c.InRange) (found : c.node? id = some node)
    (disjunction : node.gate = .or decision children) (deterministic : node.summary.own.deterministic = true)
    (left : a ∈ children) (right : b ∈ children) (first : c.Satisfies σ a) (second : c.Satisfies σ b)
    : a = b := by
  by_contra differ
  have exclusive := (upToDate.evaluates inRange found).deterministic.mp deterministic decision children disjunction
  have alive {child : NodeId} (member : child ∈ children) (holds : c.Satisfies σ child)
      : child ∈ children.filter fun child => !c.isFalse child := by
    refine List.mem_filter.mpr ⟨member, ?_⟩
    rw [Bool.not_eq_true', ← Bool.not_eq_true]
    exact fun falsum => not_satisfies_of_isFalse falsum holds
  have contradict := exclusive.forall (alive left first) (alive right second) differ
  exact upToDate.exclusive_of_contradict inRange contradict first second

-----------------------------------------------------------------------------------------
-- Properties throughout
-----------------------------------------------------------------------------------------

/-- A sub-circuit has a property if all of its nodes have it themselves; induction from the children
upwards.
-/
theorem UpToDate.flag_iff_below {flag : Properties → Bool} (upToDate : c.UpToDate)
    (meets : ∀ p q, flag (p.meet q) = (flag p && flag q)) (all : flag .all = true)
    (found : c.node? id = some node)
    : flag node.throughout = true
      ↔ ∀ {other below}, ReflTransGen c.IsChild other id → c.node? other = some below
          → flag below.summary.own = true := by
  induction id using upToDate.acyclic.induction generalizing node with
  | _ id ih =>
      have here := gate?_of_node? found
      rw [upToDate.flag_iff_children meets all found]
      constructor
      · intro holds other below path there
        rcases path.cases_tail with rfl | ⟨child, first, link⟩
        · exact Option.some.inj (found.symm.trans there) ▸ holds.1
        · have member := (isChild_iff here).mp link
          obtain ⟨inner, present⟩ := c.exists_node (upToDate.closed here child member)
          have throughout := holds.2 child member
          rw [throughoutOf_of_node? present] at throughout
          exact (ih child link present).mp throughout first there
      · intro every
        refine ⟨every .refl found, fun child member => ?_⟩
        obtain ⟨inner, present⟩ := c.exists_node (upToDate.closed here child member)
        have link : c.IsChild child id := ⟨_, here, member⟩
        rw [throughoutOf_of_node? present]
        exact (ih child link present).mpr fun path there => every (path.tail link) there

/-- What is below a node has a property throughout if the node has it. -/
theorem UpToDate.flag_below {flag : Properties → Bool} {other : NodeId} (upToDate : c.UpToDate)
    (meets : ∀ p q, flag (p.meet q) = (flag p && flag q)) (all : flag .all = true)
    (holds : flag (c.throughoutOf id) = true) (below : ReflTransGen c.IsChild other id)
    : flag (c.throughoutOf other) = true := by
  induction below using ReflTransGen.head_induction_on with
  | refl => exact holds
  | head link _ ih =>
      obtain ⟨gate, found, member⟩ := link
      exact upToDate.flag_child meets all found ih member

/-- A sub-circuit is decomposable if the node is one and the sub-circuits of the children are decomposable. -/
theorem UpToDate.decomposable_iff (upToDate : c.UpToDate) (inRange : c.InRange) (found : c.gate? id = some gate)
    : (c.throughoutOf id).decomposable = true
      ↔ (∀ children, gate = .and children → children.Pairwise c.Apart)
        ∧ ∀ child ∈ gate.children, (c.throughoutOf child).decomposable = true := by
  obtain ⟨node, present, rfl⟩ := Option.map_eq_some_iff.mp found
  rw [throughoutOf_of_node? present, upToDate.flag_iff_children (fun _ _ => rfl) rfl present,
    (upToDate.evaluates inRange present).decomposable]
  exact Iff.rfl

/-- A sub-circuit is deterministic if the children of the node exclude each other in case it is a disjunction, and
the sub-circuits of the children are deterministic.
-/
theorem UpToDate.deterministic_iff (upToDate : c.UpToDate) (inRange : c.InRange) (found : c.gate? id = some gate)
    : (c.throughoutOf id).deterministic = true
      ↔ (∀ decision children,
          gate = .or decision children
          → (children.filter fun child => !c.isFalse child).Pairwise c.Contradict)
        ∧ ∀ child ∈ gate.children, (c.throughoutOf child).deterministic = true := by
  obtain ⟨node, present, rfl⟩ := Option.map_eq_some_iff.mp found
  rw [throughoutOf_of_node? present, upToDate.flag_iff_children (fun _ _ => rfl) rfl present,
    (upToDate.evaluates inRange present).deterministic]
  exact Iff.rfl

/-- The conjuncts of a node are those that its gate commits to. -/
theorem UpToDate.mem_conjunctsOf (upToDate : c.UpToDate) (inRange : c.InRange) (found : c.gate? id = some gate)
    {l : Lit}
    : l ∈ c.conjunctsOf id ↔ c.Commits l gate := by
  obtain ⟨node, present, rfl⟩ := Option.map_eq_some_iff.mp found
  rw [conjunctsOf_of_node? present]
  exact (upToDate.evaluates inRange present).conjuncts

end Circuit

end KnowledgeCompiler
