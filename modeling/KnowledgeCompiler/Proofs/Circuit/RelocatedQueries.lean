import Mathlib.Data.Multiset.MapFold
import KnowledgeCompiler.Proofs.Circuit.Relocation
import KnowledgeCompiler.Proofs.Circuit.Requests
import KnowledgeCompiler.Proofs.Circuit.Cardinality
import KnowledgeCompiler.Proofs.Circuit.Counting
import KnowledgeCompiler.Proofs.Circuit.Satisfiability

/-! Queries at other places.

What a query comes to at an inner node does not depend on the order in which it combines the answers of the children.
So it comes to the same where a sub-circuit is found again at other places, up to the node that an error names.
-/

namespace KnowledgeCompiler.Build

open Relation
open KnowledgeCompiler.Circuit (Relocates Resembles)

variable {β : Type} {c d : Circuit} {root id : NodeId} {place : NodeId → NodeId}
variable {literals : List Lit} {marked : List Var}

-----------------------------------------------------------------------------------------
-- Combining in any order
-----------------------------------------------------------------------------------------

/-- Values that are all there are combined to a value that does not depend on their order. -/
def Unordered (step : β → β → β × Bool) (start : β) : Prop :=
  ∃ total : Multiset β → β, ∀ (children : List NodeId) (value : NodeId → Outcome β) (known : NodeId → β),
    (∀ child ∈ children, value child = .ok (known child))
    → combine step value children start = .ok (total (children.map known : List β))

/-- A walk that combines in any order, and that has an answer at each constant and each literal. -/
structure Walk.Portable (walk : Walk β) : Prop where
  conjoin : Unordered walk.conjoin walk.unit
  disjoin : Unordered walk.disjoin walk.zero
  constant
    : ∀ (value : Bool) (literals : List Lit) (marked : List Var),
        ∃ answer, ∀ id vars, walk.leaf id (.constant value) vars literals marked = .ok answer
  literal
    : ∀ {l : Lit} (literals : List Lit) (marked : List Var), l.Proper
      → ∃ answer, ∀ id vars, walk.leaf id (.literal l) vars literals marked = .ok answer

/-- Values at other places are combined to the same. -/
theorem Unordered.placed {step : β → β → β × Bool} {start : β} (unordered : Unordered step start)
    {children others : List NodeId} (placed : others.Perm (children.map place)) {value value' : NodeId → Outcome β}
    (each : ∀ child ∈ children, ∃ answer, value child = .ok answer ∧ value' (place child) = .ok answer)
    : ∃ answer, combine step value children start = .ok answer ∧ combine step value' others start = .ok answer := by
  obtain ⟨total, combined⟩ := unordered
  have there : ∀ other ∈ others, ∃ answer, value' other = .ok answer := by
    intro other member
    obtain ⟨child, inside, rfl⟩ := List.mem_map.mp (placed.mem_iff.mp member)
    obtain ⟨answer, _, found⟩ := each child inside
    exact ⟨answer, found⟩
  have : Nonempty β := ⟨start⟩
  choose! known here there' using each
  choose! known' found using there
  have same : (others.map known' : Multiset β) = (children.map known : List β) := by
    rw [Multiset.coe_eq_coe]
    have listed := placed.map known'
    rw [List.map_map] at listed
    have each : children.map (known' ∘ place) = children.map known := List.map_congr_left fun child member =>
      Except.ok.inj ((found _ (placed.mem_iff.mpr (List.mem_map_of_mem member))).symm.trans (there' child member))
    rwa [each] at listed
  exact ⟨_, combined children value known here, same ▸ combined others value' known' found⟩

-----------------------------------------------------------------------------------------
-- The three walks
-----------------------------------------------------------------------------------------

theorem satisfiableWalk_portable : satisfiableWalk.Portable where
  conjoin := by
    refine ⟨fun values => decide (∀ value ∈ values, value = true), fun children value known each => ?_⟩
    refine (conjoin_satisfiable each).trans (congrArg Except.ok ?_)
    simp [List.all_eq]
  disjoin := by
    refine ⟨fun values => decide (true ∈ values), fun children value known each => ?_⟩
    refine (disjoin_satisfiable each).trans (congrArg Except.ok ?_)
    simp [List.any_eq]
  constant value literals marked := ⟨value, fun _ _ => rfl⟩
  literal {l} literals marked proper := by
    refine ⟨!literals.contains (-l), fun id vars => ?_⟩
    simp only [satisfiableWalk, proper.negate]
    rfl

theorem countWalk_portable : countWalk.Portable where
  conjoin := by
    refine ⟨Multiset.prod, fun children value known each => ?_⟩
    refine (conjoin_count each 1).trans (congrArg Except.ok ?_)
    rw [Nat.one_mul, Multiset.prod_coe]
  disjoin := by
    refine ⟨Multiset.sum, fun children value known each => ?_⟩
    refine (disjoin_count each 0).trans (congrArg Except.ok ?_)
    rw [Nat.zero_add, Multiset.sum_coe]
  constant value literals marked := ⟨if value then 1 else 0, fun _ _ => rfl⟩
  literal {l} literals marked proper := by
    refine ⟨if literals.contains (-l) then 0 else 1, fun id vars => ?_⟩
    simp only [countWalk, proper.negate]
    rfl

/-- The least of three cardinalities does not depend on which comes first. -/
instance smaller_commutes : RightCommutative smaller where
  right_comm a b c := by
    cases a <;> cases b <;> cases c <;> simp [smaller, Nat.min_comm, Nat.min_left_comm]

theorem cardinalityWalk_portable : cardinalityWalk.Portable where
  conjoin := by
    refine ⟨fun values => if none ∈ values then none else some (values.map fun n => n.getD 0).sum,
      fun children value known each => ?_⟩
    dsimp only
    by_cases infinite : ∃ child ∈ children, known child = none
    · rw [if_pos (by simpa using infinite)]
      exact conjoin_infinite each infinite 0
    · rw [if_neg (by simpa using infinite)]
      have finite : ∀ child ∈ children, value child = .ok (some ((known child).getD 0)) := by
        intro child member
        rw [each child member]
        cases found : known child with
        | none => exact absurd ⟨child, member, found⟩ infinite
        | some n => rfl
      refine (conjoin_cardinality finite 0).trans (congrArg (Except.ok ∘ some) ?_)
      rw [Nat.zero_add, Multiset.map_coe, Multiset.sum_coe, List.map_map]
      rfl
  disjoin := by
    refine ⟨Multiset.foldl smaller none, fun children value known each => ?_⟩
    refine (disjoin_cardinality each none).trans (congrArg Except.ok ?_)
    rw [Multiset.coe_foldl, List.foldl_map]
  constant value literals marked := ⟨if value then some 0 else none, fun _ _ => rfl⟩
  literal {l} literals marked proper := by
    refine ⟨if -l ∈ literals then none else if l ∉ literals ∧ l < 0 ∧ l.var ∈ marked then some 1 else some 0,
      fun id vars => ?_⟩
    simp only [cardinalityWalk, literalCardinality_ok proper]
    rfl

-----------------------------------------------------------------------------------------
-- Answers
-----------------------------------------------------------------------------------------

/-- A walk has the same answer at a leaf and at its other place. -/
theorem Walk.Portable.leaf_moved {walk : Walk β} (portable : walk.Portable) {node other : Node}
    (found : c.node? id = some node) (found' : d.node? (place id) = some other)
    (moved : node.gate.Moved place other.gate) (leaf : node.kind.isInner = false) (range : node.gate.InRange)
    (fuel fuel' : Nat)
    : ∃ answer, walk.answer c (fuel + 1) id literals marked = .ok answer
      ∧ walk.answer d (fuel' + 1) (place id) literals marked = .ok answer := by
  have kept : other.gate = node.gate := moved.eq_of_leaf leaf
  have leaf' : other.kind.isInner = false := by rwa [Node.kind, kept]
  rw [answer_leaf found leaf, answer_leaf found' leaf', kept]
  rw [kept] at moved
  rw [Node.kind] at leaf
  generalize node.gate = gate at moved leaf range
  cases moved with
  | constant value =>
      obtain ⟨answer, each⟩ := portable.constant value literals marked
      exact ⟨answer, each _ _, each _ _⟩
  | literal l =>
      obtain ⟨answer, each⟩ := portable.literal literals marked range
      exact ⟨answer, each _ _, each _ _⟩
  | and placed | or placed => cases leaf

/-- Where a walk meets nothing that it refuses, it has the same answer at the other place; induction on the fuel. -/
theorem Walk.Portable.answer {walk : Walk β} (portable : walk.Portable) (relocates : c.Relocates d root place)
    (resembles : ∀ {id}, ReflTransGen c.IsChild id root → c.Resembles d id (place id)) (inRange : c.InRange)
    (passes : ∀ {id node}, ReflTransGen c.IsChild id root → c.node? id = some node
      → ∀ other, walk.check other node.throughout = .ok ())
    {fuel : Nat} (within : c.Within fuel id) (below : ReflTransGen c.IsChild id root)
    : ∃ answer, walk.answer c fuel id literals marked = .ok answer
      ∧ walk.answer d fuel (place id) literals marked = .ok answer := by
  induction fuel generalizing id with
  | zero => exact within.elim
  | succ fuel ih =>
      obtain ⟨gate, gate', here, there, moved⟩ := relocates.moved below
      obtain ⟨node, other, found, found', same, _⟩ := resembles below
      obtain rfl := Option.some.inj (here.symm.trans (Circuit.gate?_of_node? found))
      obtain rfl := Option.some.inj (there.symm.trans (Circuit.gate?_of_node? found'))
      have step : ∀ child ∈ node.gate.children, ∃ answer, walk.answer c fuel child literals marked = .ok answer
          ∧ walk.answer d fuel (place child) literals marked = .ok answer := by
        intro child member
        have link : c.IsChild child id := ⟨node.gate, here, member⟩
        exact ih (within child link) (.head link below)
      have checked := passes below found id
      have checked' : walk.check (place id) other.throughout = .ok () := by
        rw [Node.throughout, same]
        exact passes below found (place id)
      have leaf : node.kind.isInner = false → _ := fun leaf =>
        @Walk.Portable.leaf_moved β c d id place literals marked walk portable node other found found' moved leaf
          (inRange here) fuel fuel
      rw [Node.kind] at leaf
      generalize gate : node.gate = this at moved step leaf
      generalize gate' : other.gate = that at moved
      cases moved with
      | constant value | literal l => exact leaf rfl
      | and placed =>
          rw [answer_and found gate, answer_and found' gate', checked, checked']
          exact portable.conjoin.placed placed step
      | or placed =>
          rw [answer_or found gate, answer_or found' gate', checked, checked']
          exact portable.disjoin.placed placed step

/-- The plain answers are the same. -/
theorem Walk.Portable.plain {walk : Walk β} (portable : walk.Portable) (relocates : c.Relocates d root place)
    (upToDate : c.UpToDate) (upToDate' : d.UpToDate) (inRange : c.InRange) (inRange' : d.InRange)
    (passes : ∀ {id node}, ReflTransGen c.IsChild id root → c.node? id = some node
      → ∀ other, walk.check other node.throughout = .ok ())
    : ∃ answer, walk.plain c root literals marked = .ok answer
      ∧ walk.plain d (place root) literals marked = .ok answer := by
  have more := Nat.le_max_left (c.nodes.size + 1) (d.nodes.size + 1)
  have more' := Nat.le_max_right (c.nodes.size + 1) (d.nodes.size + 1)
  have within := within_size upToDate root
  obtain ⟨answer, here, there⟩ := @Walk.Portable.answer _ _ _ root root place literals marked walk portable relocates
    (fun below => relocates.resembles upToDate upToDate' inRange inRange' below) inRange passes _
    (within.mono more) .refl
  rw [answer_within within more] at here
  rw [answer_within (within_size upToDate' (place root)) more'] at there
  exact ⟨answer, here, there⟩

end KnowledgeCompiler.Build

-----------------------------------------------------------------------------------------
-- Outcomes
-----------------------------------------------------------------------------------------

namespace KnowledgeCompiler

/-- The error with the nodes that it names at other places. -/
def CircuitError.relocate (place : NodeId → NodeId) : CircuitError → CircuitError
  | .nodeNotFound id => .nodeNotFound (place id)
  | .cycle source target => .cycle (place source) (place target)
  | .notInnerNode id => .notInnerNode (place id)
  | .notDecomposable id => .notDecomposable (place id)
  | .notDeterministic id => .notDeterministic (place id)
  | .notSmooth id => .notSmooth (place id)
  | .cardinalityUnsupported id => .cardinalityUnsupported (place id)
  | .incompleteMapping id v => .incompleteMapping (place id) v
  | .notSerializable id => .notSerializable (place id)
  | cause => cause

/-- The outcome, and if it is an error then with the nodes that it names at other places. -/
def Outcome.relocate {β : Type} (place : NodeId → NodeId) : Outcome β → Outcome β
  | .ok answer => .ok answer
  | .error (.error cause) => .error (.error (cause.relocate place))
  | .error (.fault cause) => .error (.fault cause)

/-- What does not depend on the node comes first. -/
theorem Outcome.relocate_bind {α β : Type} {place : NodeId → NodeId} {first : Outcome α} {next next' : α → Outcome β}
    (fixed : first.relocate place = first) (same : ∀ a, first = .ok a → next' a = (next a).relocate place)
    : (first >>= next') = (first >>= next).relocate place := by
  cases first with
  | ok a => exact same a rfl
  | error cause =>
      cases cause with
      | error cause =>
          have kept : Failure.error (cause.relocate place) = Failure.error cause := Except.error.inj fixed
          exact congrArg Except.error kept.symm
      | fault cause => rfl

namespace Build

open Relation
open KnowledgeCompiler.Circuit (Relocates Resembles)
open KnowledgeCompiler.Action (outcome)

variable {c d : Circuit} {root id : NodeId} {place : NodeId → NodeId}
variable {literals : List Lit} {marked : List Var}

theorem assumable_relocate : (assumable literals).relocate place = assumable literals := by
  unfold assumable
  split <;> rfl

/-- Below a decomposable node all nodes are decomposable. -/
theorem check_below (upToDate : c.UpToDate) (decomposable : (c.throughoutOf root).decomposable = true)
    (present : root < c.nodes.size) (below : ReflTransGen c.IsChild id root) {node : Node}
    (found : c.node? id = some node) (other : NodeId)
    : satisfiableWalk.check other node.throughout = .ok () := by
  obtain ⟨top, there⟩ := c.exists_node present
  rw [Circuit.throughoutOf_of_node? there] at decomposable
  have meets : ∀ p q : Properties, (p.meet q).decomposable = (p.decomposable && q.decomposable) := fun _ _ => rfl
  have every := @(upToDate.flag_iff_below meets rfl there).mp decomposable
  apply check_satisfiable
  exact (upToDate.flag_iff_below meets rfl found).mpr fun path inner => every (path.trans below) inner

section Outcomes

variable (relocates : c.Relocates d root place) (upToDate : c.UpToDate) (upToDate' : d.UpToDate)
variable (inRange : c.InRange) (inRange' : d.InRange)

include relocates upToDate upToDate' inRange inRange'

/-- The walk for satisfiability comes to the same. If the root is not decomposable it refuses there, unless it is a
leaf.
-/
theorem satisfiable_plain_relocate
    : satisfiableWalk.plain d (place root) literals marked
      = (satisfiableWalk.plain c root literals marked).relocate place := by
  obtain ⟨node, other, found, found', same, _⟩ := relocates.resembles upToDate upToDate' inRange inRange' .refl
  cases decomposable : node.throughout.decomposable with
  | true =>
      have throughout := Circuit.throughoutOf_of_node? found ▸ decomposable
      obtain ⟨answer, here, there⟩ := @Walk.Portable.plain _ _ _ root place literals marked _ satisfiableWalk_portable
        relocates upToDate upToDate' inRange inRange'
        fun below there => check_below upToDate throughout (Circuit.lt_of_node? found) below there
      rw [here, there]
      rfl
  | false =>
      have refused : ∀ id, satisfiableWalk.check id node.throughout = .error (.error (.notDecomposable id)) := by
        simp [satisfiableWalk, decomposable]
      have refused' : ∀ id, satisfiableWalk.check id other.throughout = .error (.error (.notDecomposable id)) := by
        rwa [Node.throughout, same]
      obtain ⟨gate, gate', here, there, moved⟩ := relocates.moved .refl
      obtain rfl := Option.some.inj (here.symm.trans (Circuit.gate?_of_node? found))
      obtain rfl := Option.some.inj (there.symm.trans (Circuit.gate?_of_node? found'))
      have leaf : node.kind.isInner = false → _ := fun leaf =>
        @Walk.Portable.leaf_moved _ c d root place literals marked _ satisfiableWalk_portable node other found found'
          moved leaf (inRange here) c.nodes.size d.nodes.size
      rw [Node.kind] at leaf
      unfold Walk.plain
      generalize gate : node.gate = this at moved leaf
      generalize gate' : other.gate = that at moved
      cases moved with
      | constant value | literal l =>
          obtain ⟨answer, here, there⟩ := leaf rfl
          rw [here, there]
          rfl
      | and placed =>
          rw [Walk.answer_and found gate, Walk.answer_and found' gate', refused, refused']
          rfl
      | or placed =>
          rw [Walk.answer_or found gate, Walk.answer_or found' gate', refused, refused']
          rfl

theorem satisfiableOutcome_relocate (visits : VisitOrder Var)
    : satisfiableOutcome visits d (place root) literals marked
      = (satisfiableOutcome visits c root literals marked).relocate place := by
  refine Outcome.relocate_bind assumable_relocate fun _ _ => ?_
  refine Outcome.relocate_bind ?_ fun found _ => ?_
  · cases assumed? literals (visits.visit (SortedSet.ofList marked).toList) <;> rfl
  · cases found with
    | some v => rfl
    | none => exact satisfiable_plain_relocate relocates upToDate upToDate' inRange inRange'

theorem countOutcome_relocate
    : countOutcome d (place root) literals = (countOutcome c root literals).relocate place := by
  refine Outcome.relocate_bind assumable_relocate fun _ _ => ?_
  obtain ⟨node, other, found, found', same, _⟩ := relocates.resembles upToDate upToDate' inRange inRange' .refl
  obtain ⟨answer, here, there⟩ := @Walk.Portable.plain _ _ _ root place literals [] _ countWalk_portable
    relocates upToDate upToDate' inRange inRange' fun _ _ _ => rfl
  have throughout : other.throughout = node.throughout := congrArg Summary.throughout same
  rw [found, found']
  dsimp only
  rw [here, there, throughout]
  unfold countable
  obtain ⟨decomposable, deterministic, smooth⟩ := node.throughout
  cases decomposable <;> cases deterministic <;> cases smooth <;> rfl

theorem cardinalityOutcome_relocate
    : cardinalityOutcome d (place root) literals marked
      = (cardinalityOutcome c root literals marked).relocate place := by
  refine Outcome.relocate_bind assumable_relocate fun _ _ => ?_
  obtain ⟨node, other, found, found', same, _⟩ := relocates.resembles upToDate upToDate' inRange inRange' .refl
  obtain ⟨answer, here, there⟩ := @Walk.Portable.plain _ _ _ root place literals marked _ cardinalityWalk_portable
    relocates upToDate upToDate' inRange inRange' fun _ _ _ => rfl
  have throughout : other.throughout = node.throughout := congrArg Summary.throughout same
  rw [found, found']
  dsimp only
  rw [here, there, throughout]
  obtain ⟨decomposable, _, _⟩ := node.throughout
  cases decomposable <;> rfl

end Outcomes

/-- Queries come to the same at other places, whatever has been asked before. -/
theorem queries_relocate {s s' : Journaled Circuit} (reachable : s.state.Reachable) (reachable' : s'.state.Reachable)
    (inRange : s.state.InRange) (inRange' : s'.state.InRange) (relocates : s.state.Relocates s'.state root place)
    (small : ∀ l ∈ literals, l.var < 2147483648) (visits : VisitOrder Var) (marked : List Var) (memoize : Bool)
    : outcome (modelCount (place root) literals memoize) s'
        = Outcome.relocate place (outcome (modelCount root literals memoize) s)
      ∧ outcome (isSatisfiableBy visits (place root) literals marked memoize) s'
        = Outcome.relocate place (outcome (isSatisfiableBy visits root literals marked memoize) s)
      ∧ outcome (minimumCardinality (place root) literals marked memoize) s'
        = Outcome.relocate place (outcome (minimumCardinality root literals marked memoize) s) := by
  have upToDate := reachable.consistent.upToDate
  have upToDate' := reachable'.consistent.upToDate
  have asked := reachable.asked inRange
  have asked' := reachable'.asked inRange'
  rw [(modelCount_computes upToDate inRange memoize small).outcome_eq asked,
    (modelCount_computes upToDate' inRange' memoize small).outcome_eq asked',
    (isSatisfiableBy_computes upToDate inRange memoize small visits).outcome_eq asked,
    (isSatisfiableBy_computes upToDate' inRange' memoize small visits).outcome_eq asked',
    (minimumCardinality_computes upToDate inRange memoize small).outcome_eq asked,
    (minimumCardinality_computes upToDate' inRange' memoize small).outcome_eq asked']
  exact ⟨countOutcome_relocate relocates upToDate upToDate' inRange inRange',
    satisfiableOutcome_relocate relocates upToDate upToDate' inRange inRange' visits,
    cardinalityOutcome_relocate relocates upToDate upToDate' inRange inRange'⟩

end Build

end KnowledgeCompiler
