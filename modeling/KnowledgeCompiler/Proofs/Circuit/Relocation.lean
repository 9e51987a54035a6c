import KnowledgeCompiler.Proofs.Circuit.Evaluation

/-! A sub-circuit at other places.

Below a root without renamings and formulas, another circuit may have the same gates at other places, with the children
in any order. Then the derived data are the same at both places, since they do not depend on the order of children.
-/

namespace KnowledgeCompiler

open Relation

/-- The same gate over children at other places, in any order. -/
inductive Gate.Moved (place : NodeId → NodeId) : Gate → Gate → Prop
  | constant (value : Bool) : Moved place (.constant value) (.constant value)
  | literal (l : Lit) : Moved place (.literal l) (.literal l)
  | and {children others : List NodeId} (placed : others.Perm (children.map place))
    : Moved place (.and children) (.and others)
  | or {decision : Option Var} {children others : List NodeId} (placed : others.Perm (children.map place))
    : Moved place (.or decision children) (.or decision others)

theorem Gate.Moved.children {place : NodeId → NodeId} {gate gate' : Gate} (moved : gate.Moved place gate')
    : gate'.children.Perm (gate.children.map place) := by
  cases moved with
  | constant value | literal l => exact .refl []
  | and placed | or placed => exact placed

theorem Gate.Moved.false_iff {place : NodeId → NodeId} {gate gate' : Gate} (moved : gate.Moved place gate')
    : gate' = .constant false ↔ gate = .constant false := by
  cases moved with
  | constant value | literal l => exact Iff.rfl
  | and placed | or placed => simp

/-- A leaf is the same at another place. -/
theorem Gate.Moved.eq_of_leaf {place : NodeId → NodeId} {gate gate' : Gate} (moved : gate.Moved place gate')
    (leaf : gate.kind.isInner = false)
    : gate' = gate := by
  cases moved with
  | constant value | literal l => rfl
  | and placed | or placed => cases leaf

/-- Properties are the same if each of the three is. -/
theorem Properties.ext_flags {p q : Properties} (decomposable : p.decomposable = q.decomposable)
    (deterministic : p.deterministic = q.deterministic) (smooth : p.smooth = q.smooth)
    : p = q := by
  calc
    p
    _ = ⟨p.decomposable, p.deterministic, p.smooth⟩ := rfl
    _ = ⟨q.decomposable, q.deterministic, q.smooth⟩ := by rw [decomposable, deterministic, smooth]

namespace Circuit

variable {c d : Circuit} {root id child : NodeId} {node other : Node} {gate gate' : Gate} {place : NodeId → NodeId}
variable {children others : List NodeId}

/-- The nodes below a root are found at other places of another circuit. -/
structure Relocates (c d : Circuit) (root : NodeId) (place : NodeId → NodeId) : Prop where
  moved
    : ∀ {id}, ReflTransGen c.IsChild id root
      → ∃ gate gate', c.gate? id = some gate ∧ d.gate? (place id) = some gate' ∧ gate.Moved place gate'

/-- Two nodes have the same derived data, and both are the constant false or neither is. -/
def Resembles (c d : Circuit) (a b : NodeId) : Prop :=
  ∃ node other, c.node? a = some node ∧ d.node? b = some other ∧ other.summary = node.summary
    ∧ other.isFalse = node.isFalse

namespace Resembles

variable {a b : NodeId} (resembles : c.Resembles d a b)

include resembles

theorem vars : d.varsOf b = c.varsOf a := by
  obtain ⟨node, other, here, there, same, _⟩ := resembles
  rw [varsOf_of_node? here, varsOf_of_node? there, Node.vars, Node.vars, same]

theorem literals : d.literalsOf b = c.literalsOf a := by
  obtain ⟨node, other, here, there, same, _⟩ := resembles
  rw [literalsOf_of_node? here, literalsOf_of_node? there, same]

theorem conjuncts : d.conjunctsOf b = c.conjunctsOf a := by
  obtain ⟨node, other, here, there, same, _⟩ := resembles
  rw [conjunctsOf_of_node? here, conjunctsOf_of_node? there, Node.conjuncts, Node.conjuncts, same]

theorem throughout : d.throughoutOf b = c.throughoutOf a := by
  obtain ⟨node, other, here, there, same, _⟩ := resembles
  rw [throughoutOf_of_node? here, throughoutOf_of_node? there, Node.throughout, Node.throughout, same]

theorem false_ : d.isFalse b = c.isFalse a := by
  obtain ⟨node, other, here, there, _, same⟩ := resembles
  rw [isFalse, isFalse, here, there]
  exact same

theorem size : (d.node? b).map Node.size = (c.node? a).map Node.size := by
  obtain ⟨node, other, here, there, same, _⟩ := resembles
  rw [here, there, Option.map_some, Option.map_some, Node.size, Node.size, same]

end Resembles

-----------------------------------------------------------------------------------------
-- Children at other places
-----------------------------------------------------------------------------------------

section Placed

variable (placed : others.Perm (children.map place))

include placed

theorem exists_placed {P Q : NodeId → Prop} (same : ∀ child ∈ children, Q (place child) ↔ P child)
    : (∃ child ∈ others, Q child) ↔ ∃ child ∈ children, P child := by
  constructor
  · intro some_
    obtain ⟨other, member, holds⟩ := some_
    obtain ⟨child, inside, rfl⟩ := List.mem_map.mp (placed.mem_iff.mp member)
    exact ⟨child, inside, (same child inside).mp holds⟩
  · intro some_
    obtain ⟨child, inside, holds⟩ := some_
    exact ⟨place child, placed.mem_iff.mpr (List.mem_map_of_mem inside), (same child inside).mpr holds⟩

theorem forall_placed {P Q : NodeId → Prop} (same : ∀ child ∈ children, Q (place child) ↔ P child)
    : (∀ child ∈ others, Q child) ↔ ∀ child ∈ children, P child := by
  simp only [placed.mem_iff, List.forall_mem_map]
  exact forall₂_congr same

theorem pairwise_placed {R S : NodeId → NodeId → Prop} (symm : ∀ a b, S a b → S b a)
    (same : ∀ a ∈ children, ∀ b ∈ children, S (place a) (place b) ↔ R a b)
    : others.Pairwise S ↔ children.Pairwise R := by
  rw [placed.pairwise_iff (symm _ _), List.pairwise_map]
  exact List.Pairwise.iff_of_mem fun {a b} inside inside' => same a inside b inside'

theorem filter_placed {p q : NodeId → Bool} (same : ∀ child ∈ children, q (place child) = p child)
    : (others.filter q).Perm ((children.filter p).map place) := by
  have kept := placed.filter q
  rw [List.filter_map] at kept
  have composed : children.filter (q ∘ place) = children.filter p := List.filter_congr same
  rwa [composed] at kept

end Placed

-----------------------------------------------------------------------------------------
-- Sets and own properties
-----------------------------------------------------------------------------------------

section Evaluates

variable {summary summary' : Summary}
variable (evaluates : c.Evaluates gate summary) (evaluates' : d.Evaluates gate' summary')
variable (moved : gate.Moved place gate') (resembles : ∀ child ∈ gate.children, c.Resembles d child (place child))

include evaluates evaluates' moved resembles

/-- The sets of a gate do not depend on the places and the order of its children. -/
theorem Evaluates.moved_sets
    : summary'.vars = summary.vars ∧ summary'.literals = summary.literals ∧ summary'.conjuncts = summary.conjuncts := by
  refine ⟨SortedSet.ext_mem fun v => ?_, SortedSet.ext_mem fun l => ?_, SortedSet.ext_mem fun l => ?_⟩
  · rw [evaluates.vars, evaluates'.vars]
    cases moved with
    | constant value | literal l => exact Iff.rfl
    | and placed | or placed =>
        exact exists_placed placed fun child member => by rw [(resembles child member).vars]
  · rw [evaluates.literals, evaluates'.literals]
    cases moved with
    | constant value | literal l => exact Iff.rfl
    | and placed | or placed =>
        exact exists_placed placed fun child member => by rw [(resembles child member).literals]
  · rw [evaluates.conjuncts, evaluates'.conjuncts]
    cases moved with
    | constant value | literal l => exact Iff.rfl
    | and placed => exact exists_placed placed fun child member => by rw [(resembles child member).conjuncts]
    | or placed =>
        refine and_congr (exists_placed placed fun child member => by rw [(resembles child member).false_])
          (forall_placed placed fun child member => ?_)
        rw [(resembles child member).false_, (resembles child member).conjuncts]

/-- The own properties of a gate do not depend on the places and the order of its children. -/
theorem Evaluates.moved_own : summary'.own = summary.own := by
  have decomposable : summary'.own.decomposable = summary.own.decomposable := by
    rw [Bool.eq_iff_iff, evaluates.decomposable, evaluates'.decomposable]
    cases moved with
    | and placed =>
        simp only [Gate.and.injEq, forall_eq']
        refine pairwise_placed placed (fun _ _ => symm) fun a inside b inside' => ?_
        rw [Apart, Apart, (resembles a inside).vars, (resembles b inside').vars]
    | constant value | literal l | or placed => simp
  have deterministic : summary'.own.deterministic = summary.own.deterministic := by
    rw [Bool.eq_iff_iff, evaluates.deterministic, evaluates'.deterministic]
    cases moved with
    | @or _ children _ placed =>
        simp only [Gate.or.injEq, and_imp, forall_eq', forall_apply_eq_imp_iff]
        have false_ : ∀ child ∈ children, (!d.isFalse (place child)) = !c.isFalse child := fun child member => by
          rw [(resembles child member).false_]
        refine pairwise_placed (filter_placed placed false_) (fun _ _ => symm) fun a inside b inside' => ?_
        rw [Contradict, Contradict, (resembles a (List.mem_filter.mp inside).1).conjuncts,
          (resembles b (List.mem_filter.mp inside').1).conjuncts]
    | constant value | literal l | and placed => simp
  have smooth : summary'.own.smooth = summary.own.smooth := by
    rw [Bool.eq_iff_iff, evaluates.smooth, evaluates'.smooth]
    cases moved with
    | or placed =>
        refine forall_placed placed fun a inside => forall_placed placed fun b inside' => ?_
        rw [(resembles a inside).vars, (resembles b inside').vars]
    | constant value | literal l | and placed => exact Iff.rfl
  exact Properties.ext_flags decomposable deterministic smooth

end Evaluates

-----------------------------------------------------------------------------------------
-- Sizes
-----------------------------------------------------------------------------------------

/-- Sizes are added in any order. -/
theorem innerSize_perm {nodes nodes' : List Node} (sizes : (nodes'.map Node.size).Perm (nodes.map Node.size))
    : Summary.innerSize nodes' = Summary.innerSize nodes := by
  have folded (nodes : List Node)
      : Summary.innerSize nodes = (nodes.map Node.size).foldl Summary.addSizes (nodes.map Node.size).length := by
    rw [Summary.innerSize, List.foldl_map, List.length_map]
  have commutes : RightCommutative Summary.addSizes := ⟨fun a b c => by
    simp only [Summary.addSizes]
    omega⟩
  rw [folded, folded, sizes.length_eq]
  exact sizes.foldl_eq _

/-- The nodes at the places of children, in any order, have the sizes of the children. -/
theorem sizes_placed (placed : others.Perm (children.map place))
    (same : ∀ child ∈ children, c.Resembles d child (place child))
    : ((d.nodesOf others).map Node.size).Perm ((c.nodesOf children).map Node.size) := by
  have listed := placed.filterMap fun id => (d.node? id).map Node.size
  have sizes : children.filterMap ((fun id => (d.node? id).map Node.size) ∘ place)
      = children.filterMap fun id => (c.node? id).map Node.size :=
    List.filterMap_congr fun child member => (same child member).size
  rw [List.filterMap_map, sizes] at listed
  rwa [nodesOf, nodesOf, List.map_filterMap, List.map_filterMap]

theorem UpToDate.size_and (upToDate : c.UpToDate) (found : c.node? id = some node) (gate : node.gate = .and children)
    : node.size = Summary.innerSize (c.nodesOf children) := by
  have done := upToDate.derived id node found
  rw [gate] at done
  rw [Node.size, ← Except.ok.inj done]
  rfl

theorem UpToDate.size_or {decision : Option Var} (upToDate : c.UpToDate) (found : c.node? id = some node)
    (gate : node.gate = .or decision children)
    : node.size = Summary.innerSize (c.nodesOf children) := by
  have done := upToDate.derived id node found
  rw [gate] at done
  obtain ⟨_, _, size, _⟩ := ofDisjunction_eq done
  exact size

-----------------------------------------------------------------------------------------
-- Derived data
-----------------------------------------------------------------------------------------

section Derived

variable (upToDate : c.UpToDate) (upToDate' : d.UpToDate) (found : c.node? id = some node)
variable (found' : d.node? (place id) = some other) (moved : node.gate.Moved place other.gate)
variable (below : ∀ child ∈ node.children, c.Resembles d child (place child))

include upToDate upToDate' found found' moved below

theorem size_moved : other.size = node.size := by
  rw [Node.children] at below
  cases gate : node.gate with
  | and children =>
      rw [gate] at moved below
      generalize gate' : other.gate = relocated at moved
      cases moved with
      | and placed =>
          rw [upToDate.size_and found gate, upToDate'.size_and found' gate']
          exact innerSize_perm (sizes_placed placed below)
  | or decision children =>
      rw [gate] at moved below
      generalize gate' : other.gate = relocated at moved
      cases moved with
      | or placed =>
          rw [upToDate.size_or found gate, upToDate'.size_or found' gate']
          exact innerSize_perm (sizes_placed placed below)
  | constant value | literal l =>
      have done := upToDate.derived id node found
      have done' := upToDate'.derived (place id) other found'
      rw [gate] at moved done
      generalize gate' : other.gate = relocated at moved done'
      cases moved
      rw [Node.size, Node.size, ← Except.ok.inj (done.symm.trans done')]
  | mapping names child | twoCnf formula | horn formula =>
      rw [gate] at moved
      cases moved

theorem flag_moved {flag : Properties → Bool} (meets : ∀ p q, flag (p.meet q) = (flag p && flag q))
    (all : flag .all = true) (own : other.summary.own = node.summary.own)
    : flag other.throughout = flag node.throughout := by
  rw [Bool.eq_iff_iff, upToDate.flag_iff_children meets all found, upToDate'.flag_iff_children meets all found', own]
  refine and_congr_right fun _ => ?_
  exact forall_placed moved.children fun child member => by rw [(below child member).throughout]

/-- A node at another place has the same derived data if its children have. -/
theorem summary_moved (evaluates : c.Evaluates node.gate node.summary)
    (evaluates' : d.Evaluates other.gate other.summary)
    : other.summary = node.summary := by
  obtain ⟨vars, literals, conjuncts⟩ := evaluates.moved_sets evaluates' moved below
  have own := evaluates.moved_own evaluates' moved below
  have size : other.summary.size = node.summary.size := size_moved upToDate upToDate' found found' moved below
  have flag {flag : Properties → Bool} (meets : ∀ p q, flag (p.meet q) = (flag p && flag q)) (all : flag .all = true)
      : flag other.summary.throughout = flag node.summary.throughout :=
    flag_moved upToDate upToDate' found found' moved below meets all own
  have throughout : other.summary.throughout = node.summary.throughout :=
    Properties.ext_flags (flag (fun _ _ => rfl) rfl) (flag (fun _ _ => rfl) rfl) (flag (fun _ _ => rfl) rfl)
  generalize other.summary = summary at *
  cases summary
  subst vars literals conjuncts own size throughout
  rfl

end Derived

/-- At their other places the nodes below a root have the same derived data; induction from the children upwards. -/
theorem Relocates.resembles (relocates : c.Relocates d root place) (upToDate : c.UpToDate) (upToDate' : d.UpToDate)
    (inRange : c.InRange) (inRange' : d.InRange) (below : ReflTransGen c.IsChild id root)
    : c.Resembles d id (place id) := by
  induction id using upToDate.acyclic.induction with
  | _ id ih =>
      obtain ⟨gate, gate', here, there, moved⟩ := relocates.moved below
      obtain ⟨node, found, rfl⟩ := Option.map_eq_some_iff.mp here
      obtain ⟨other, found', rfl⟩ := Option.map_eq_some_iff.mp there
      refine ⟨node, other, found, found', ?_, ?_⟩
      · refine summary_moved upToDate upToDate' found found' moved (fun child member => ?_)
          (upToDate.evaluates inRange found) (upToDate'.evaluates inRange' found')
        have link : c.IsChild child id := ⟨node.gate, here, member⟩
        exact ih child link (.head link below)
      · rw [Bool.eq_iff_iff, Node.isFalse, Node.isFalse, beq_iff_eq, beq_iff_eq]
        exact moved.false_iff

end Circuit

end KnowledgeCompiler
