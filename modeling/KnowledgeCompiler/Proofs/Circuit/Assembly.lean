import KnowledgeCompiler.Proofs.Circuit.SmoothDeterminism

/-! New nodes over existing ones, in any circuit that is up to date and has its numbers in range.

A request for a node may be answered by a node that is there already, whose children are the same in another order. So
what is built is known by what it means, which variables and conjuncts it has, and which properties: those of a
conjunction or of a disjunction of the parts.
-/

namespace KnowledgeCompiler

open Relation
open KnowledgeCompiler.Build
open KnowledgeCompiler.Action (Yields Hinges)

/-- A formula leaf flips variables of its own only. -/
def Gate.FlipsOwn : Gate → Prop
  | .horn formula => ∀ v ∈ formula.flipped.toList, v ∈ formula.vars
  | .constant _ | .literal _ | .and _ | .or .. | .mapping .. | .twoCnf _ => True

instance : (gate : Gate) → Decidable gate.FlipsOwn
  | .horn formula => inferInstanceAs (Decidable (∀ v ∈ formula.flipped.toList, v ∈ formula.vars))
  | .constant _ | .literal _ | .and _ | .or .. | .mapping .. | .twoCnf _ => inferInstanceAs (Decidable True)

namespace Circuit

variable {c d e : Circuit} {id child : NodeId} {node : Node} {gate other : Gate} {σ : Assignment} {v : Var} {l : Lit}
variable {children : List NodeId} {decision : Option Var} {unwanted : NodeKind → Bool}

-----------------------------------------------------------------------------------------
-- Properties of all nodes below
-----------------------------------------------------------------------------------------

/-- A node and all nodes below it have a property. -/
def Everywhere (c : Circuit) (P : NodeId → Prop) (id : NodeId) : Prop :=
  ∀ other, ReflTransGen c.IsChild other id → P other

theorem everywhere_iff {P : NodeId → Prop} (found : c.gate? id = some gate)
    : c.Everywhere P id ↔ P id ∧ ∀ child ∈ gate.children, c.Everywhere P child := by
  constructor
  · exact fun every => ⟨every id .refl, fun child member other path => every other (path.tail ⟨gate, found, member⟩)⟩
  · rintro ⟨here, below⟩ other path
    rcases path.cases_tail with rfl | ⟨child, first, link⟩
    · exact here
    · exact below child ((isChild_iff found).mp link) other first

/-- No node below is of an unwanted kind, and neither is the node itself. -/
def Avoids (c : Circuit) (unwanted : NodeKind → Bool) : NodeId → Prop :=
  c.Everywhere fun other => ∀ gate, c.gate? other = some gate → unwanted gate.kind = false

theorem avoids_iff (found : c.gate? id = some gate)
    : c.Avoids unwanted id ↔ unwanted gate.kind = false ∧ ∀ child ∈ gate.children, c.Avoids unwanted child := by
  refine (everywhere_iff found).trans (and_congr_left fun _ => ?_)
  simp [found]

theorem Avoids.grow (avoids : c.Avoids unwanted id) (present : id < c.nodes.size) (grown : c.Extends d)
    (closed : c.Closed)
    : d.Avoids unwanted id := by
  intro other path gate found
  have below := grown.below closed path present
  rw [grown.gate?_eq (Closed.lt_of_below closed below present)] at found
  exact avoids other below gate found

theorem Extends.throughoutOf (grown : c.Extends d) (present : id < c.nodes.size)
    : d.throughoutOf id = c.throughoutOf id := by
  obtain ⟨node, found⟩ := c.exists_node present
  obtain ⟨other, there, _, summary⟩ := grown.kept found
  rw [throughoutOf_of_node? found, throughoutOf_of_node? there, Node.throughout, Node.throughout, summary]

/-- A sub-circuit is smooth if the children of the node have the same variables in case it is a disjunction, and the
sub-circuits of the children are smooth.
-/
theorem UpToDate.smooth_iff (upToDate : c.UpToDate) (inRange : c.InRange) (found : c.gate? id = some gate)
    : (c.throughoutOf id).smooth = true
      ↔ c.Even gate ∧ ∀ child ∈ gate.children, (c.throughoutOf child).smooth = true := by
  obtain ⟨node, present, rfl⟩ := Option.map_eq_some_iff.mp found
  rw [throughoutOf_of_node? present, upToDate.flag_iff_children (fun _ _ => rfl) rfl present,
    (upToDate.evaluates inRange present).smooth]
  exact Iff.rfl

-----------------------------------------------------------------------------------------
-- Growth
-----------------------------------------------------------------------------------------

/-- The Horn leaves of a circuit flip variables of their own only. -/
def FlipsOwn (c : Circuit) : Prop := ∀ {id gate}, c.gate? id = some gate → gate.FlipsOwn

instance (c : Circuit) : Decidable c.FlipsOwn := decidable_of_iff _ forall_gate_iff.symm

/-- The second circuit has the nodes of the first one, is up to date, and has its numbers in range. No new Horn leaf
flips a foreign variable.
-/
structure Advances (c d : Circuit) : Prop where
  extends_ : c.Extends d
  upToDate : d.UpToDate
  inRange : d.InRange
  flipsOwn : c.FlipsOwn → d.FlipsOwn

theorem UpToDate.advances (upToDate : c.UpToDate) (inRange : c.InRange) : c.Advances c where
  extends_ := .refl c
  upToDate := upToDate
  inRange := inRange
  flipsOwn known := known

theorem Advances.trans (first : c.Advances d) (second : d.Advances e) : c.Advances e where
  extends_ := first.extends_.trans second.extends_
  upToDate := second.upToDate
  inRange := second.inRange
  flipsOwn known := second.flipsOwn (first.flipsOwn known)

/-- What smoothing adds is no formula leaf. -/
theorem Supplements.flipsOwn (larger : c.Supplements d) (known : c.FlipsOwn) : d.FlipsOwn := by
  intro id gate found
  rcases larger.added (lt_of_gate? found) with old | ⟨l, there⟩ | ⟨children, there⟩ | ⟨v, decision, children, there, -⟩
  · exact known ((larger.extends_.gate?_eq old).symm.trans found)
  all_goals
    obtain rfl := Option.some.inj (there.symm.trans found)
    trivial

theorem Advances.refl (advances : c.Advances d) : d.Advances d := advances.upToDate.advances advances.inRange

-----------------------------------------------------------------------------------------
-- Gates in another order
-----------------------------------------------------------------------------------------

end Circuit

/-- Two gates differ in the order of their children at most. -/
inductive Gate.Reorders : Gate → Gate → Prop
  | same (gate : Gate) : Reorders gate gate
  | and {others children : List NodeId} (members : ∀ child, child ∈ others ↔ child ∈ children)
    : Reorders (.and others) (.and children)
  | or {decision : Option Var} {others children : List NodeId} (members : ∀ child, child ∈ others ↔ child ∈ children)
    : Reorders (.or decision others) (.or decision children)

theorem Gate.Reorders.kind {gate other : Gate} (reorders : other.Reorders gate) : other.kind = gate.kind := by
  cases reorders <;> rfl

theorem Gate.Reorders.mem_children {gate other : Gate} {child : NodeId} (reorders : other.Reorders gate)
    : child ∈ other.children ↔ child ∈ gate.children := by
  cases reorders with
  | same => exact Iff.rfl
  | and members | or members => exact members child

/-- A signature is its gate with the children in order. -/
theorem Gate.reorders_key {gate key : Gate} (signed : gate.signature? = some key) : gate.Reorders key := by
  cases gate with
  | constant value | literal l | mapping names child => exact Option.some.inj signed ▸ .same _
  | twoCnf formula | horn formula => cases signed
  | and children => exact Option.some.inj signed ▸ .and fun child => (mem_sortBy ..).symm
  | or decision children => exact Option.some.inj signed ▸ .or fun child => (mem_sortBy ..).symm

/-- Sorting hides in which order a set of nodes is listed. -/
theorem sortBy_eq_of_members {children others : List NodeId} (nodup : children.Nodup) (nodup' : others.Nodup)
    (members : ∀ child, child ∈ others ↔ child ∈ children)
    : sortBy inOrder others = sortBy inOrder children := by
  refine sortBy_eq_of_perm (fun a b => ?_) (fun a b c => ?_) (fun a b => ?_)
    ((List.perm_ext_iff_of_nodup nodup' nodup).mpr members) <;> simp only [inOrder, Nat.isLE_compare]
  · exact Nat.le_total a b
  · exact Nat.le_trans
  · exact Nat.le_antisymm

/-- Gates that differ in the order of their children have the same signature, if no child is listed twice. -/
theorem Gate.Reorders.signature? {gate other : Gate} (reorders : other.Reorders gate) (nodup : gate.children.Nodup)
    (nodup' : other.children.Nodup)
    : other.signature? = gate.signature? := by
  cases reorders with
  | same => rfl
  | and members => exact congrArg (some <| Gate.and ·) (sortBy_eq_of_members nodup nodup' members)
  | @or decision others children members =>
      exact congrArg (some <| Gate.or decision ·) (sortBy_eq_of_members nodup nodup' members)

theorem Gate.reorders_of_signature? {gate other : Gate} (signed : other.signature? = gate.signature?)
    (shared : gate.signature? ≠ none)
    : other.Reorders gate := by
  cases gate with
  | and children =>
      obtain ⟨others, rfl, members⟩ := Gate.eq_and_of_signature? signed
      exact .and members
  | or decision children =>
      obtain ⟨others, rfl, members⟩ := Gate.eq_or_of_signature? signed
      exact .or members
  | twoCnf formula | horn formula => exact absurd rfl shared
  | constant value =>
      have same : other = .constant value := by cases other <;> simp_all [Gate.signature?]
      exact same ▸ .same _
  | literal l =>
      have same : other = .literal l := by cases other <;> simp_all [Gate.signature?]
      exact same ▸ .same _
  | mapping names child =>
      have same : other = .mapping names child := by cases other <;> simp_all [Gate.signature?]
      exact same ▸ .same _

namespace Circuit

variable {c d e : Circuit} {id child : NodeId} {node : Node} {gate other : Gate} {σ : Assignment} {v : Var} {l : Lit}
variable {children parts : List NodeId} {decision : Option Var} {unwanted : NodeKind → Bool}

/-- A node has a gate, up to the order of the children. -/
def Realizes (c : Circuit) (gate : Gate) (id : NodeId) : Prop := ∃ other, c.gate? id = some other ∧ other.Reorders gate

namespace Realizes

theorem lt (realizes : c.Realizes gate id) : id < c.nodes.size := by
  obtain ⟨other, found, _⟩ := realizes
  exact lt_of_gate? found

theorem grow (realizes : c.Realizes gate id) (grown : c.Extends d) : d.Realizes gate id := by
  obtain ⟨other, found, reorders⟩ := realizes
  exact ⟨other, grown.gate? found, reorders⟩

theorem satisfies_iff (realizes : c.Realizes gate id) : c.Satisfies σ id ↔ c.Holds σ gate := by
  obtain ⟨other, found, reorders⟩ := realizes
  rw [Circuit.satisfies_iff found]
  cases reorders with
  | same => rfl
  | and members | or members => simp only [Holds, members]

theorem mem_varsOf (realizes : c.Realizes gate id) (upToDate : c.UpToDate) : v ∈ c.varsOf id ↔ c.Mentions v gate := by
  obtain ⟨other, found, reorders⟩ := realizes
  rw [upToDate.mem_varsOf found]
  cases reorders with
  | same => rfl
  | and members | or members => simp only [Mentions, members]

theorem mem_conjunctsOf (realizes : c.Realizes gate id) (upToDate : c.UpToDate) (inRange : c.InRange)
    : l ∈ c.conjunctsOf id ↔ c.Commits l gate := by
  obtain ⟨other, found, reorders⟩ := realizes
  rw [upToDate.mem_conjunctsOf inRange found]
  cases reorders with
  | same => rfl
  | and members | or members => simp only [Commits, members]

theorem decomposable_iff (realizes : c.Realizes gate id) (upToDate : c.UpToDate) (inRange : c.InRange)
    : (c.throughoutOf id).decomposable = true
      ↔ (∀ children, gate = .and children → ∀ a ∈ children, ∀ b ∈ children, a ≠ b → c.Apart a b)
        ∧ ∀ child ∈ gate.children, (c.throughoutOf child).decomposable = true := by
  obtain ⟨other, found, reorders⟩ := realizes
  rw [upToDate.decomposable_iff inRange found]
  have pairs {others : List NodeId} (here : other = .and others)
      : others.Pairwise c.Apart ↔ ∀ a ∈ others, ∀ b ∈ others, a ≠ b → c.Apart a b := by
    subst here
    have nodup : others.Nodup := upToDate.nodup found
    exact ⟨fun apart a left b right => apart.forall left right, fun apart =>
      nodup.pairwise_of_forall_ne fun a left b right differ => apart a left b right differ⟩
  cases reorders with
  | same => exact and_congr_left fun _ => forall_congr' fun children => forall_congr' fun here => pairs here
  | and members => simp [pairs rfl, Gate.children, members]
  | or members => simp [Gate.children, members]

theorem deterministic_iff (realizes : c.Realizes gate id) (upToDate : c.UpToDate) (inRange : c.InRange)
    : (c.throughoutOf id).deterministic = true
      ↔ (∀ decision children,
          gate = .or decision children
          → ∀ a ∈ children, ∀ b ∈ children, c.isFalse a = false → c.isFalse b = false → a ≠ b → c.Contradict a b)
        ∧ ∀ child ∈ gate.children, (c.throughoutOf child).deterministic = true := by
  obtain ⟨other, found, reorders⟩ := realizes
  rw [upToDate.deterministic_iff inRange found]
  have pairs {decision : Option Var} {others : List NodeId} (here : other = .or decision others)
      : (others.filter fun child => !c.isFalse child).Pairwise c.Contradict
        ↔ ∀ a ∈ others, ∀ b ∈ others, c.isFalse a = false → c.isFalse b = false → a ≠ b → c.Contradict a b := by
    subst here
    have nodup : others.Nodup := upToDate.nodup found
    have listed {child : NodeId} : child ∈ others.filter (fun child => !c.isFalse child)
        ↔ child ∈ others ∧ c.isFalse child = false := by simp
    constructor
    · exact fun contradict a left b right alive alive' =>
        contradict.forall (listed.mpr ⟨left, alive⟩) (listed.mpr ⟨right, alive'⟩)
    · refine fun contradict => (nodup.filter _).pairwise_of_forall_ne fun a left b right differ => ?_
      exact contradict a (listed.mp left).1 b (listed.mp right).1 (listed.mp left).2 (listed.mp right).2 differ
  cases reorders with
  | same =>
      exact and_congr_left fun _ => forall_congr' fun decision => forall_congr' fun children =>
        forall_congr' fun here => pairs here
  | and members => simp [Gate.children, members]
  | or members => simp [pairs rfl, Gate.children, members]

theorem smooth_iff (realizes : c.Realizes gate id) (upToDate : c.UpToDate) (inRange : c.InRange)
    : (c.throughoutOf id).smooth = true
      ↔ c.Even gate ∧ ∀ child ∈ gate.children, (c.throughoutOf child).smooth = true := by
  obtain ⟨other, found, reorders⟩ := realizes
  rw [upToDate.smooth_iff inRange found]
  cases reorders with
  | same => rfl
  | and members | or members => simp only [Even, Gate.children, members]

theorem avoids_iff (realizes : c.Realizes gate id)
    : c.Avoids unwanted id ↔ unwanted gate.kind = false ∧ ∀ child ∈ gate.children, c.Avoids unwanted child := by
  obtain ⟨other, found, reorders⟩ := realizes
  rw [Circuit.avoids_iff found]
  cases reorders with
  | same => rfl
  | and members | or members => simp only [Gate.kind, Gate.children, members]

end Realizes

-----------------------------------------------------------------------------------------
-- Conjunctions and disjunctions
-----------------------------------------------------------------------------------------

/-- A node is a conjunction of parts: the constant true, a gate, or the only part itself. -/
structure Conjoins (c : Circuit) (parts : List NodeId) (id : NodeId) : Prop where
  present : id < c.nodes.size
  satisfies : ∀ σ, c.Satisfies σ id ↔ ∀ part ∈ parts, c.Satisfies σ part
  vars : ∀ v, v ∈ c.varsOf id ↔ ∃ part ∈ parts, v ∈ c.varsOf part
  conjuncts : ∀ l, l ∈ c.conjunctsOf id ↔ ∃ part ∈ parts, l ∈ c.conjunctsOf part
  decomposable
    : (c.throughoutOf id).decomposable = true
      ↔ (∀ a ∈ parts, ∀ b ∈ parts, a ≠ b → c.Apart a b) ∧ ∀ part ∈ parts, (c.throughoutOf part).decomposable = true
  deterministic
    : (c.throughoutOf id).deterministic = true ↔ ∀ part ∈ parts, (c.throughoutOf part).deterministic = true
  smooth : (c.throughoutOf id).smooth = true ↔ ∀ part ∈ parts, (c.throughoutOf part).smooth = true
  avoids
    : ∀ {unwanted},
        unwanted .and = false
        → unwanted .constant = false
        → (c.Avoids unwanted id ↔ ∀ part ∈ parts, c.Avoids unwanted part)

/-- A node is a disjunction of parts. Parts that are the constant false count for smoothness only. -/
structure Disjoins (c : Circuit) (parts : List NodeId) (id : NodeId) : Prop where
  present : id < c.nodes.size
  satisfies : ∀ σ, c.Satisfies σ id ↔ ∃ part ∈ parts, c.Satisfies σ part
  vars : ∀ v, v ∈ c.varsOf id ↔ ∃ part ∈ parts, v ∈ c.varsOf part
  conjuncts
    : ∀ l,
        l ∈ c.conjunctsOf id
        ↔ (∃ part ∈ parts, c.isFalse part = false) ∧ ∀ part ∈ parts, c.isFalse part = false → l ∈ c.conjunctsOf part
  decomposable
    : (c.throughoutOf id).decomposable = true ↔ ∀ part ∈ parts, (c.throughoutOf part).decomposable = true
  deterministic
    : (c.throughoutOf id).deterministic = true
      ↔ (∀ a ∈ parts, ∀ b ∈ parts, c.isFalse a = false → c.isFalse b = false → a ≠ b → c.Contradict a b)
        ∧ ∀ part ∈ parts, (c.throughoutOf part).deterministic = true
  smooth
    : (c.throughoutOf id).smooth = true
      ↔ (∀ a ∈ parts, ∀ b ∈ parts, c.varsOf a = c.varsOf b) ∧ ∀ part ∈ parts, (c.throughoutOf part).smooth = true
  avoids : ∀ {unwanted}, unwanted .or = false → (c.Avoids unwanted id ↔ ∀ part ∈ parts, c.Avoids unwanted part)

theorem Realizes.conjoins (realizes : c.Realizes (.and children) id) (upToDate : c.UpToDate) (inRange : c.InRange)
    (members : ∀ child, child ∈ children ↔ child ∈ parts)
    : c.Conjoins parts id where
  present := realizes.lt
  satisfies σ := by simp only [realizes.satisfies_iff, Holds, members]
  vars v := by simp only [realizes.mem_varsOf upToDate, Mentions, members]
  conjuncts l := by simp only [realizes.mem_conjunctsOf upToDate inRange, Commits, members]
  decomposable := by simp [realizes.decomposable_iff upToDate inRange, Gate.children, members]
  deterministic := by simp [realizes.deterministic_iff upToDate inRange, Gate.children, members]
  smooth := by simp [realizes.smooth_iff upToDate inRange, Even, Gate.children, members]
  avoids allowed _ := by simp [realizes.avoids_iff, Gate.kind, Gate.children, members, allowed]

/-- The constant true is the conjunction of nothing. -/
theorem Realizes.conjoins_nothing (realizes : c.Realizes (.constant true) id) (upToDate : c.UpToDate)
    (inRange : c.InRange)
    : c.Conjoins [] id where
  present := realizes.lt
  satisfies σ := by simp [realizes.satisfies_iff, Holds]
  vars v := by simp [realizes.mem_varsOf upToDate, Mentions]
  conjuncts l := by simp [realizes.mem_conjunctsOf upToDate inRange, Commits]
  decomposable := by simp [realizes.decomposable_iff upToDate inRange, Gate.children]
  deterministic := by simp [realizes.deterministic_iff upToDate inRange, Gate.children]
  smooth := by simp [realizes.smooth_iff upToDate inRange, Even, Gate.children]
  avoids _ allowed := by simp [realizes.avoids_iff, Gate.kind, Gate.children, allowed]

/-- A node is the conjunction of itself alone. -/
theorem conjoins_singleton (present : id < c.nodes.size) : c.Conjoins [id] id where
  present := present
  satisfies σ := by simp
  vars v := by simp
  conjuncts l := by simp
  decomposable := by simp
  deterministic := by simp
  smooth := by simp
  avoids _ _ := by simp

theorem Realizes.disjoins (realizes : c.Realizes (.or decision children) id) (upToDate : c.UpToDate)
    (inRange : c.InRange) (members : ∀ child, child ∈ children ↔ child ∈ parts)
    : c.Disjoins parts id where
  present := realizes.lt
  satisfies σ := by simp only [realizes.satisfies_iff, Holds, members]
  vars v := by simp only [realizes.mem_varsOf upToDate, Mentions, members]
  conjuncts l := by simp only [realizes.mem_conjunctsOf upToDate inRange, Commits, members]
  decomposable := by simp [realizes.decomposable_iff upToDate inRange, Gate.children, members]
  deterministic := by simp [realizes.deterministic_iff upToDate inRange, Gate.children, members]
  smooth := by simp [realizes.smooth_iff upToDate inRange, Even, Gate.children, members]
  avoids allowed := by simp [realizes.avoids_iff, Gate.kind, Gate.children, members, allowed]

end Circuit

namespace Build

open Circuit

variable {c : Circuit} {gate : Gate} {parts : List NodeId} {decision : Option Var} {l : Lit}

-----------------------------------------------------------------------------------------
-- New nodes
-----------------------------------------------------------------------------------------

/-- A node of a gate over existing nodes; a gate that is not shared gets a node of its own. -/
theorem insert_advances (upToDate : c.UpToDate) (inRange : c.InRange)
    (present : ∀ child ∈ gate.children, child < c.nodes.size) (nodup : gate.children.Nodup) (range : gate.InRange)
    (flips : gate.FlipsOwn)
    : Yields (insert gate) c fun id d => c.Advances d ∧ d.Realizes gate id := by
  refine Yields.current ?_
  cases shared : c.shared? gate with
  | some id =>
      obtain ⟨other, found, signed⟩ := upToDate.toWired.gate?_of_shared shared
      refine Yields.pure ⟨upToDate.advances inRange, other, found, Gate.reorders_of_signature? signed fun none_ => ?_⟩
      simp [Circuit.shared?, none_] at shared
  | none =>
      obtain ⟨summary, done, _⟩ := summarize_evaluates range present
        fun _ _ _ inside => (upToDate.conjunct_sound inRange inside).1
      refine Yields.note (Yields.checked done (Yields.update (Yields.pure ?_)))
      refine ⟨⟨extends_append, upToDate.append present nodup done, fun {id key} found => ?_,
        fun known {id key} found => ?_⟩, gate, gate?_of_node? node?_append_new, .same gate⟩
      · rcases gate?_append found with old | ⟨-, rfl⟩
        · exact inRange old
        · exact range
      · rcases gate?_append found with old | ⟨-, rfl⟩
        · exact known old
        · exact flips

theorem constant_advances (upToDate : c.UpToDate) (inRange : c.InRange) (value : Bool)
    : Yields (constant value) c fun id d => c.Advances d ∧ d.Realizes (.constant value) id :=
  insert_advances upToDate inRange (by simp [Gate.children]) (by simp [Gate.children]) trivial trivial

theorem literal_advances (upToDate : c.UpToDate) (inRange : c.InRange) (proper : l.Proper)
    : Yields (literal l) c fun id d => c.Advances d ∧ d.Realizes (.literal l) id := by
  unfold literal
  rw [if_neg proper.1]
  exact insert_advances upToDate inRange (by simp [Gate.children]) (by simp [Gate.children]) proper trivial

theorem conjunction_advances (upToDate : c.UpToDate) (inRange : c.InRange)
    (present : ∀ part ∈ parts, part < c.nodes.size)
    : Yields (conjunction parts) c fun id d => c.Advances d ∧ d.Conjoins parts id := by
  refine (existing_spec present).bind ?_
  rintro ids _ ⟨rfl, rfl⟩
  have members : ∀ child, child ∈ (SortedSet.ofList parts).toList ↔ child ∈ parts := by simp
  have nodup := (SortedSet.ofList parts).nodup
  generalize (SortedSet.ofList parts).toList = ids at members nodup
  cases ids with
  | nil =>
      obtain rfl : parts = [] := List.eq_nil_iff_forall_not_mem.mpr fun part member =>
        List.not_mem_nil ((members part).mpr member)
      refine (constant_advances upToDate inRange true).mono ?_
      rintro id d ⟨advances, realizes⟩
      exact ⟨advances, realizes.conjoins_nothing advances.upToDate advances.inRange⟩
  | cons first rest =>
      have existing : ∀ child ∈ (Gate.and (first :: rest)).children, child < c.nodes.size :=
        fun child member => present child ((members child).mp member)
      refine (insert_advances upToDate inRange existing nodup trivial trivial).mono ?_
      rintro id d ⟨advances, realizes⟩
      exact ⟨advances, realizes.conjoins advances.upToDate advances.inRange members⟩

/-- A disjunction is refused just if its decision variable does not occur in it. -/
theorem disjunction_hinges (upToDate : c.UpToDate) (inRange : c.InRange)
    (present : ∀ part ∈ parts, part < c.nodes.size) (inhabited : parts ≠ [])
    : Hinges (disjunction parts decision) c (∀ v, decision = some v → ∃ part ∈ parts, v ∈ c.varsOf part)
        (fun id d => c.Advances d ∧ d.Disjoins parts id) fun cause => ∃ v, cause = .variableNotInCircuit v := by
  refine Hinges.after (existing_spec present) ?_
  rintro ids _ ⟨rfl, rfl⟩
  have members : ∀ child, child ∈ (SortedSet.ofList parts).toList ↔ child ∈ parts := by simp
  have nodup := (SortedSet.ofList parts).nodup
  generalize (SortedSet.ofList parts).toList = ids at members nodup
  have occurs : (∀ v, decision = some v → ∃ part ∈ parts, v ∈ c.varsOf part)
      ↔ ∀ v, decision = some v → ∃ child ∈ ids, v ∈ c.varsOf child := by simp only [members]
  rw [occurs]
  cases ids with
  | nil =>
      obtain ⟨part, member⟩ := List.exists_mem_of_ne_nil parts inhabited
      exact absurd ((members part).mpr member) List.not_mem_nil
  | cons first rest =>
      refine Hinges.current ?_
      split
      · rename_i absent lost
        refine Hinges.fail (fun every => ?_) ⟨absent, rfl⟩
        rw [filter_eq_none_iff.mpr every] at lost
        cases lost
      · rename_i none_
        refine Hinges.of_yields ?_ (filter_eq_none_iff.mp none_)
        have existing : ∀ child ∈ (Gate.or decision (first :: rest)).children, child < c.nodes.size :=
          fun child member => present child ((members child).mp member)
        refine (insert_advances upToDate inRange existing nodup trivial trivial).mono ?_
        rintro id d ⟨advances, realizes⟩
        exact ⟨advances, realizes.disjoins advances.upToDate advances.inRange members⟩

/-- Nodes that leave several variables free, one for each. -/
theorem gadgets_advance {vars : List Var} (upToDate : c.UpToDate) (inRange : c.InRange)
    (bounded : ∀ v ∈ vars, 0 < v ∧ v < 2147483648)
    : Yields (gadgets vars []) c fun result d =>
        c.Advances d
        ∧ ∃ free : Var → NodeId,
            (∀ v ∈ vars, d.Frees v (free v)) ∧ ∀ id, id ∈ result.1 ↔ ∃ v ∈ vars, free v = id := by
  have nothing : AllFree c [] := fun found => by simp at found
  refine (((gadgets_grows vars (by simp [AllBalanced])).ensures upToDate.toWired).yields
    (gadgets_yields (upToDate.smoothable inRange) nothing bounded)).mono ?_
  rintro ⟨ids, known⟩ d ⟨⟨larger, free, -, every, members⟩, enlarges, -⟩
  refine ⟨⟨larger.extends_, enlarges.upToDate upToDate, larger.smoothable.inRange, larger.flipsOwn⟩,
    fun v => (known.lookup v).getD 0, fun v listed => ?_,
    fun id => members.trans (exists_congr fun v => and_congr_right fun listed => ?_)⟩
  · obtain ⟨id, found⟩ := every v listed
    simpa [found] using free found
  · obtain ⟨other, found⟩ := every v listed
    simp [found]

end Build

end KnowledgeCompiler
