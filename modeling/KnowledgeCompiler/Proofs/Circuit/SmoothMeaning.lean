import KnowledgeCompiler.Proofs.Circuit.SmoothGates

/-! What smoothing keeps, and what it makes even.

Every node keeps its variables and its meaning: what stands for a child of a disjunction has all variables of the
disjunction, and it means what the child means. So all disjunctions are even afterwards, decomposable sub-circuits stay
decomposable, and smoothing once more finds nothing to do.
-/

namespace KnowledgeCompiler

open Relation
open KnowledgeCompiler.Build

theorem Gate.eq_or_of_kind {gate : Gate} (disjunction : gate.kind = .or)
    : ∃ decision children, gate = .or decision children := by
  cases gate with
  | or decision children => exact ⟨decision, children, rfl⟩
  | _ => cases disjunction

namespace Circuit

variable {c d : Circuit} {id target child new : NodeId} {node : Node} {gate : Gate} {v w : Var} {l : Lit}
variable {σ : Assignment} {children : List NodeId} {decision : Option Var}

-----------------------------------------------------------------------------------------
-- Conjoined parts
-----------------------------------------------------------------------------------------

/-- Gates other than disjunctions are even. -/
theorem even_of_kind (other : gate.kind ≠ .or) : c.Even gate := by
  cases gate with
  | or decision children => exact absurd rfl other
  | constant value | literal l | and children | mapping names child | twoCnf formula | horn formula => trivial

/-- A node is the conjunction of its parts. -/
theorem satisfies_conjoined (found : c.gate? id = some gate)
    : c.Satisfies σ id ↔ ∀ part ∈ gate.conjoined id, c.Satisfies σ part := by
  cases gate with
  | and children => exact satisfies_iff found
  | _ => simp [Gate.conjoined]

/-- The variables of a node are those of its parts. -/
theorem RightVars.mem_varsOf_conjoined (right : c.RightVars) (found : c.gate? id = some gate)
    : v ∈ c.varsOf id ↔ ∃ part ∈ gate.conjoined id, v ∈ c.varsOf part := by
  cases gate with
  | and children => exact right.mem_varsOf found
  | _ => simp [Gate.conjoined]

-----------------------------------------------------------------------------------------
-- Disjunctions of two literals
-----------------------------------------------------------------------------------------

namespace Frees

theorem mem_varsOf (frees : c.Frees v id) (right : c.RightVars) : w ∈ c.varsOf id ↔ w = v := by
  obtain ⟨positive, negative, children, first, second, found, members⟩ := frees
  have var : Lit.var (v : Int) = v := rfl
  rw [right.mem_varsOf found]
  simp [Mentions, members, right.mem_varsOf first, right.mem_varsOf second, var]

theorem satisfies (frees : c.Frees v id) (nonzero : 0 < v) (σ : Assignment) : c.Satisfies σ id := by
  obtain ⟨positive, negative, children, first, second, found, members⟩ := frees
  cases value : σ v with
  | true =>
      refine .or found ((members positive).mpr (.inl rfl)) (.literal first ?_)
      exact (Lit.trueIn_ofNat nonzero).mpr value
  | false =>
      refine .or found ((members negative).mpr (.inr rfl)) (.literal second ?_)
      exact (Lit.trueIn_neg_ofNat nonzero).mpr value

end Frees

/-- A disjunction of literals of one variable is even. -/
theorem Balanced.even (balanced : c.Balanced id) (right : c.RightVars) (found : c.gate? id = some gate)
    : c.Even gate := by
  obtain ⟨v, decision, children, disjunction, literals⟩ := balanced
  obtain rfl := Option.some.inj (disjunction.symm.trans found)
  have vars : ∀ child ∈ children, ∀ w, w ∈ c.varsOf child ↔ w = v := by
    intro child member w
    obtain ⟨l, rfl, literal⟩ := literals child member
    exact right.mem_varsOf literal
  exact fun a first b second => SortedSet.ext_mem fun w => (vars a first w).trans (vars b second w).symm

-----------------------------------------------------------------------------------------
-- Variables and meaning
-----------------------------------------------------------------------------------------

/-- What stands for a child has all variables of the disjunction, if the nodes below the child keep theirs. -/
theorem Completes.varsOf (completes : c.Completes d target child new) (right : c.RightVars) (later : d.RightVars)
    (found : c.gate? target = some (.or decision children)) (member : child ∈ children)
    (below : ∀ part, ReflTransGen c.IsChild part child → d.varsOf part = c.varsOf part)
    : d.varsOf new = c.varsOf target := by
  have within {v : Var} (inside : v ∈ c.varsOf child) : v ∈ c.varsOf target :=
    (right.mem_varsOf found).mpr ⟨child, member, inside⟩
  refine SortedSet.ext_mem fun v => ?_
  cases completes with
  | unchanged complete =>
      rw [below child .refl]
      exact ⟨within, fun inside => by_contra fun absent => complete v (mem_missing.mpr ⟨inside, absent⟩)⟩
  | @conjoined _ gate parts free here conjunction lacking frees members =>
      rw [later.mem_varsOf conjunction]
      constructor
      · rintro ⟨part, listed, inside⟩
        rcases (members part).mp listed with conjoined | ⟨w, missing, rfl⟩
        · rw [below part (below_of_conjoined here conjoined)] at inside
          exact within ((right.mem_varsOf_conjoined here).mpr ⟨part, conjoined, inside⟩)
        · obtain rfl := ((frees w missing).mem_varsOf later).mp inside
          exact (mem_missing.mp missing).1
      · intro inside
        by_cases there : v ∈ c.varsOf child
        · obtain ⟨part, conjoined, inside⟩ := (right.mem_varsOf_conjoined here).mp there
          refine ⟨part, (members part).mpr (.inl conjoined), ?_⟩
          rwa [below part (below_of_conjoined here conjoined)]
        · have missing := mem_missing.mpr ⟨inside, there⟩
          exact ⟨free v, (members _).mpr (.inr ⟨v, missing, rfl⟩), ((frees v missing).mem_varsOf later).mpr rfl⟩

/-- What stands for a child means what the child means, if the nodes below the child keep their meaning. -/
theorem Completes.satisfies_iff (completes : c.Completes d target child new) (upToDate : c.UpToDate)
    (inRange : c.InRange)
    (below : ∀ part, ReflTransGen c.IsChild part child → (d.Satisfies σ part ↔ c.Satisfies σ part))
    : d.Satisfies σ new ↔ c.Satisfies σ child := by
  cases completes with
  | unchanged complete => exact below child .refl
  | conjoined here conjunction lacking frees members =>
      rw [Circuit.satisfies_iff conjunction, satisfies_conjoined here]
      constructor
      · intro all part conjoined
        exact (below part (below_of_conjoined here conjoined)).mp (all part ((members part).mpr (.inl conjoined)))
      · intro all part listed
        rcases (members part).mp listed with conjoined | ⟨v, missing, rfl⟩
        · exact (below part (below_of_conjoined here conjoined)).mpr (all part conjoined)
        · exact (frees v missing).satisfies (upToDate.vars_bound inRange (mem_missing.mp missing).1).1 σ

/-- What is below a child is properly below the node. -/
theorem properlyBelow_of_child {part : NodeId} (found : c.gate? id = some gate) (member : child ∈ gate.children)
    (below : ReflTransGen c.IsChild part child)
    : TransGen c.IsChild part id :=
  TransGen.tail' below ⟨gate, found, member⟩

/-- What smoothing does to a node: a disjunction that is not smooth gets nodes that stand for its children, and any
other node keeps its gate.
-/
inductive Treated (c d : Circuit) (id : NodeId) : Gate → Prop
  | evened {decision : Option Var} {children ids : List NodeId} {newOf : NodeId → NodeId}
    (member : id ∈ c.rough) (now : d.gate? id = some (.or decision ids))
    (members : ∀ new, new ∈ ids ↔ ∃ child ∈ children, newOf child = new)
    (completes : ∀ child ∈ children, c.Completes d id child (newOf child))
    : Treated c d id (.or decision children)
  | kept {gate : Gate} (outside : ¬ id ∈ c.rough) (now : d.gate? id = some gate) : Treated c d id gate

namespace Smooths

theorem treated (smooths : c.Smooths d) (found : c.gate? id = some gate) : c.Treated d id gate := by
  by_cases member : id ∈ c.rough
  · obtain ⟨decision, children, disjunction⟩ := (smooths.unbalanced id member).disjunction
    obtain rfl := Option.some.inj (found.symm.trans disjunction)
    obtain ⟨ids, newOf, now, members, completes⟩ := smooths.evened member disjunction
    exact .evened member now members completes
  · exact .kept member (smooths.others found member)

/-- What holds of a node if it holds of all nodes at or below its children holds of all nodes. -/
theorem induction {motive : NodeId → Prop} (smooths : c.Smooths d)
    (step : ∀ {id gate},
      c.gate? id = some gate
      → c.Treated d id gate
      → (∀ child ∈ gate.children, ∀ part, ReflTransGen c.IsChild part child → motive part)
      → motive id)
    (present : id < c.nodes.size)
    : motive id := by
  have closed : c.Closed := smooths.upToDate.closed
  induction id using smooths.upToDate.acyclic.transGen.induction with
  | _ id ih =>
      obtain ⟨node, before⟩ := c.exists_node present
      have found := gate?_of_node? before
      refine step found (smooths.treated found) fun child member part path => ?_
      exact ih part (properlyBelow_of_child found member path) (closed.lt_of_below path (closed found child member))

/-- Nodes keep their variables. -/
theorem varsOf (smooths : c.Smooths d) (present : id < c.nodes.size) : d.varsOf id = c.varsOf id := by
  have upToDate := smooths.upToDate
  refine smooths.induction (motive := fun id => d.varsOf id = c.varsOf id) (fun {id gate} found treated below => ?_)
    present
  refine SortedSet.ext_mem fun v => ?_
  cases treated with
  | @evened decision children ids newOf _ now members completes =>
      have vars {child : NodeId} (listed : child ∈ children) : d.varsOf (newOf child) = c.varsOf id :=
        (completes child listed).varsOf upToDate.rightVars smooths.later.rightVars found listed (below child listed)
      rw [smooths.later.mem_varsOf now]
      constructor
      · rintro ⟨new, listed, inside⟩
        obtain ⟨child, first, rfl⟩ := (members new).mp listed
        exact vars first ▸ inside
      · intro inside
        obtain ⟨child, first, _⟩ := (upToDate.mem_varsOf found).mp inside
        exact ⟨newOf child, (members _).mpr ⟨child, first, rfl⟩, (vars first).symm ▸ inside⟩
  | kept _ now =>
      rw [smooths.later.mem_varsOf now, upToDate.mem_varsOf found]
      exact mentions_congr fun child listed => below child listed child .refl

/-- Nodes keep their meaning. -/
theorem satisfies_iff (smooths : c.Smooths d) (present : id < c.nodes.size)
    : d.Satisfies σ id ↔ c.Satisfies σ id := by
  refine smooths.induction (motive := fun id => ∀ σ, d.Satisfies σ id ↔ c.Satisfies σ id)
    (fun {id gate} found treated below σ => ?_) present σ
  cases treated with
  | @evened decision children ids newOf _ now members completes =>
      have means {child : NodeId} (listed : child ∈ children) : d.Satisfies σ (newOf child) ↔ c.Satisfies σ child :=
        (completes child listed).satisfies_iff smooths.upToDate smooths.inRange
          fun part path => below child listed part path σ
      rw [Circuit.satisfies_iff now, Circuit.satisfies_iff found]
      constructor
      · rintro ⟨new, listed, holds⟩
        obtain ⟨child, first, rfl⟩ := (members new).mp listed
        exact ⟨child, first, (means first).mp holds⟩
      · rintro ⟨child, first, holds⟩
        exact ⟨newOf child, (members _).mpr ⟨child, first, rfl⟩, (means first).mpr holds⟩
  | kept _ now =>
      rw [Circuit.satisfies_iff now, Circuit.satisfies_iff found]
      exact holds_congr fun child listed σ => below child listed child .refl σ

/-- The nodes that stand for the children of a disjunction have its variables. -/
theorem varsOf_new (smooths : c.Smooths d) (found : c.gate? target = some (.or decision children))
    (member : child ∈ children) (completes : c.Completes d target child new)
    : d.varsOf new = c.varsOf target :=
  completes.varsOf smooths.upToDate.rightVars smooths.later.rightVars found member fun _ path =>
    smooths.varsOf (Closed.lt_of_below smooths.upToDate.closed path (smooths.upToDate.closed found child member))

/-- All disjunctions are even. -/
theorem even (smooths : c.Smooths d) (found : d.gate? id = some gate) : d.Even gate := by
  rcases smooths.added (lt_of_gate? found) with old | ⟨l, literal⟩ | ⟨children, conjunction⟩ | balanced
  · obtain ⟨node, before⟩ := c.exists_node old
    have here := gate?_of_node? before
    generalize same : node.gate = former at here
    cases smooths.treated here with
    | evened _ now members completes =>
        obtain rfl := Option.some.inj (now.symm.trans found)
        intro a left b right
        obtain ⟨x, first, rfl⟩ := (members a).mp left
        obtain ⟨y, second, rfl⟩ := (members b).mp right
        rw [smooths.varsOf_new here first (completes x first), smooths.varsOf_new here second (completes y second)]
    | kept outside now =>
        obtain rfl := Option.some.inj (now.symm.trans found)
        refine (even_congr fun child listed => smooths.varsOf (smooths.upToDate.closed here child listed)).mpr ?_
        subst same
        by_cases disjunction : node.kind = .or
        · refine (smooths.upToDate.evaluates smooths.inRange before).smooth.mp (by_contra fun uneven => outside ?_)
          exact mem_rough.mpr ⟨node, before, disjunction, Bool.eq_false_iff.mpr uneven⟩
        · exact even_of_kind disjunction
  · rw [literal] at found
    exact Option.some.inj found ▸ trivial
  · rw [conjunction] at found
    exact Option.some.inj found ▸ trivial
  · exact balanced.even smooths.later.rightVars found

end Smooths

-----------------------------------------------------------------------------------------
-- Decomposable sub-circuits
-----------------------------------------------------------------------------------------

/-- A disjunction of literals is decomposable. -/
theorem Balanced.decomposable (balanced : c.Balanced id) (upToDate : c.UpToDate) (inRange : c.InRange)
    : (c.throughoutOf id).decomposable = true := by
  obtain ⟨v, decision, children, found, literals⟩ := balanced
  refine (upToDate.decomposable_iff inRange found).mpr ⟨nofun, fun child member => ?_⟩
  obtain ⟨l, _, literal⟩ := literals child member
  exact (upToDate.decomposable_iff inRange literal).mpr ⟨nofun, by simp [Gate.children]⟩

/-- The parts of a decomposable node have no variable in common. -/
theorem UpToDate.apart_conjoined {a b : NodeId} (upToDate : c.UpToDate) (found : c.gate? id = some gate)
    (holds : (c.throughoutOf id).decomposable = true) (left : a ∈ gate.conjoined id) (right : b ∈ gate.conjoined id)
    (differ : a ≠ b)
    : c.Apart a b := by
  cases gate with
  | and children => exact (upToDate.apart_of_decomposable found holds).forall left right differ
  | _ =>
      have first : a = id := List.mem_singleton.mp left
      exact absurd (first.trans (List.mem_singleton.mp right).symm) differ

/-- What stands for a decomposable child is decomposable: the variables that are left free are not those of the
child.
-/
theorem Completes.decomposable (completes : c.Completes d target child new) (upToDate : c.UpToDate) (later : d.UpToDate)
    (laterInRange : d.InRange) (holds : (c.throughoutOf child).decomposable = true)
    (vars : ∀ part, ReflTransGen c.IsChild part child → d.varsOf part = c.varsOf part)
    (below : ∀ part, ReflTransGen c.IsChild part child → (d.throughoutOf part).decomposable = true)
    : (d.throughoutOf new).decomposable = true := by
  cases completes with
  | unchanged complete => exact below child .refl
  | @conjoined _ gate parts free found conjunction lacking frees members =>
      have inside {part : NodeId} (conjoined : part ∈ gate.conjoined child) (v : Var) (there : v ∈ d.varsOf part)
          : v ∈ c.varsOf child := by
        rw [vars part (below_of_conjoined found conjoined)] at there
        exact (upToDate.rightVars.mem_varsOf_conjoined found).mpr ⟨part, conjoined, there⟩
      have outside {u v : Var} (absent : u ∈ c.missing target child) (there : v ∈ d.varsOf (free u))
          : ¬ v ∈ c.varsOf child := by
        obtain rfl := ((frees u absent).mem_varsOf later.rightVars).mp there
        exact (mem_missing.mp absent).2
      refine (later.decomposable_iff laterInRange conjunction).mpr ⟨?_, fun part listed => ?_⟩
      · rintro _ ⟨rfl⟩
        refine (later.nodup conjunction).pairwise_of_forall_ne fun a left b right differ v first second => ?_
        rcases (members a).mp left with conjoined | ⟨u, absent, rfl⟩ <;>
          rcases (members b).mp right with conjoined' | ⟨w, absent', rfl⟩
        · rw [vars a (below_of_conjoined found conjoined)] at first
          rw [vars b (below_of_conjoined found conjoined')] at second
          exact upToDate.apart_conjoined found holds conjoined conjoined' differ v first second
        · exact outside absent' second (inside conjoined v first)
        · exact outside absent first (inside conjoined' v second)
        · obtain rfl := ((frees u absent).mem_varsOf later.rightVars).mp first
          obtain rfl := ((frees w absent').mem_varsOf later.rightVars).mp second
          exact differ rfl
      · rcases (members part).mp listed with conjoined | ⟨u, absent, rfl⟩
        · exact below part (below_of_conjoined found conjoined)
        · exact (frees u absent).balanced.decomposable later laterInRange

/-- Decomposable sub-circuits stay decomposable. -/
theorem Smooths.decomposable (smooths : c.Smooths d) (present : id < c.nodes.size)
    (holds : (c.throughoutOf id).decomposable = true)
    : (d.throughoutOf id).decomposable = true := by
  have upToDate := smooths.upToDate
  refine smooths.induction
    (motive := fun id => (c.throughoutOf id).decomposable = true → (d.throughoutOf id).decomposable = true)
    (fun {id gate} found treated below holds => ?_) present holds
  have vars {child : NodeId} (member : child ∈ gate.children) (part : NodeId)
      (path : ReflTransGen c.IsChild part child)
      : d.varsOf part = c.varsOf part :=
    smooths.varsOf (Closed.lt_of_below upToDate.closed path (upToDate.closed found child member))
  have below {child : NodeId} (member : child ∈ gate.children) (part : NodeId)
      (path : ReflTransGen c.IsChild part child)
      : (d.throughoutOf part).decomposable = true := by
    refine below child member part path (upToDate.flag_below (fun _ _ => rfl) rfl holds ?_)
    exact (properlyBelow_of_child found member path).to_reflTransGen
  obtain ⟨apart, children⟩ := (upToDate.decomposable_iff smooths.inRange found).mp holds
  cases treated with
  | evened _ now members completes =>
      refine (smooths.later.decomposable_iff smooths.laterInRange now).mpr ⟨nofun, fun new inside => ?_⟩
      obtain ⟨child, first, rfl⟩ := (members new).mp inside
      exact (completes child first).decomposable upToDate smooths.later smooths.laterInRange (children child first)
        (vars first) (below first)
  | kept _ now =>
      refine (smooths.later.decomposable_iff smooths.laterInRange now).mpr
        ⟨fun listed conjunction => ?_, fun child inside => below inside child .refl⟩
      refine (apart listed conjunction).imp_of_mem fun {a b} left right separate v first second => ?_
      rw [conjunction] at vars
      rw [vars left a .refl] at first
      rw [vars right b .refl] at second
      exact separate v first second

-----------------------------------------------------------------------------------------
-- Mapping nodes
-----------------------------------------------------------------------------------------

/-- Smoothing neither repairs nor spoils the names of mapping nodes. -/
theorem Smooths.covered_iff (smooths : c.Smooths d) : d.Covered ↔ c.Covered := by
  have vars {gate : Gate} {id : NodeId} (found : c.gate? id = some gate) : ∀ child ∈ gate.children,
      d.varsOf child = c.varsOf child := fun child member => smooths.varsOf (smooths.upToDate.closed found child member)
  rw [covered_iff_covers, covered_iff_covers]
  constructor
  · intro covered id gate found
    cases gate with
    | mapping names child =>
        exact (covers_congr (vars found)).mp (covered (smooths.gate? found (by simp [Gate.kind])))
    | _ => trivial
  · intro covered id gate found
    cases gate with
    | mapping names child =>
        -- the nodes that are new do not rename, and a disjunction is never made into a node that does
        rcases smooths.added (lt_of_gate? found) with old | ⟨l, literal⟩ | ⟨children, conjunction⟩ | balanced
        · obtain ⟨node, before⟩ := c.exists_node old
          have here := gate?_of_node? before
          obtain ⟨other, there, kind, _⟩ := smooths.kept here
          obtain rfl := Option.some.inj (there.symm.trans found)
          have same := (smooths.gate? here (by rw [← kind]; simp [Gate.kind])).symm.trans found
          rw [Option.some.inj same] at here
          exact (covers_congr (vars here)).mpr (covered here)
        · simp [literal] at found
        · simp [conjunction] at found
        · obtain ⟨v, decision, children, disjunction, _⟩ := balanced
          simp [disjunction] at found
    | _ => trivial

-----------------------------------------------------------------------------------------
-- Smoothed circuits
-----------------------------------------------------------------------------------------

/-- All disjunctions of the second circuit are smooth and their children have the same variables. The nodes of the
first circuit are there with the kind, the variables and the meaning that they had, decomposable sub-circuits are
decomposable, and no node is below itself.
-/
structure Smoothed (c d : Circuit) : Prop where
  smooth
    : ∀ {id node},
        d.node? id = some node
        → node.kind = .or
        → node.summary.own.smooth = true ∧ ∀ child ∈ node.children, d.varsOf child = node.vars
  kept
    : ∀ {id old},
        c.node? id = some old
        → ∃ new, d.node? id = some new ∧ new.kind = old.kind ∧ new.vars = old.vars
          ∧ (old.throughout.decomposable = true → new.throughout.decomposable = true)
          ∧ ∀ σ, d.Satisfies σ id ↔ c.Satisfies σ id
  acyclic : ∀ id, ¬ TransGen d.IsChild id id

namespace Smooths

/-- A disjunction is smooth by its summary. -/
theorem own_smooth (smooths : c.Smooths d) (found : d.node? id = some node) : node.summary.own.smooth = true :=
  (smooths.later.evaluates smooths.laterInRange found).smooth.mpr (smooths.even (gate?_of_node? found))

theorem smoothed (smooths : c.Smooths d) : c.Smoothed d where
  smooth {id node} found disjunction := by
    refine ⟨smooths.own_smooth found, fun child member => SortedSet.ext_mem fun v => ?_⟩
    obtain ⟨decision, children, shape⟩ := Gate.eq_or_of_kind disjunction
    have here := gate?_of_node? found
    have even := smooths.even here
    rw [Node.children, shape] at member
    rw [shape] at here even
    rw [← varsOf_of_node? found, smooths.later.mem_varsOf here]
    constructor
    · exact fun inside => ⟨child, member, inside⟩
    · rintro ⟨other, listed, inside⟩
      exact even child member other listed ▸ inside
  kept {id old} found := by
    have present := lt_of_node? found
    obtain ⟨new, there⟩ := d.exists_node (smooths.lt present)
    obtain ⟨gate, now, kind, _⟩ := smooths.kept (gate?_of_node? found)
    obtain rfl := Option.some.inj ((gate?_of_node? there).symm.trans now)
    refine ⟨new, there, kind, ?_, fun holds => ?_, fun σ => smooths.satisfies_iff present⟩
    · rw [← varsOf_of_node? there, ← varsOf_of_node? found, smooths.varsOf present]
    · rw [← throughoutOf_of_node? there]
      exact smooths.decomposable present (throughoutOf_of_node? found ▸ holds)
  acyclic := smooths.later.acyclic.not_properlyBelow

/-- Nothing is left to smooth. -/
theorem rough_eq_nil (smooths : c.Smooths d) : d.rough = [] := by
  refine List.eq_nil_iff_forall_not_mem.mpr fun id member => ?_
  obtain ⟨node, found, _, uneven⟩ := mem_rough.mp member
  rw [smooths.own_smooth found] at uneven
  cases uneven

end Smooths

/-- Smoothing succeeds on every circuit between requests whose numbers are in range, mapping nodes and sharing or
not. It leaves a smoothed circuit, and smoothing that one again changes nothing at all.
-/
theorem Reachable.smooth_correct {s : Journaled Circuit} (reachable : s.state.Reachable) (inRange : s.state.InRange)
    : ∃ t, smooth s = .ok () t ∧ s.state.Smoothed t.state ∧ smooth t = .ok () t := by
  obtain ⟨_, t, ran, smooths⟩ := smooth_yields reachable.consistent.upToDate inRange s.journal
  exact ⟨t, ran, smooths.smoothed, smooth_of_even smooths.rough_eq_nil⟩

/-- A run without sharing that makes the implication of two variables, also under other names, and a disjunction
over it. Neither disjunction is smooth.
-/
def implicationRun : List Request :=
  [.setSharing false, .literal 1, .literal 2, .literal (-1), .conjunction [0, 1], .disjunction [2, 3] none,
    .mapping 4 renamedPair, .literal 5, .disjunction [5, 6] none]

/-- The state after that run. -/
def implication : Journaled Circuit :=
  (Request.performAll implicationRun { state := .empty }).get (by decide +kernel)

theorem implication_reachable : implication.state.Reachable := by
  refine @Reachable.performAll implicationRun { state := .empty } implication .empty ?_ (Option.some_get _).symm
  simp [implicationRun, Request.Small]

theorem implication_inRange : implication.state.InRange := by decide +kernel

/-- Both disjunctions get even children. -/
theorem smooth_correct_implication
    : implication.state.rough = [4, 7]
      ∧ ∃ t, smooth implication = .ok () t ∧ implication.state.Smoothed t.state ∧ smooth t = .ok () t :=
  ⟨by decide +kernel, implication_reachable.smooth_correct implication_inRange⟩

end Circuit

end KnowledgeCompiler
