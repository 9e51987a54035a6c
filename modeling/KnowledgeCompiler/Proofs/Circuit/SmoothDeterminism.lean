import KnowledgeCompiler.Proofs.Circuit.SmoothMeaning

/-! When smoothing keeps disjunctions deterministic.

What stands for a child has the conjuncts of the child, and so children that contradict each other still do. But the
constant false is a child that does not count, while the conjunction that stands for it counts and has no conjuncts.
So a disjunction over the constant false that is not smooth loses its determinism, unless all of its children become
the same node.
-/

namespace KnowledgeCompiler

open Relation
open KnowledgeCompiler.Build
open KnowledgeCompiler.Action (after outcome)

namespace Circuit

variable {c d : Circuit} {id target child new : NodeId} {node : Node} {gate : Gate} {v : Var} {l : Lit}
variable {children : List NodeId} {decision : Option Var}

-----------------------------------------------------------------------------------------
-- Conjuncts
-----------------------------------------------------------------------------------------

theorem Contradict.congr {a b x y : NodeId} (contradict : c.Contradict a b)
    (left : d.conjunctsOf x = c.conjunctsOf a) (right : d.conjunctsOf y = c.conjunctsOf b)
    : d.Contradict x y := by
  obtain ⟨l, first, second⟩ := contradict
  exact ⟨l, left ▸ first, right ▸ second⟩

/-- What a gate commits to depends on the conjuncts of its children and on which of them are the constant false. -/
theorem commits_congr (same : ∀ child ∈ gate.children, d.conjunctsOf child = c.conjunctsOf child)
    (falsum : ∀ child ∈ gate.children, d.isFalse child = c.isFalse child)
    : d.Commits l gate ↔ c.Commits l gate := by
  cases gate with
  | and children => exact exists_congr fun child => and_congr_right fun member => by rw [same child member]
  | or decision children =>
      refine and_congr (exists_congr fun child => and_congr_right fun member => by rw [falsum child member]) ?_
      exact forall_congr' fun child => forall_congr' fun member => by rw [falsum child member, same child member]
  | mapping names child => rw [Commits, Commits, same child (List.mem_singleton_self child)]
  | constant value | literal l | twoCnf formula | horn formula => exact Iff.rfl

-----------------------------------------------------------------------------------------
-- Disjunctions of two literals
-----------------------------------------------------------------------------------------

namespace Frees

variable (frees : c.Frees v id) (upToDate : c.UpToDate) (inRange : c.InRange)

include frees upToDate inRange

/-- A free variable has no forced value. -/
theorem not_mem_conjunctsOf : ¬ l ∈ c.conjunctsOf id := by
  obtain ⟨positive, negative, children, first, second, found, members⟩ := frees
  rw [upToDate.mem_conjunctsOf inRange found]
  rintro ⟨-, every⟩
  have high := every positive ((members _).mpr (.inl rfl)) (isFalse_of_gate? first nofun)
  have low := every negative ((members _).mpr (.inr rfl)) (isFalse_of_gate? second nofun)
  obtain rfl : l = v := (upToDate.mem_conjunctsOf inRange first).mp high
  have same : (v : Int) = -v := (upToDate.mem_conjunctsOf inRange second).mp low
  have nonzero : (v : Int) ≠ 0 := (inRange first : Lit.Proper v).1
  omega

theorem deterministic : (c.throughoutOf id).deterministic = true := by
  obtain ⟨positive, negative, children, first, second, found, members⟩ := frees
  have leaf {id : NodeId} {l : Lit} (literal : c.gate? id = some (.literal l))
      : (c.throughoutOf id).deterministic = true :=
    (upToDate.deterministic_iff inRange literal).mpr ⟨nofun, by simp [Gate.children]⟩
  refine (upToDate.deterministic_iff inRange found).mpr ⟨?_, fun child member => ?_⟩
  · rintro _ _ ⟨⟩
    have opposite : c.Contradict positive negative :=
      ⟨v, (upToDate.mem_conjunctsOf inRange first).mpr rfl, (upToDate.mem_conjunctsOf inRange second).mpr rfl⟩
    refine ((upToDate.nodup found).filter _).pairwise_of_forall_ne (forall_pair opposite fun a member => ?_)
    exact (members a).mp (List.mem_filter.mp member).1
  · rcases (members child).mp member with rfl | rfl
    · exact leaf first
    · exact leaf second

end Frees

-----------------------------------------------------------------------------------------
-- What stands for a child
-----------------------------------------------------------------------------------------

/-- The conjuncts of a node are those of its parts. -/
theorem UpToDate.mem_conjunctsOf_conjoined (upToDate : c.UpToDate) (inRange : c.InRange)
    (found : c.gate? id = some gate)
    : l ∈ c.conjunctsOf id ↔ ∃ part ∈ gate.conjoined id, l ∈ c.conjunctsOf part := by
  cases gate with
  | and children => exact upToDate.mem_conjunctsOf inRange found
  | _ => simp [Gate.conjoined]

/-- What stands for a child has the conjuncts of the child, if the nodes below the child keep theirs. -/
theorem Completes.conjunctsOf (completes : c.Completes d target child new) (upToDate : c.UpToDate) (inRange : c.InRange)
    (later : d.UpToDate) (laterInRange : d.InRange)
    (below : ∀ part, ReflTransGen c.IsChild part child → d.conjunctsOf part = c.conjunctsOf part)
    : d.conjunctsOf new = c.conjunctsOf child := by
  cases completes with
  | unchanged complete => exact below child .refl
  | conjoined found conjunction lacking frees members =>
      refine SortedSet.ext_mem fun l => ?_
      rw [later.mem_conjunctsOf laterInRange conjunction, upToDate.mem_conjunctsOf_conjoined inRange found]
      constructor
      · rintro ⟨part, listed, inside⟩
        rcases (members part).mp listed with conjoined | ⟨v, absent, rfl⟩
        · exact ⟨part, conjoined, below part (below_of_conjoined found conjoined) ▸ inside⟩
        · exact absurd inside ((frees v absent).not_mem_conjunctsOf later laterInRange)
      · rintro ⟨part, conjoined, inside⟩
        have same := (below part (below_of_conjoined found conjoined)).symm
        exact ⟨part, (members part).mpr (.inl conjoined), same ▸ inside⟩

/-- What stands for a deterministic child is deterministic, if the nodes below the child still are. -/
theorem Completes.deterministic (completes : c.Completes d target child new) (later : d.UpToDate)
    (laterInRange : d.InRange)
    (below : ∀ part, ReflTransGen c.IsChild part child → (d.throughoutOf part).deterministic = true)
    : (d.throughoutOf new).deterministic = true := by
  cases completes with
  | unchanged complete => exact below child .refl
  | conjoined found conjunction lacking frees members =>
      refine (later.deterministic_iff laterInRange conjunction).mpr ⟨nofun, fun part listed => ?_⟩
      rcases (members part).mp listed with conjoined | ⟨v, absent, rfl⟩
      · exact below part (below_of_conjoined found conjoined)
      · exact (frees v absent).deterministic later laterInRange

/-- What is below a child is below what stands for it, if the nodes below the child keep what is below them and it is
not a conjunction, which may have been taken apart.
-/
theorem Completes.below {other : NodeId} (completes : c.Completes d target child new)
    (path : ReflTransGen c.IsChild other child) (found : c.gate? other = some gate) (kind : gate.kind ≠ .and)
    (below : ∀ part, ReflTransGen c.IsChild part child → ReflTransGen c.IsChild other part
      → ReflTransGen d.IsChild other part)
    : ReflTransGen d.IsChild other new := by
  cases completes with
  | unchanged complete => exact below child .refl path
  | @conjoined _ shape parts free here conjunction lacking frees members =>
      have reached {part : NodeId} (conjoined : part ∈ shape.conjoined child) (path : ReflTransGen c.IsChild other part)
          : ReflTransGen d.IsChild other new :=
        (below part (below_of_conjoined here conjoined) path).tail
          ⟨_, conjunction, (members part).mpr (.inl conjoined)⟩
      cases shape with
      | and children =>
          rcases path.cases_tail with rfl | ⟨part, first, link⟩
          · rw [Option.some.inj (found.symm.trans here)] at kind
            exact absurd rfl kind
          · exact reached ((isChild_iff here).mp link) first
      | _ => exact reached (List.mem_singleton_self child) path

-----------------------------------------------------------------------------------------
-- Disjunctions over the constant false
-----------------------------------------------------------------------------------------

/-- Each disjunction at or below a node that is not smooth and has the constant false for a child is left with one
child.
-/
def Collapses (c d : Circuit) (id : NodeId) : Prop :=
  ∀ {other decision children},
    ReflTransGen c.IsChild other id
    → other ∈ c.rough
    → c.gate? other = some (.or decision children)
    → (∃ child ∈ children, c.isFalse child = true)
    → ∀ a b, d.IsChild a other → d.IsChild b other → a = b

/-- Nothing has to collapse where no disjunction stands on the constant false. -/
theorem collapses_of_alive (alive : ∀ child, c.isFalse child = false) : c.Collapses d id := by
  rintro _ _ _ - - - ⟨child, -, falsum⟩
  rw [alive child] at falsum
  cases falsum

theorem Collapses.below {other : NodeId} (collapses : c.Collapses d id) (path : ReflTransGen c.IsChild other id)
    : c.Collapses d other :=
  fun first => collapses (first.trans path)

/-- A disjunction that is not smooth has a child with a variable. -/
theorem UpToDate.exists_var_of_rough (upToDate : c.UpToDate) (inRange : c.InRange) (member : id ∈ c.rough)
    (found : c.gate? id = some (.or decision children))
    : ∃ child ∈ children, ∃ v, v ∈ c.varsOf child := by
  by_contra none_
  obtain ⟨node, there, _, uneven⟩ := mem_rough.mp member
  have even : c.Even node.gate := by
    rw [Option.some.inj ((gate?_of_node? there).symm.trans found)]
    intro a left b right
    refine SortedSet.ext_mem fun v => iff_of_false (fun inside => none_ ⟨a, left, v, inside⟩) fun inside => ?_
    exact none_ ⟨b, right, v, inside⟩
  rw [(upToDate.evaluates inRange there).smooth.mpr even] at uneven
  cases uneven

theorem UpToDate.isFalse_of_var (upToDate : c.UpToDate) (inside : v ∈ c.varsOf id) : c.isFalse id = false := by
  refine Bool.eq_false_iff.mpr fun falsum => ?_
  exact (upToDate.mem_varsOf (isFalse_iff.mp falsum)).mp inside

namespace Smooths

variable (smooths : c.Smooths d)

include smooths

theorem isFalse (present : id < c.nodes.size) : d.isFalse id = c.isFalse id := by
  obtain ⟨node, before⟩ := c.exists_node present
  obtain ⟨other, now, kind, _⟩ := smooths.kept (gate?_of_node? before)
  rw [Bool.eq_iff_iff, isFalse_iff, isFalse_iff]
  constructor
  · intro found
    obtain rfl := Option.some.inj (now.symm.trans found)
    rw [← found, smooths.gate? (gate?_of_node? before) (by rw [← kind]; simp [Gate.kind]), gate?_of_node? before]
  · exact fun found => smooths.gate? found (by simp [Gate.kind])

/-- What stands for a child is not the constant false. -/
theorem isFalse_new (member : id ∈ c.rough) (found : c.gate? id = some (.or decision children))
    (listed : child ∈ children) (completes : c.Completes d id child new)
    : d.isFalse new = false := by
  cases completes with
  | unchanged complete =>
      obtain ⟨other, first, v, inside⟩ := smooths.upToDate.exists_var_of_rough smooths.inRange member found
      have whole : v ∈ c.varsOf id := (smooths.upToDate.mem_varsOf found).mpr ⟨other, first, inside⟩
      rw [smooths.isFalse (smooths.upToDate.closed found child listed)]
      refine smooths.upToDate.isFalse_of_var (v := v) (by_contra fun absent => ?_)
      exact complete v (mem_missing.mpr ⟨whole, absent⟩)
  | conjoined here conjunction lacking frees members => exact isFalse_of_gate? conjunction nofun

/-- Nodes keep their conjuncts if disjunctions over the constant false collapse. -/
theorem conjunctsOf (present : id < c.nodes.size) (collapses : c.Collapses d id)
    : d.conjunctsOf id = c.conjunctsOf id := by
  have upToDate := smooths.upToDate
  have inRange : c.InRange := smooths.inRange
  refine smooths.induction (motive := fun id => c.Collapses d id → d.conjunctsOf id = c.conjunctsOf id)
    (fun {id gate} found treated below collapses => SortedSet.ext_mem fun l => ?_) present collapses
  have below {child : NodeId} (member : child ∈ gate.children) (part : NodeId)
      (path : ReflTransGen c.IsChild part child)
      : d.conjunctsOf part = c.conjunctsOf part :=
    below child member part path (collapses.below (properlyBelow_of_child found member path).to_reflTransGen)
  cases treated with
  | @evened decision children ids newOf rough now members completes =>
      have same {child : NodeId} (listed : child ∈ children)
          : d.conjunctsOf (newOf child) = c.conjunctsOf child :=
        (completes child listed).conjunctsOf upToDate inRange smooths.later smooths.laterInRange (below listed)
      have link {child : NodeId} (listed : child ∈ children) : d.IsChild (newOf child) id :=
        ⟨_, now, (members _).mpr ⟨child, listed, rfl⟩⟩
      obtain ⟨some_, first, v, inside⟩ := upToDate.exists_var_of_rough inRange rough found
      have alive := upToDate.isFalse_of_var inside
      rw [smooths.later.mem_conjunctsOf smooths.laterInRange now, upToDate.mem_conjunctsOf inRange found]
      constructor
      · rintro ⟨-, every⟩
        refine ⟨⟨some_, first, alive⟩, fun child listed _ => same listed ▸ ?_⟩
        refine every _ ((members _).mpr ⟨_, listed, rfl⟩) ?_
        exact smooths.isFalse_new rough found listed (completes child listed)
      · rintro ⟨-, every⟩
        refine ⟨⟨newOf some_, (members _).mpr ⟨_, first, rfl⟩,
          smooths.isFalse_new rough found first (completes some_ first)⟩, fun new listed _ => ?_⟩
        obtain ⟨child, inside, rfl⟩ := (members new).mp listed
        cases falsum : c.isFalse child with
        | false => exact same inside ▸ every child inside falsum
        | true =>
            rw [collapses .refl rough found ⟨child, inside, falsum⟩ _ _ (link inside) (link first), same first]
            exact every some_ first alive
  | kept _ now =>
      rw [smooths.later.mem_conjunctsOf smooths.laterInRange now, upToDate.mem_conjunctsOf inRange found]
      refine commits_congr (fun child listed => below listed child .refl) fun child listed => ?_
      exact smooths.isFalse (upToDate.closed found child listed)

/-- Deterministic sub-circuits stay deterministic if disjunctions over the constant false collapse. -/
theorem deterministic (present : id < c.nodes.size) (collapses : c.Collapses d id)
    (holds : (c.throughoutOf id).deterministic = true)
    : (d.throughoutOf id).deterministic = true := by
  have upToDate := smooths.upToDate
  have inRange : c.InRange := smooths.inRange
  refine smooths.induction
    (motive := fun id => c.Collapses d id → (c.throughoutOf id).deterministic = true
      → (d.throughoutOf id).deterministic = true)
    (fun {id gate} found treated below collapses holds => ?_) present collapses holds
  have there {part child : NodeId} (member : child ∈ gate.children) (path : ReflTransGen c.IsChild part child)
      : part < c.nodes.size :=
    Closed.lt_of_below upToDate.closed path (upToDate.closed found child member)
  have properly {part child : NodeId} (member : child ∈ gate.children) (path : ReflTransGen c.IsChild part child)
      : ReflTransGen c.IsChild part id :=
    (properlyBelow_of_child found member path).to_reflTransGen
  have same {child : NodeId} (member : child ∈ gate.children) (part : NodeId)
      (path : ReflTransGen c.IsChild part child)
      : d.conjunctsOf part = c.conjunctsOf part :=
    smooths.conjunctsOf (there member path) (collapses.below (properly member path))
  have below {child : NodeId} (member : child ∈ gate.children) (part : NodeId)
      (path : ReflTransGen c.IsChild part child)
      : (d.throughoutOf part).deterministic = true :=
    below child member part path (collapses.below (properly member path))
      (upToDate.flag_below (fun _ _ => rfl) rfl holds (properly member path))
  obtain ⟨exclusive, -⟩ := (upToDate.deterministic_iff inRange found).mp holds
  cases treated with
  | @evened decision children ids newOf rough now members completes =>
      have exclusive := exclusive decision children rfl
      have link {child : NodeId} (listed : child ∈ children) : d.IsChild (newOf child) id :=
        ⟨_, now, (members _).mpr ⟨child, listed, rfl⟩⟩
      refine (smooths.later.deterministic_iff smooths.laterInRange now).mpr ⟨?_, fun new inside => ?_⟩
      · rintro _ _ ⟨⟩
        refine ((smooths.later.nodup now).filter _).pairwise_of_forall_ne fun x left y right differ => ?_
        obtain ⟨a, first, rfl⟩ := (members x).mp (List.mem_filter.mp left).1
        obtain ⟨b, second, rfl⟩ := (members y).mp (List.mem_filter.mp right).1
        -- a child that is the constant false leaves a single child
        have alive {child : NodeId} (listed : child ∈ children) : c.isFalse child = false := by
          refine Bool.eq_false_iff.mpr fun falsum => differ ?_
          exact collapses .refl rough found ⟨child, listed, falsum⟩ _ _ (link first) (link second)
        have contradict : c.Contradict a b :=
          exclusive.forall (List.mem_filter.mpr ⟨first, by simp [alive first]⟩)
            (List.mem_filter.mpr ⟨second, by simp [alive second]⟩) fun equal => differ (congrArg newOf equal)
        refine contradict.congr ?_ ?_
        · exact (completes a first).conjunctsOf upToDate inRange smooths.later smooths.laterInRange (same first)
        · exact (completes b second).conjunctsOf upToDate inRange smooths.later smooths.laterInRange (same second)
      · obtain ⟨child, first, rfl⟩ := (members new).mp inside
        exact (completes child first).deterministic smooths.later smooths.laterInRange (below first)
  | kept _ now =>
      refine (smooths.later.deterministic_iff smooths.laterInRange now).mpr
        ⟨fun decision children disjunction => ?_, fun child listed => below listed child .refl⟩
      have exclusive := exclusive decision children disjunction
      rw [disjunction] at same there
      have alike : children.filter (fun child => !d.isFalse child) = children.filter fun child => !c.isFalse child :=
        List.filter_congr fun child listed => by rw [smooths.isFalse (there listed .refl)]
      rw [alike]
      refine exclusive.imp_of_mem fun {a b} left right contradict => contradict.congr ?_ ?_
      · exact same (List.mem_filter.mp left).1 a .refl
      · exact same (List.mem_filter.mp right).1 b .refl

/-- Nodes other than conjunctions stay below the nodes that they were below. -/
theorem below {other : NodeId} (path : ReflTransGen c.IsChild other id) (found : c.gate? other = some gate)
    (kind : gate.kind ≠ .and)
    : ReflTransGen d.IsChild other id := by
  have present : id < c.nodes.size := by
    rcases path.cases_tail with rfl | ⟨_, _, _, here, _⟩
    · exact lt_of_gate? found
    · exact lt_of_gate? here
  refine smooths.induction
    (motive := fun id => ReflTransGen c.IsChild other id → ReflTransGen d.IsChild other id)
    (fun {id shape} here treated below path => ?_) present path
  rcases path.cases_tail with rfl | ⟨child, first, link⟩
  · exact .refl
  have listed := (isChild_iff here).mp link
  cases treated with
  | evened _ now members completes =>
      have reached := (completes child listed).below first found kind (below child listed)
      exact reached.tail ⟨_, now, (members _).mpr ⟨child, listed, rfl⟩⟩
  | kept _ now => exact (below child listed child .refl first).tail ⟨_, now, listed⟩

/-- Where a node is deterministic afterwards, disjunctions over the constant false have collapsed: what stands for the
constant false contradicts nothing.
-/
theorem collapses (holds : (d.throughoutOf id).deterministic = true) : c.Collapses d id := by
  intro other decision children path member found ⟨falsum, listed, false_⟩
  obtain ⟨ids, newOf, there, members, completes⟩ := smooths.evened member found
  have here := isFalse_iff.mp false_
  have flagged := smooths.later.flag_below (fun _ _ => rfl) rfl holds
    (smooths.below path found (by simp [Gate.kind]))
  have exclusive := ((smooths.later.deterministic_iff smooths.laterInRange there).mp flagged).1 _ _ rfl
  have leaf {part : NodeId} (path : ReflTransGen c.IsChild part falsum) : part = falsum := by
    rcases path.cases_tail with same | ⟨_, _, link⟩
    · exact same.symm
    · exact absurd ((isChild_iff here).mp link) (by simp [Gate.children])
  have kept (part : NodeId) (path : ReflTransGen c.IsChild part falsum) : d.conjunctsOf part = c.conjunctsOf part := by
    obtain rfl := leaf path
    refine smooths.conjunctsOf (lt_of_gate? here) fun path rough disjunction _ => ?_
    obtain rfl := leaf path
    rw [here] at disjunction
    cases disjunction
  have uncommitted (l : Lit) : ¬ l ∈ d.conjunctsOf (newOf falsum) := by
    rw [(completes falsum listed).conjunctsOf smooths.upToDate smooths.inRange smooths.later smooths.laterInRange kept,
      smooths.upToDate.mem_conjunctsOf smooths.inRange here]
    exact fun impossible => impossible
  have counts {new : NodeId} (inside : new ∈ ids) : new ∈ ids.filter fun child => !d.isFalse child := by
    obtain ⟨child, first, rfl⟩ := (members new).mp inside
    exact List.mem_filter.mpr ⟨inside, by simp [smooths.isFalse_new member found first (completes child first)]⟩
  have single {new : NodeId} (link : d.IsChild new other) : new = newOf falsum := by
    by_contra differ
    obtain ⟨l, inside, _⟩ := exclusive.forall (counts ((members _).mpr ⟨falsum, listed, rfl⟩))
      (counts ((isChild_iff there).mp link)) (Ne.symm differ)
    exact uncommitted l inside
  exact fun a b first second => (single first).trans (single second).symm

/-- A deterministic node stays deterministic just if disjunctions over the constant false collapse. -/
theorem deterministic_iff (present : id < c.nodes.size) (holds : (c.throughoutOf id).deterministic = true)
    : (d.throughoutOf id).deterministic = true ↔ c.Collapses d id :=
  ⟨smooths.collapses, fun collapses => smooths.deterministic present collapses holds⟩

/-- All sub-circuits are smooth. -/
theorem throughout_smooth (found : d.node? id = some node) : node.throughout.smooth = true :=
  (smooths.later.flag_iff_below (fun _ _ => rfl) rfl found).mpr fun _ there => smooths.own_smooth there

end Smooths

-----------------------------------------------------------------------------------------
-- Counting after smoothing
-----------------------------------------------------------------------------------------

/-- Smoothing keeps a deterministic node deterministic just if every disjunction at or below it that is not smooth and
has the constant false for a child is left with one child. If so, and if the node was decomposable too, its models can
be counted afterwards under any assumption without a complementary pair; if not, counting is refused because the node
is not deterministic.
-/
theorem Reachable.smooth_deterministic {s : Journaled Circuit} (reachable : s.state.Reachable)
    (inRange : s.state.InRange)
    : ∃ t, smooth s = .ok () t
      ∧ ∀ {id old},
          s.state.node? id = some old
          → old.throughout.deterministic = true
          → (∃ new, t.state.node? id = some new
              ∧ (new.throughout.deterministic = true ↔ s.state.Collapses t.state id))
            ∧ (old.throughout.decomposable = true
              → ∀ literals : List Lit,
                  (∀ l ∈ literals, l.var < 2147483648)
                  → (∀ l ∈ literals, ¬ -l ∈ literals)
                  → ∀ memoize,
                      (s.state.Collapses t.state id
                        → ∃ count, outcome (modelCount id literals memoize) t = .ok count)
                      ∧ (¬ s.state.Collapses t.state id
                        → outcome (modelCount id literals memoize) t = .error (.error (.notDeterministic id)))) := by
  obtain ⟨_, t, ran, smooths⟩ := smooth_yields reachable.consistent.upToDate inRange s.journal
  have later : t.state.Reachable := @Reachable.done .smooth s t reachable trivial ran
  refine ⟨t, ran, fun {id old} found holds => ?_⟩
  have present := lt_of_node? found
  obtain ⟨new, there⟩ := t.state.exists_node (smooths.lt present)
  have deterministic := smooths.deterministic_iff present (by rw [throughoutOf_of_node? found, holds])
  rw [throughoutOf_of_node? there] at deterministic
  refine ⟨⟨new, there, deterministic⟩, fun decomposable literals small consistent memoize => ?_⟩
  have admissible := admissible_of_consistent small consistent
  have kept := smooths.decomposable present (by rw [throughoutOf_of_node? found, decomposable])
  rw [throughoutOf_of_node? there] at kept
  have computed : outcome (modelCount id literals memoize) t = countOutcome t.state id literals :=
    (modelCount_computes smooths.later smooths.laterInRange memoize small).outcome_eq
      (later.asked smooths.laterInRange)
  rw [computed, countOutcome_of_admissible there admissible, kept, smooths.throughout_smooth there]
  constructor
  · intro collapses
    rw [deterministic.mpr collapses]
    exact count_succeeds smooths.later smooths.laterInRange (within_size smooths.later id) (lt_of_node? there)
      admissible
  · intro spread
    rw [Bool.eq_false_iff.mpr fun flagged => spread (deterministic.mp flagged)]
    rfl

theorem implication_alive (child : NodeId) : implication.state.isFalse child = false := by
  have all : ∀ node ∈ implication.state.nodes.toList, node.isFalse = false := by decide +kernel
  cases found : implication.state.node? child with
  | none => simp [Circuit.isFalse, found]
  | some node =>
      have member := all node (Array.mem_toList_iff.mpr (Array.mem_of_getElem? found))
      simpa [Circuit.isFalse, found] using member

/-- The implication under other names stays deterministic and can be counted where its first variable is true. -/
theorem smooth_deterministic_implication
    : ∃ t, smooth implication = .ok () t
      ∧ (∃ new, t.state.node? 5 = some new ∧ new.throughout.deterministic = true)
      ∧ ∃ count, outcome (modelCount 5 [3] true) t = .ok count := by
  have shape : (implication.state.node? 5).map
      (fun node => (node.throughout.decomposable, node.throughout.deterministic)) = some (true, true) := by
    decide +kernel
  obtain ⟨node, found, same⟩ := Option.map_eq_some_iff.mp shape
  obtain ⟨t, ran, each⟩ := implication_reachable.smooth_deterministic implication_inRange
  obtain ⟨⟨new, there, kept⟩, counted⟩ := each found (congrArg Prod.snd same)
  have collapses : implication.state.Collapses t.state 5 := collapses_of_alive implication_alive
  exact ⟨t, ran, ⟨new, there, kept.mpr collapses⟩,
    (counted (congrArg Prod.fst same) [3] (by decide) (by decide) true).1 collapses⟩

/-- A run that makes the disjunction of a literal and the constant false. -/
def paddedRun : List Request := [.literal 1, .constant false, .disjunction [0, 1] none]

/-- The state after that run. -/
def padded : Journaled Circuit := (Request.performAll paddedRun { state := .empty }).get (by decide +kernel)

/-- Smoothing loses the determinism of the disjunction of a literal and the constant false, and so its only model is
counted no more.
-/
theorem smooth_loses_determinism
    : (padded.state.Reachable ∧ padded.state.InRange)
      ∧ (padded.state.node? 2).map (fun node => (node.throughout.decomposable, node.throughout.deterministic))
        = some (true, true)
      ∧ ∃ t, smooth padded = .ok () t
        ∧ (t.state.node? 2).map (fun node => (node.throughout.decomposable, node.throughout.deterministic))
          = some (true, false)
        ∧ outcome (modelCount 2 [] false) t = .error (.error (.notDeterministic 2)) := by
  have reachable : padded.state.Reachable := by
    refine @Reachable.performAll paddedRun { state := .empty } padded .empty ?_ (Option.some_get _).symm
    simp [paddedRun, Request.Small]
  have inRange : padded.state.InRange := by decide +kernel
  have shape : ((after smooth padded).state.node? 2).map
      (fun node => (node.throughout.decomposable, node.throughout.deterministic)) = some (true, false) := by
    decide +kernel
  obtain ⟨_, t, ran, smooths⟩ := smooth_yields reachable.consistent.upToDate inRange padded.journal
  have ran : smooth padded = .ok () t := ran
  rw [after, ran] at shape
  obtain ⟨node, found, same⟩ := Option.map_eq_some_iff.mp shape
  obtain ⟨decomposable, deterministic⟩ := Prod.mk.inj same
  have later : t.state.Reachable := @Reachable.done .smooth padded t reachable trivial ran
  have computed : outcome (modelCount 2 [] false) t = countOutcome t.state 2 [] :=
    (modelCount_computes smooths.later smooths.laterInRange false (by simp)).outcome_eq
      (later.asked smooths.laterInRange)
  refine ⟨⟨reachable, inRange⟩, by decide +kernel, t, ran, shape, ?_⟩
  rw [computed, countOutcome_of_admissible found (admissible_of_consistent (by simp) (by simp)),
    decomposable, deterministic]
  rfl

end Circuit

end KnowledgeCompiler
