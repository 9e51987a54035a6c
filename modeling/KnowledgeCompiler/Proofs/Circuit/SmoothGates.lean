import KnowledgeCompiler.Proofs.Circuit.SmoothRevision
import KnowledgeCompiler.Proofs.Circuit.Upkeep

/-! What smoothing makes of the gates of a circuit.

Nothing is asked of the circuit but that it is up to date and its numbers are in range. A disjunction that is not
smooth gets other children: each child that misses variables is replaced by the conjunction of its parts and of a
disjunction of two literals for each missing variable. All other gates stay, and the nodes that are new are literals,
such conjunctions and such disjunctions. Smoothing does not fail.
-/

namespace KnowledgeCompiler

open Relation
open KnowledgeCompiler.Build
open KnowledgeCompiler.Action (Yields discard_bind)

namespace Circuit

variable {c d e : Circuit} {id target child new : NodeId} {node : Node} {gate : Gate} {v : Var}
variable {targets more : List NodeId}

-----------------------------------------------------------------------------------------
-- Circuits that can be smoothed
-----------------------------------------------------------------------------------------

/-- A wired circuit whose nodes can be summarized and whose nodes have variables in range. -/
structure Smoothable (c : Circuit) : Prop extends c.Wired, c.Refreshable where
  bounded : ∀ {id v}, v ∈ c.varsOf id → 0 < v ∧ v < 2147483648

theorem UpToDate.smoothable (upToDate : c.UpToDate) (inRange : c.InRange) : c.Smoothable where
  toWired := upToDate.toWired
  inRange := inRange
  proper := (upToDate.refreshable inRange).proper
  bounded := upToDate.vars_bound inRange

/-- A new node over existing ones. -/
theorem Smoothable.append {summary : Summary} (smoothable : c.Smoothable)
    (present : ∀ child ∈ gate.children, child < c.nodes.size) (nodup : gate.children.Nodup) (range : gate.InRange)
    (evaluates : c.Evaluates gate summary)
    : (c.append gate summary).Smoothable := by
  have grown : c.Extends (c.append gate summary) := extends_append
  have last {id : NodeId} (found : id < (c.append gate summary).nodes.size) (old : ¬ id < c.nodes.size)
      : id = c.nodes.size :=
    (Nat.lt_succ_iff_lt_or_eq.mp (Nat.lt_of_lt_of_eq found size_append)).resolve_left old
  refine ⟨smoothable.toWired.append present nodup, fun {id key} found => ?_, fun {id l} inside => ?_,
    fun {id v} inside => ?_⟩
  · rcases gate?_append found with old | ⟨-, rfl⟩
    · exact smoothable.inRange old
    · exact range
  · by_cases old : id < c.nodes.size
    · exact smoothable.proper (grown.conjunctsOf old ▸ inside)
    · have here : id < (c.append gate summary).nodes.size := by
        cases found : (c.append gate summary).node? id with
        | none => simp [conjunctsOf, found] at inside
        | some node => exact lt_of_node? found
      rw [last here old, conjunctsOf_of_node? node?_append_new] at inside
      exact smoothable.proper_of_commits range (evaluates.conjuncts.mp inside)
  · by_cases old : id < c.nodes.size
    · exact smoothable.bounded (grown.varsOf old ▸ inside)
    · rw [last (lt_of_mem_varsOf inside) old, varsOf_of_node? node?_append_new] at inside
      exact mentions_bound range (fun _ _ _ => smoothable.bounded) (evaluates.vars.mp inside)

/-- Another gate of a node, which leads back to none of its children. -/
theorem Smoothable.rewire {new : Gate} (smoothable : c.Smoothable) (rewires : c.Rewires d target gate new)
    (wired : d.Wired) (range : new.InRange)
    : d.Smoothable where
  toWired := wired
  inRange := (smoothable.toRefreshable.rewire rewires wired.closed range).inRange
  proper := (smoothable.toRefreshable.rewire rewires wired.closed range).proper
  bounded {id v} inside := by
    obtain ⟨node, found⟩ := d.exists_node (lt_of_mem_varsOf inside)
    obtain ⟨old, before, _, summary, _⟩ := rewires.node? found
    rw [varsOf_of_node? found, Node.vars, summary, ← Node.vars, ← varsOf_of_node? before] at inside
    exact smoothable.bounded inside

-----------------------------------------------------------------------------------------
-- Disjunctions of two literals
-----------------------------------------------------------------------------------------

/-- A node leaves a variable free: it is the disjunction of the two literals of the variable. -/
def Frees (c : Circuit) (v : Var) (id : NodeId) : Prop :=
  ∃ positive negative children,
    c.gate? positive = some (.literal (v : Int))
    ∧ c.gate? negative = some (.literal (-(v : Int)))
    ∧ c.gate? id = some (.or none children)
    ∧ ∀ child, child ∈ children ↔ child = positive ∨ child = negative

theorem Frees.grow (frees : c.Frees v id) (grown : c.Extends d) : d.Frees v id := by
  obtain ⟨positive, negative, children, first, second, found, members⟩ := frees
  exact ⟨positive, negative, children, grown.gate? first, grown.gate? second, grown.gate? found, members⟩

theorem Frees.balanced (frees : c.Frees v id) : c.Balanced id := by
  obtain ⟨positive, negative, children, first, second, found, members⟩ := frees
  refine ⟨v, none, children, found, fun child member => ?_⟩
  rcases (members child).mp member with rfl | rfl
  · exact ⟨_, rfl, first⟩
  · exact ⟨_, Lit.var_neg _, second⟩

/-- What smoothing adds: literals, conjunctions, and disjunctions of literals of one variable. -/
def Auxiliary (c : Circuit) (id : NodeId) : Prop :=
  (∃ l, c.gate? id = some (.literal l)) ∨ (∃ children, c.gate? id = some (.and children)) ∨ c.Balanced id

theorem Auxiliary.grow (auxiliary : c.Auxiliary id) (grown : c.Extends d) : d.Auxiliary id := by
  rcases auxiliary with ⟨l, found⟩ | ⟨children, found⟩ | balanced
  · exact .inl ⟨l, grown.gate? found⟩
  · exact .inr (.inl ⟨children, grown.gate? found⟩)
  · exact .inr (.inr (balanced.grow grown))

/-- The second circuit is the first one with auxiliary nodes added. -/
structure Supplements (c d : Circuit) : Prop where
  extends_ : c.Extends d
  smoothable : d.Smoothable
  added : ∀ {id}, id < d.nodes.size → id < c.nodes.size ∨ d.Auxiliary id

theorem Supplements.refl (smoothable : c.Smoothable) : c.Supplements c := ⟨.refl c, smoothable, .inl⟩

theorem Supplements.trans (first : c.Supplements d) (second : d.Supplements e) : c.Supplements e where
  extends_ := first.extends_.trans second.extends_
  smoothable := second.smoothable
  added present := by
    rcases second.added present with middle | auxiliary
    · exact (first.added middle).imp_right (·.grow second.extends_)
    · exact .inr auxiliary

-----------------------------------------------------------------------------------------
-- Even children
-----------------------------------------------------------------------------------------

/-- The variables of a disjunction that a child misses. -/
def missing (c : Circuit) (target child : NodeId) : SortedSet Var := (c.varsOf target).diff (c.varsOf child)

theorem mem_missing : v ∈ c.missing target child ↔ v ∈ c.varsOf target ∧ ¬ v ∈ c.varsOf child :=
  SortedSet.mem_diff

/-- In the second circuit a node stands for a child that a disjunction has in the first one: the child itself, if it
misses nothing, or else the conjunction of its parts and of nodes that leave the missing variables free.
-/
inductive Completes (c d : Circuit) (target child : NodeId) : NodeId → Prop
  | unchanged (complete : ∀ v, ¬ v ∈ c.missing target child) : Completes c d target child child
  | conjoined {new : NodeId} {gate : Gate} {parts : List NodeId} {free : Var → NodeId}
    (found : c.gate? child = some gate) (conjunction : d.gate? new = some (.and parts))
    (lacking : ∃ v, v ∈ c.missing target child)
    (frees : ∀ v, v ∈ c.missing target child → d.Frees v (free v))
    (members : ∀ part, part ∈ parts
      ↔ part ∈ gate.conjoined child ∨ ∃ v, v ∈ c.missing target child ∧ free v = part)
    : Completes c d target child new

/-- Conjunctions and disjunctions of two literals are all that is asked of the second circuit. -/
theorem Completes.mono (completes : c.Completes d target child new)
    (conjunctions : ∀ {id children}, d.gate? id = some (.and children) → e.gate? id = some (.and children))
    (free : ∀ {v id}, d.Frees v id → e.Frees v id)
    : c.Completes e target child new := by
  cases completes with
  | unchanged complete => exact .unchanged complete
  | conjoined found conjunction lacking frees members =>
      exact .conjoined found (conjunctions conjunction) lacking (fun v missing => free (frees v missing)) members

theorem Completes.grow (completes : c.Completes d target child new) (grown : d.Extends e)
    : c.Completes e target child new :=
  completes.mono grown.gate? (·.grow grown)

/-- The first circuit may be an earlier one, in which the child has the same parts. -/
theorem Completes.before (completes : d.Completes e target child new)
    (targetVars : d.varsOf target = c.varsOf target) (childVars : d.varsOf child = c.varsOf child)
    (gates : ∀ gate, d.gate? child = some gate
      → ∃ old, c.gate? child = some old ∧ old.conjoined child = gate.conjoined child)
    : c.Completes e target child new := by
  have same : d.missing target child = c.missing target child := by rw [missing, missing, targetVars, childVars]
  cases completes with
  | unchanged complete => exact .unchanged (same ▸ complete)
  | conjoined found conjunction lacking frees members =>
      obtain ⟨old, before, parts⟩ := gates _ found
      rw [same] at lacking frees members
      rw [← parts] at members
      exact .conjoined before conjunction lacking frees members

/-- A disjunction that is not one of literals of one variable is not below what stands for its child. -/
theorem Completes.not_below (completes : c.Completes d target child new) (grown : c.Extends d) (closed : c.Closed)
    (wired : d.Wired) (unbalanced : c.Unbalanced target) (link : c.IsChild child target)
    : ¬ ReflTransGen d.IsChild target new := by
  have parent : target < c.nodes.size := by
    obtain ⟨decision, children, found⟩ := unbalanced.disjunction
    exact lt_of_gate? found
  have link : d.IsChild child target := (grown.isChild_iff parent).mpr link
  cases completes with
  | unchanged complete => exact wired.acyclic.not_below link
  | conjoined found conjunction lacking frees members =>
      refine (unbalanced.grow grown closed).not_below wired link (grown.gate? found) conjunction fun part listed => ?_
      refine ((members part).mp listed).imp_right ?_
      rintro ⟨v, missing, rfl⟩
      exact (frees v missing).balanced

theorem Completes.lt (completes : c.Completes d target child new) (present : child < d.nodes.size)
    : new < d.nodes.size := by
  cases completes with
  | unchanged complete => exact present
  | conjoined found conjunction lacking frees members => exact lt_of_gate? conjunction

/-- All gates stay but those of some disjunctions, none of which is one of literals of one variable. -/
structure Spares (c d : Circuit) (targets : List NodeId) : Prop where
  unbalanced : ∀ id ∈ targets, c.Unbalanced id
  others : ∀ {id gate}, c.gate? id = some gate → ¬ id ∈ targets → d.gate? id = some gate

namespace Spares

/-- Gates other than disjunctions stay. -/
theorem gate? (spares : c.Spares d targets) (found : c.gate? id = some gate) (other : gate.kind ≠ .or)
    : d.gate? id = some gate := by
  refine spares.others found fun member => ?_
  obtain ⟨decision, children, disjunction⟩ := (spares.unbalanced id member).disjunction
  rw [found] at disjunction
  exact other (congrArg Gate.kind (Option.some.inj disjunction))

theorem balanced (spares : c.Spares d targets) (balanced : c.Balanced id) : d.Balanced id := by
  have outside : ¬ id ∈ targets := fun member => (spares.unbalanced id member).unbalanced balanced
  obtain ⟨v, decision, children, found, literals⟩ := balanced
  refine ⟨v, decision, children, spares.others found outside, fun child member => ?_⟩
  obtain ⟨l, var, there⟩ := literals child member
  exact ⟨l, var, spares.gate? there (by simp [Gate.kind])⟩

theorem frees (spares : c.Spares d targets) (frees : c.Frees v id) : d.Frees v id := by
  have outside : ¬ id ∈ targets := fun member => (spares.unbalanced id member).unbalanced frees.balanced
  obtain ⟨positive, negative, children, first, second, found, members⟩ := frees
  exact ⟨positive, negative, children, spares.gate? first (by simp [Gate.kind]),
    spares.gate? second (by simp [Gate.kind]), spares.others found outside, members⟩

theorem auxiliary (spares : c.Spares d targets) (auxiliary : c.Auxiliary id) : d.Auxiliary id := by
  rcases auxiliary with ⟨l, found⟩ | ⟨children, found⟩ | balanced
  · exact .inl ⟨l, spares.gate? found (by simp [Gate.kind])⟩
  · exact .inr (.inl ⟨children, spares.gate? found (by simp [Gate.kind])⟩)
  · exact .inr (.inr (spares.balanced balanced))

theorem completes (spares : d.Spares e targets) (completes : c.Completes d target child new)
    : c.Completes e target child new :=
  completes.mono (spares.gate? · (by simp [Gate.kind])) spares.frees

end Spares

theorem Rewires.spares {new : Gate} (rewires : c.Rewires d target gate new) (unbalanced : c.Unbalanced target)
    : c.Spares d [target] where
  unbalanced := List.forall_mem_singleton.mpr unbalanced
  others found outside := by
    rw [rewires.other_gate? fun same => outside (List.mem_singleton.mpr same.symm), found]

/-- The second circuit is the first one after some disjunctions have got even children, and with auxiliary nodes
added.
-/
structure Evens (c d : Circuit) (targets : List NodeId) : Prop extends c.Spares d targets where
  evened
    : ∀ {id decision children},
        id ∈ targets
        → c.gate? id = some (.or decision children)
        → ∃ (ids : List NodeId) (newOf : NodeId → NodeId), d.gate? id = some (.or decision ids)
          ∧ (∀ new, new ∈ ids ↔ ∃ child ∈ children, newOf child = new)
          ∧ ∀ child ∈ children, c.Completes d id child (newOf child)
  added : ∀ {id}, id < d.nodes.size → id < c.nodes.size ∨ d.Auxiliary id

namespace Evens

theorem refl (c : Circuit) : c.Evens c [] where
  unbalanced := by simp
  others found _ := found
  evened member := by simp at member
  added := .inl

/-- A node keeps its kind, and a node that is no disjunction its gate. -/
theorem kept (evens : c.Evens d targets) (found : c.gate? id = some gate)
    : ∃ other, d.gate? id = some other ∧ other.kind = gate.kind ∧ other.conjoined id = gate.conjoined id := by
  by_cases member : id ∈ targets
  · obtain ⟨decision, children, disjunction⟩ := (evens.unbalanced id member).disjunction
    obtain rfl := Option.some.inj (found.symm.trans disjunction)
    obtain ⟨ids, _, there, _⟩ := evens.evened member found
    exact ⟨_, there, rfl, rfl⟩
  · exact ⟨gate, evens.others found member, rfl, rfl⟩

theorem lt (evens : c.Evens d targets) (present : id < c.nodes.size) : id < d.nodes.size := by
  obtain ⟨node, found⟩ := c.exists_node present
  obtain ⟨other, there, _⟩ := evens.kept (gate?_of_node? found)
  exact lt_of_gate? there

/-- Other disjunctions stay unbalanced. -/
theorem remaining (evens : c.Evens d targets) (closed : c.Closed) (unbalanced : c.Unbalanced id)
    (outside : ¬ id ∈ targets)
    : d.Unbalanced id := by
  obtain ⟨decision, children, found⟩ := unbalanced.disjunction
  refine unbalanced.congr (by rw [evens.others found outside, found]) fun child link l literal => ?_
  obtain ⟨gate, there, member⟩ := link
  obtain ⟨node, before⟩ := c.exists_node (closed there child member)
  have old := gate?_of_node? before
  obtain ⟨other, now, kind, _⟩ := evens.kept old
  obtain rfl := Option.some.inj (now.symm.trans literal)
  rw [evens.gate? old (by rw [← kind]; simp [Gate.kind])] at literal
  rw [old, literal]

/-- Other targets one after another. -/
theorem trans (first : c.Evens d targets) (second : d.Evens e more) (closed : c.Closed)
    (vars : ∀ {id}, id < c.nodes.size → d.varsOf id = c.varsOf id) (all : ∀ id ∈ more, c.Unbalanced id)
    (distinct : ∀ id ∈ more, ¬ id ∈ targets)
    : c.Evens e (targets ++ more) where
  unbalanced id member := (List.mem_append.mp member).elim (first.unbalanced id) (all id)
  others found outside := by
    rw [List.mem_append, not_or] at outside
    exact second.others (first.others found outside.1) outside.2
  evened {id decision children} member found := by
    rcases List.mem_append.mp member with inside | inside
    · obtain ⟨ids, newOf, there, members, completes⟩ := first.evened inside found
      have outside : ¬ id ∈ more := fun other => distinct id other inside
      refine ⟨ids, newOf, second.others there outside, members, fun child listed => ?_⟩
      exact second.completes (completes child listed)
    · obtain ⟨ids, newOf, there, members, completes⟩ :=
        second.evened inside (first.others found (distinct id inside))
      refine ⟨ids, newOf, there, members, fun child listed => ?_⟩
      have present := closed found child listed
      refine (completes child listed).before (vars (lt_of_gate? found)) (vars present) fun gate now => ?_
      obtain ⟨node, before⟩ := c.exists_node present
      obtain ⟨other, there, _, parts⟩ := first.kept (gate?_of_node? before)
      obtain rfl := Option.some.inj (there.symm.trans now)
      exact ⟨_, gate?_of_node? before, parts.symm⟩
  added present := by
    rcases second.added present with middle | auxiliary
    · exact (first.added middle).imp_right second.auxiliary
    · exact .inr auxiliary

/-- The same gates. -/
theorem congr (evens : c.Evens d targets) (same : d.SameWiring e) : c.Evens e targets where
  unbalanced := evens.unbalanced
  others found outside := (same.gate? _).trans (evens.others found outside)
  evened member found := by
    obtain ⟨ids, newOf, there, members, completes⟩ := evens.evened member found
    refine ⟨ids, newOf, (same.gate? _).trans there, members, fun child listed => ?_⟩
    refine (completes child listed).mono (fun found => (same.gate? _).trans found) fun frees => ?_
    simpa only [Frees, same.gate?] using frees
  added present := by
    rw [same.size] at present
    refine (evens.added present).imp_right fun auxiliary => ?_
    simpa only [Auxiliary, Balanced, same.gate?] using auxiliary

end Evens

/-- The disjunctions that are not smooth. -/
def rough (c : Circuit) : List NodeId :=
  (List.range c.nodes.size).filter fun id =>
    (c.node? id).elim false fun node => node.kind == .or && !node.summary.own.smooth

theorem mem_rough
    : id ∈ c.rough ↔ ∃ node, c.node? id = some node ∧ node.kind = .or ∧ node.summary.own.smooth = false := by
  rw [rough, List.mem_filter, List.mem_range]
  cases found : c.node? id with
  | none => simp
  | some node => simp [lt_of_node? found]

/-- The second circuit is what smoothing makes of the first one. -/
structure Smooths (c d : Circuit) : Prop extends c.Evens d c.rough where
  upToDate : c.UpToDate
  inRange : c.InRange
  later : d.UpToDate
  laterInRange : d.InRange

end Circuit

namespace Build

open Circuit

variable {c : Circuit} {gate : Gate} {target child : NodeId} {known : Gadgets} {v : Var}

-----------------------------------------------------------------------------------------
-- New nodes
-----------------------------------------------------------------------------------------

/-- A node of a gate over existing nodes, shared or new. -/
theorem insert_yields (smoothable : c.Smoothable) (present : ∀ child ∈ gate.children, child < c.nodes.size)
    (nodup : gate.children.Nodup) (range : gate.InRange)
    : Yields (insert gate) c fun id d =>
        c.Extends d ∧ d.Smoothable
        ∧ (∃ other, d.gate? id = some other ∧ other.signature? = gate.signature?)
        ∧ ∀ {other}, other < d.nodes.size → other < c.nodes.size ∨ d.gate? other = some gate := by
  refine Yields.current ?_
  cases shared : c.shared? gate with
  | some id => exact Yields.pure ⟨.refl c, smoothable, smoothable.toWired.gate?_of_shared shared, .inl⟩
  | none =>
      obtain ⟨summary, done, evaluates⟩ :=
        summarize_evaluates range present fun _ _ _ inside => smoothable.proper inside
      refine Yields.note (Yields.checked done (Yields.update (Yields.pure ?_)))
      have here := gate?_of_node? (@node?_append_new c gate summary)
      refine ⟨extends_append, smoothable.append present nodup range evaluates, ⟨gate, here, rfl⟩, fun there => ?_⟩
      rcases Nat.lt_succ_iff_lt_or_eq.mp (Nat.lt_of_lt_of_eq there size_append) with old | rfl
      · exact .inl old
      · exact .inr here

theorem literal_yields (smoothable : c.Smoothable) {l : Lit} (proper : l.Proper)
    : Yields (literal l) c fun id d => c.Supplements d ∧ d.gate? id = some (.literal l) := by
  unfold literal
  rw [if_neg proper.1]
  have inRange : (Gate.literal l).InRange := proper
  refine (insert_yields smoothable (by simp [Gate.children]) (by simp [Gate.children]) inRange).mono ?_
  rintro id d ⟨grown, smoothable', ⟨other, there, signed⟩, added⟩
  obtain rfl := Gate.eq_literal_of_signature? signed
  exact ⟨⟨grown, smoothable', fun present => (added present).imp_right fun found => .inl ⟨l, found⟩⟩, there⟩

/-- The nodes made so far leave their variables free. -/
def AllFree (c : Circuit) (known : Gadgets) : Prop := ∀ {v id}, known.lookup v = some id → c.Frees v id

theorem AllFree.grow {d : Circuit} (free : AllFree c known) (grown : c.Extends d) : AllFree d known :=
  fun found => (free found).grow grown

theorem gadget_yields (smoothable : c.Smoothable) (free : AllFree c known) (positive : 0 < v)
    (small : v < 2147483648)
    : Yields (gadget v known) c fun result d =>
        c.Supplements d ∧ AllFree d result.2 ∧ Keeps known result.2 ∧ result.2.lookup v = some result.1 := by
  unfold gadget
  cases seen : known.lookup v with
  | some id => exact Yields.pure ⟨.refl smoothable, free, fun found => found, seen⟩
  | none =>
      have proper : Lit.Proper (v : Int) := ⟨Int.natCast_ne_zero.mpr (Nat.ne_of_gt positive), small⟩
      rw [Lit.word_eq_self small]
      refine (literal_yields smoothable proper).bind fun p c₁ ⟨larger₁, first⟩ => ?_
      refine Yields.checked proper.negate ?_
      refine (literal_yields larger₁.smoothable proper.neg).bind fun n c₂ ⟨larger₂, second⟩ => ?_
      have first := larger₂.extends_.gate? first
      have present : ∀ child ∈ (Gate.or none (SortedSet.ofList [p, n]).toList).children, child < c₂.nodes.size := by
        simp [Gate.children, lt_of_gate? first, lt_of_gate? second]
      refine (insert_yields larger₂.smoothable present (SortedSet.nodup _) trivial).bind ?_
      rintro id d ⟨grown, smoothable', ⟨other, there, signed⟩, added⟩
      obtain ⟨children, rfl, same⟩ := Gate.eq_or_of_signature? signed
      have members : ∀ child, child ∈ (SortedSet.ofList [p, n]).toList ↔ child = p ∨ child = n := by simp
      have frees {id : NodeId} {children : List NodeId} (found : d.gate? id = some (.or none children))
          (same : ∀ child, child ∈ children ↔ child ∈ (SortedSet.ofList [p, n]).toList)
          : d.Frees v id :=
        ⟨p, n, children, grown.gate? first, grown.gate? second, found, fun child => (same child).trans (members child)⟩
      have last : c₂.Supplements d := ⟨grown, smoothable', fun present =>
        (added present).imp_right fun found => .inr (.inr (frees found fun _ => Iff.rfl).balanced)⟩
      have larger := (larger₁.trans larger₂).trans last
      refine Yields.pure ⟨larger, fun {u other} found => ?_, keeps_cons seen, by simp⟩
      rcases lookup_cons_cases found with ⟨rfl, rfl⟩ | before
      · exact frees there same
      · exact free.grow larger.extends_ before

theorem gadgets_yields {vars : List Var} (smoothable : c.Smoothable) (free : AllFree c known)
    (bounded : ∀ v ∈ vars, 0 < v ∧ v < 2147483648)
    : Yields (gadgets vars known) c fun result d =>
        c.Supplements d ∧ AllFree d result.2 ∧ Keeps known result.2
        ∧ (∀ v ∈ vars, ∃ id, result.2.lookup v = some id)
        ∧ ∀ {id}, id ∈ result.1 ↔ ∃ v ∈ vars, result.2.lookup v = some id := by
  refine (gadgets_of_each (fun c known => c.Smoothable ∧ AllFree c known) (fun holds => Supplements.refl holds.1)
    Supplements.trans (fun holds positive small => ?_) ⟨smoothable, free⟩ bounded).mono ?_
  · refine (gadget_yields holds.1 holds.2 positive small).mono ?_
    rintro _ d ⟨larger, free, rest⟩
    exact ⟨larger, ⟨larger.smoothable, free⟩, rest⟩
  · rintro _ d ⟨larger, ⟨_, free⟩, rest⟩
    exact ⟨larger, free, rest⟩

-----------------------------------------------------------------------------------------
-- Even children
-----------------------------------------------------------------------------------------

/-- What stands for a child of a disjunction. -/
theorem smoothChild_yields (smoothable : c.Smoothable) (free : AllFree c known) (present : child < c.nodes.size)
    : Yields (smoothChild (c.varsOf target) child known) c fun result d =>
        c.Supplements d ∧ AllFree d result.2 ∧ c.Completes d target child result.1 := by
  obtain ⟨node, found⟩ := c.exists_node present
  have here := gate?_of_node? found
  refine Yields.current ?_
  rw [found]
  dsimp only
  rw [← varsOf_of_node? found, ← missing]
  split
  · rename_i complete
    exact Yields.pure ⟨.refl smoothable, free, .unchanged (SortedSet.isEmpty_iff.mp complete)⟩
  · rename_i incomplete
    have lacking : ∃ v, v ∈ c.missing target child :=
      SortedSet.isEmpty_eq_false_iff.mp (Bool.eq_false_iff.mpr incomplete)
    have bounded : ∀ v ∈ (c.missing target child).toList, 0 < v ∧ v < 2147483648 := fun v inside =>
      smoothable.bounded (mem_missing.mp inside).1
    refine (gadgets_yields smoothable free bounded).bind ?_
    rintro ⟨ids, later⟩ d ⟨larger, free, -, every, gadgets⟩
    have members (part : NodeId) : part ∈ (SortedSet.ofList (node.gate.conjoined child ++ ids)).toList
        ↔ part ∈ node.gate.conjoined child ∨ part ∈ ids := by simp
    have parts : ∀ part ∈ (Gate.and (SortedSet.ofList (node.gate.conjoined child ++ ids)).toList).children,
        part < d.nodes.size := by
      intro part listed
      rcases (members part).mp listed with conjoined | gadget
      · exact larger.extends_.lt (Closed.lt_of_below smoothable.closed (below_of_conjoined here conjoined) present)
      · obtain ⟨v, _, known⟩ := gadgets.mp gadget
        exact (free known).balanced.lt
    refine (insert_yields larger.smoothable parts (SortedSet.nodup _) trivial).bind ?_
    rintro new e ⟨grown, smoothable', ⟨other, there, signed⟩, added⟩
    obtain ⟨children, rfl, same⟩ := Gate.eq_and_of_signature? signed
    refine Yields.pure ⟨larger.trans ⟨grown, smoothable', fun present => ?_⟩, free.grow grown, ?_⟩
    · exact (added present).imp_right fun found => .inr (.inl ⟨_, found⟩)
    -- each missing variable has its node among those known by now
    let supply : Var → NodeId := fun v => (later.lookup v).getD 0
    have supplied {v : Var} (inside : v ∈ c.missing target child) : later.lookup v = some (supply v) := by
      obtain ⟨id, known⟩ := every v inside
      simp [supply, known]
    refine .conjoined here there lacking (fun v inside => (free (supplied inside)).grow grown) fun part => ?_
    rw [same, members]
    refine or_congr_right (gadgets.trans (exists_congr fun v => and_congr_right fun inside => ?_))
    rw [supplied inside, Option.some.injEq]

/-- What stands for several children; induction on them. -/
theorem smoothChildren_yields {children : List NodeId} (smoothable : c.Smoothable) (free : AllFree c known)
    (targetPresent : target < c.nodes.size) (present : ∀ child ∈ children, child < c.nodes.size)
    (distinct : children.Nodup)
    : Yields (smoothChildren (c.varsOf target) children known) c fun result d =>
        c.Supplements d ∧ AllFree d result.2
        ∧ ∃ newOf : NodeId → NodeId, result.1 = children.map newOf
          ∧ ∀ child ∈ children, c.Completes d target child (newOf child) := by
  induction children generalizing c known with
  | nil => exact Yields.pure ⟨.refl smoothable, free, fun child => child, rfl, by simp⟩
  | cons child rest ih =>
      obtain ⟨fresh, distinct⟩ := List.nodup_cons.mp distinct
      obtain ⟨here, present⟩ := List.forall_mem_cons.mp present
      refine (@smoothChild_yields c target child known smoothable free here).bind ?_
      rintro ⟨first, middle⟩ d ⟨larger, free, completes⟩
      have grown := larger.extends_
      rw [← grown.varsOf targetPresent]
      refine (ih larger.smoothable free (grown.lt targetPresent) (fun other member => grown.lt (present other member))
        distinct).bind ?_
      rintro ⟨ids, last⟩ e ⟨larger', free, newOf, listed, each⟩
      obtain rfl : ids = rest.map newOf := listed
      have before : ∀ x ∈ rest, c.Completes e target x (newOf x) := fun x inside => by
        refine (each x inside).before (grown.varsOf targetPresent) (grown.varsOf (present x inside)) ?_
        exact fun gate found => ⟨gate, grown.gate?_eq (present x inside) ▸ found, rfl⟩
      exact Yields.pure ⟨larger.trans larger', free, exists_map_cons _ fresh (completes.grow larger'.extends_) before⟩

/-- A disjunction gets even children. -/
theorem smoothNode_yields (smoothable : c.Smoothable) (free : AllFree c known) (unbalanced : c.Unbalanced target)
    : Yields (smoothNode target known) c fun later d =>
        d.Smoothable ∧ AllFree d later ∧ c.Evens d [target]
        ∧ ∀ {id}, id < c.nodes.size → d.varsOf id = c.varsOf id := by
  obtain ⟨decision, children, disjunction⟩ := unbalanced.disjunction
  obtain ⟨node, found, shape⟩ := Option.map_eq_some_iff.mp disjunction
  have own : node.children = children := congrArg Gate.children shape
  have present := lt_of_node? found
  refine Yields.current ?_
  rw [found]
  dsimp only
  rw [own, ← varsOf_of_node? found]
  refine (smoothChildren_yields smoothable free present (smoothable.closed disjunction)
    (smoothable.nodup disjunction)).bind ?_
  rintro ⟨ids, later⟩ d ⟨larger, free, newOf, listed, each⟩
  obtain rfl : ids = children.map newOf := listed
  have grown := larger.extends_
  refine Yields.update (Yields.pure ?_)
  obtain ⟨here, there, same, _⟩ := grown.kept found
  have gate : here.gate = .or decision children := same.trans shape
  have relisted : (here.gate.withChildren (SortedSet.ofList (children.map newOf)).toList).children
      = (SortedSet.ofList (children.map newOf)).toList := by
    rw [gate]
    rfl
  have rewires := larger.smoothable.toWired.rewires_redirect there relisted
  dsimp only
  rw [← redirect_congr same]
  rw [gate] at rewires
  have members (new : NodeId) : new ∈ (SortedSet.ofList (children.map newOf)).toList
      ↔ ∃ child ∈ children, newOf child = new := by simp
  have wired := larger.smoothable.toWired.rewire rewires (fun new member => ?_) (SortedSet.nodup _)
    (fun new member => ?_)
  rotate_left
  · obtain ⟨child, listed, rfl⟩ := (members new).mp member
    exact (each child listed).lt (grown.lt (smoothable.closed disjunction child listed))
  · obtain ⟨child, listed, rfl⟩ := (members new).mp member
    exact (each child listed).not_below grown smoothable.closed larger.smoothable.toWired unbalanced
      ⟨_, disjunction, listed⟩
  have spares := rewires.spares (unbalanced.grow grown smoothable.closed)
  refine ⟨larger.smoothable.rewire rewires wired trivial, fun known => spares.frees (free known), ?_, fun old => ?_⟩
  · refine ⟨⟨List.forall_mem_singleton.mpr unbalanced, fun found outside => ?_⟩,
      fun {id other others} member before => ?_, fun present => ?_⟩
    · exact spares.others (grown.gate? found) outside
    · obtain rfl := List.mem_singleton.mp member
      obtain ⟨rfl, rfl⟩ : decision = other ∧ children = others := by simpa [disjunction] using before
      exact ⟨_, newOf, rewires.target_gate?, members, fun child listed => spares.completes (each child listed)⟩
    · rw [rewires.size] at present
      exact (larger.added present).imp_right spares.auxiliary
  · obtain ⟨node, found⟩ := d.exists_node (grown.lt old)
    obtain ⟨other, there, _, summary, _⟩ := rewires.kept found
    rw [varsOf_of_node? there, Node.vars, summary, ← Node.vars, ← varsOf_of_node? found, grown.varsOf old]

/-- Induction on the targets. -/
theorem smoothNodes_yields {targets : List NodeId} (smoothable : c.Smoothable) (free : AllFree c known)
    (all : ∀ id ∈ targets, c.Unbalanced id) (distinct : targets.Nodup)
    : Yields (targets.foldlM (fun known id => smoothNode id known) known) c fun _ d =>
        d.Smoothable ∧ c.Evens d targets ∧ ∀ {id}, id < c.nodes.size → d.varsOf id = c.varsOf id := by
  induction targets generalizing c known with
  | nil => exact Yields.pure ⟨smoothable, .refl c, fun _ => rfl⟩
  | cons target rest ih =>
      obtain ⟨here, later⟩ := List.forall_mem_cons.mp all
      obtain ⟨fresh, distinct⟩ := List.nodup_cons.mp distinct
      have apart : ∀ id ∈ rest, ¬ id ∈ [target] := fun id member same => fresh (List.mem_singleton.mp same ▸ member)
      rw [List.foldlM_cons]
      refine (smoothNode_yields smoothable free here).bind ?_
      rintro known d ⟨smoothable', free, evens, vars⟩
      refine (ih smoothable' free (fun id member =>
        evens.remaining smoothable.closed (later id member) (apart id member)) distinct).mono ?_
      rintro - e ⟨smoothable'', evens', vars'⟩
      exact ⟨smoothable'', evens.trans evens' smoothable.closed vars later apart, fun present =>
        (vars' (evens.lt present)).trans (vars present)⟩

/-- Smoothing succeeds, and only the disjunctions that are not smooth get other children. -/
theorem smooth_yields (upToDate : c.UpToDate) (inRange : c.InRange) : Yields smooth c fun _ d => c.Smooths d := by
  have smoothable := upToDate.smoothable inRange
  refine Yields.current ?_
  dsimp only
  rw [← rough]
  split
  · rename_i none_
    refine Yields.pure ⟨?_, upToDate, inRange, upToDate, inRange⟩
    rw [List.isEmpty_iff.mp none_]
    exact .refl c
  · have all : ∀ id ∈ c.rough, c.Unbalanced id := fun id member => by
      obtain ⟨node, found, disjunction, uneven⟩ := mem_rough.mp member
      exact upToDate.unbalanced found disjunction uneven
    have distinct : c.rough.Nodup := List.nodup_range.filter _
    refine Yields.note ?_
    rw [discard_bind]
    refine (smoothNodes_yields smoothable (by simp [AllFree]) all distinct).bind ?_
    rintro - d ⟨smoothable', evens, -⟩
    have succeeds : Yields refreshCircuit d fun _ _ => True :=
      Yields.current ((refreshAll_yields smoothable'.toRefreshable).bind fun _ _ _ => Yields.updated trivial)
    refine ((refreshCircuit_ensures smoothable'.toWired).yields succeeds).mono ?_
    rintro - e ⟨-, refreshed, -⟩
    exact {
      toEvens := evens.congr refreshed.wiring
      upToDate := upToDate
      inRange := inRange
      later := refreshed.upToDate smoothable'.toWired
      laterInRange := fun {id _} found => smoothable'.inRange (refreshed.wiring.gate? id ▸ found)
    }

/-- Smoothing does nothing to a circuit without rough disjunctions. -/
theorem smooth_of_even {s : Journaled Circuit} (even : s.state.rough = []) : smooth s = .ok () s := by
  have none_ : s.state.rough.isEmpty = true := List.isEmpty_iff.mpr even
  show (if s.state.rough.isEmpty then pure () else _ : Build Unit) s = _
  rw [if_pos none_]
  rfl

end Build

end KnowledgeCompiler
