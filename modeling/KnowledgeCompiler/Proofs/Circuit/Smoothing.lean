import KnowledgeCompiler.Proofs.Circuit.Redirection

/-! Smoothing: the children of every disjunction get the same variables.

A child that misses variables is conjoined with a tautology over each of them. That changes neither what
the child means nor its conjuncts, so the disjunction may have the conjunction instead of the child. When
all disjunctions are even, the derived data are refreshed.
-/

namespace KnowledgeCompiler

namespace Circuit

open Relation

variable {c d e : Circuit} {id target : NodeId} {gate : Gate}

-----------------------------------------------------------------------------------------
-- Tautologies
-----------------------------------------------------------------------------------------

/-- A node is the disjunction of the two literals of a variable. -/
def Tautology (c : Circuit) (v : Var) (id : NodeId) : Prop :=
  ∃ positive negative,
    c.gate? positive = some (.literal (v : Int))
    ∧ c.gate? negative = some (.literal (-(v : Int)))
    ∧ c.gate? id = some (.or none (SortedSet.ofList [positive, negative]).toList)

namespace Tautology

variable {v : Var}

theorem satisfies (tautology : c.Tautology v id) (nonzero : 0 < v) (σ : Assignment)
    : c.Satisfies σ id := by
  obtain ⟨p, n, positive, negative, found⟩ := tautology
  cases value : σ v with
  | true =>
      refine .or found (by simp : p ∈ _) (.literal positive ?_)
      exact (Lit.trueIn_ofNat nonzero).mpr value
  | false =>
      refine .or found (by simp : n ∈ _) (.literal negative ?_)
      exact (Lit.trueIn_neg_ofNat nonzero).mpr value

/-- The children are the two literals. -/
theorem child {child : NodeId} (tautology : c.Tautology v id) (link : c.IsChild child id)
    : ∃ l : Lit, l.var = v ∧ c.gate? child = some (.literal l) := by
  obtain ⟨p, n, positive, negative, found⟩ := tautology
  rw [isChild_iff found] at link
  simp only [Gate.children, SortedSet.mem_toList, SortedSet.mem_ofList, List.mem_cons, List.not_mem_nil,
    or_false] at link
  rcases link with rfl | rfl
  · exact ⟨_, rfl, positive⟩
  · exact ⟨_, Lit.var_neg _, negative⟩

theorem mem_varsOf (tautology : c.Tautology v id) (coherent : c.Coherent) {w : Var}
    : w ∈ c.varsOf id ↔ w = v := by
  obtain ⟨p, n, positive, negative, found⟩ := tautology
  have var : Lit.var (v : Int) = v := rfl
  rw [coherent.mem_varsOf found]
  simp [Mentions, coherent.mem_varsOf positive, coherent.mem_varsOf negative, var]

theorem not_forced (tautology : c.Tautology v id) (coherent : c.Coherent) (nonzero : 0 < v) {l : Lit}
    : ¬ l ∈ c.conjunctsOf id := by
  obtain ⟨p, n, positive, negative, found⟩ := tautology
  rw [coherent.mem_conjunctsOf found]
  intro forced
  have first := (coherent.mem_conjunctsOf positive).mp (forced.2 p (by simp))
  have second := (coherent.mem_conjunctsOf negative).mp (forced.2 n (by simp))
  simp only [Forces] at first second
  grind

/-- What is below a tautology is itself or a literal. -/
theorem below {other : NodeId} (tautology : c.Tautology v id)
    (path : ReflTransGen c.IsChild other id)
    : other = id ∨ ∃ l : Lit, c.gate? other = some (.literal l) := by
  rcases path.cases_tail with rfl | ⟨child, first, link⟩
  · exact .inl rfl
  · obtain ⟨l, _, found⟩ := tautology.child link
    refine .inr ⟨l, ?_⟩
    rcases first.cases_tail with rfl | ⟨lower, _, ⟨gate, there, member⟩⟩
    · exact found
    · obtain rfl := Option.some.inj (found.symm.trans there)
      exact absurd member (by simp [Gate.children])

theorem even (tautology : c.Tautology v id) (coherent : c.Coherent) (found : c.gate? id = some gate)
    : c.Even gate := by
  have vars : ∀ {child}, c.IsChild child id → c.varsOf child = SortedSet.singleton v := by
    intro child link
    obtain ⟨l, rfl, literal⟩ := tautology.child link
    refine SortedSet.ext_mem (fun w => ?_)
    rw [coherent.mem_varsOf literal]
    simp [Mentions]
  obtain ⟨p, n, _, _, disjunction⟩ := tautology
  obtain rfl := Option.some.inj (disjunction.symm.trans found)
  intro a left b right
  rw [vars ⟨_, found, left⟩, vars ⟨_, found, right⟩]

theorem grow (tautology : c.Tautology v id) (grown : c.Extends d) : d.Tautology v id := by
  obtain ⟨p, n, positive, negative, found⟩ := tautology
  exact ⟨p, n, grown.gate? positive, grown.gate? negative, grown.gate? found⟩

end Tautology

/-- A coherent circuit grows by even nodes. -/
structure Grown (c d : Circuit) : Prop where
  extends_ : c.Extends d
  coherent : d.Coherent
  even : ∀ {id gate}, d.gate? id = some gate → c.gate? id = some gate ∨ d.Even gate

theorem Grown.refl (coherent : c.Coherent) : c.Grown c := ⟨.refl c, coherent, .inl⟩

theorem Grown.trans (first : c.Grown d) (second : d.Grown e) : c.Grown e where
  extends_ := first.extends_.trans second.extends_
  coherent := second.coherent
  even found := by
    rcases second.even found with middle | even
    · refine (first.even middle).imp_right fun even => ?_
      exact (second.extends_.retains.even_iff (first.coherent.closed middle)).mpr even
    · exact .inr even

/-- A path within the old nodes is an old path. -/
theorem Extends.below (grown : c.Extends d) (closed : c.Closed) {other : NodeId}
    (path : ReflTransGen d.IsChild other id) (present : id < c.nodes.size)
    : ReflTransGen c.IsChild other id := by
  induction path with
  | refl => exact .refl
  | tail _ link ih =>
      rw [grown.isChild_iff present] at link
      obtain ⟨gate, found, member⟩ := link
      exact (ih (closed found _ member)).tail ⟨gate, found, member⟩

theorem Padded.grow {child new : NodeId} (padded : c.Padded target child new) (grown : c.Extends d)
    (closed : c.Closed) (targetPresent : target < c.nodes.size) (present : child < c.nodes.size)
    : d.Padded target child new where
  present := grown.lt padded.present
  satisfies σ := by
    rw [grown.satisfies_iff closed padded.present, grown.satisfies_iff closed present]
    exact padded.satisfies σ
  vars := by rw [grown.varsOf padded.present, grown.varsOf targetPresent, padded.vars]
  conjuncts := by rw [grown.conjunctsOf padded.present, grown.conjunctsOf present, padded.conjuncts]
  open_ := by rw [grown.isFalse padded.present, padded.open_]
  apart path := padded.apart (grown.below closed path padded.present)

/-- A node is the conjunction of the nodes that are conjoined in it. -/
theorem Coherent.conjoined (coherent : c.Coherent) (found : c.gate? id = some gate)
    : (∀ part ∈ gate.conjoined id, part < c.nodes.size ∧ ReflTransGen c.IsChild part id)
      ∧ (∀ a ∈ gate.conjoined id, ∀ b ∈ gate.conjoined id, a ≠ b → c.Apart a b)
      ∧ (∀ σ, c.Satisfies σ id ↔ ∀ part ∈ gate.conjoined id, c.Satisfies σ part)
      ∧ (∀ v, v ∈ c.varsOf id ↔ ∃ part ∈ gate.conjoined id, v ∈ c.varsOf part)
      ∧ ∀ l, l ∈ c.conjunctsOf id ↔ ∃ part ∈ gate.conjoined id, l ∈ c.conjunctsOf part := by
  unfold Gate.conjoined
  split
  · refine ⟨fun part member => ⟨coherent.closed found part member, .single ⟨_, found, member⟩⟩, ?_,
      fun σ => satisfies_iff found, fun v => coherent.mem_varsOf found,
      fun l => coherent.mem_conjunctsOf found⟩
    have apart := List.Pairwise.forall (coherent.admits found)
    exact fun a left b right differ => apart left right differ
  · simp only [List.mem_singleton, forall_eq, exists_eq_left, implies_true, and_true]
    exact ⟨⟨lt_of_gate? found, .refl⟩, fun differ => absurd rfl differ⟩

end Circuit

namespace Build

open KnowledgeCompiler.Action
open Relation

variable {c d : Circuit} {id target : NodeId} {known : Gadgets} {v : Var}

/-- The tautologies made so far are tautologies. -/
def Tautologies (c : Circuit) (known : Gadgets) : Prop :=
  ∀ {v id}, known.lookup v = some id → 0 < v ∧ c.Tautology v id

theorem Tautologies.grow (tautologies : Tautologies c known) (grown : c.Extends d)
    : Tautologies d known := by
  intro v id found
  obtain ⟨nonzero, tautology⟩ := tautologies found
  exact ⟨nonzero, tautology.grow grown⟩

/-- No tautology is forgotten. -/
def Keeps (known later : Gadgets) : Prop :=
  ∀ {v id}, known.lookup v = some id → later.lookup v = some id

/-- Only a variable without a node gets one. -/
theorem keeps_cons (unseen : known.lookup v = none) : Keeps known ((v, id) :: known) := by
  intro u other found
  have differ : (u == v) = false := by
    rw [beq_eq_false_iff_ne]
    rintro rfl
    rw [unseen] at found
    cases found
  rw [List.lookup_cons, differ]
  exact found

theorem lookup_cons_cases {u : Var} {other : NodeId} (found : ((v, id) :: known).lookup u = some other)
    : u = v ∧ other = id ∨ known.lookup u = some other := by
  rw [List.lookup_cons] at found
  split at found
  · rename_i same
    exact .inl ⟨by simpa using same, (Option.some.inj found).symm⟩
  · exact .inr found

/-- What every step of the loop over some variables keeps is kept by the loop, and all of them have a node afterwards;
induction on the variables.
-/
theorem gadgets_of_each (inv : Circuit → Gadgets → Prop) {larger : Circuit → Circuit → Prop} {vars : List Var}
    (refl : ∀ {c known}, inv c known → larger c c)
    (trans : ∀ {c d e}, larger c d → larger d e → larger c e)
    (each : ∀ {c known v}, inv c known → 0 < v → v < 2147483648
      → Yields (gadget v known) c fun result d =>
          larger c d ∧ inv d result.2 ∧ Keeps known result.2 ∧ result.2.lookup v = some result.1)
    (holds : inv c known) (bounded : ∀ v ∈ vars, 0 < v ∧ v < 2147483648)
    : Yields (gadgets vars known) c fun result d =>
        larger c d ∧ inv d result.2 ∧ Keeps known result.2
        ∧ (∀ v ∈ vars, ∃ id, result.2.lookup v = some id)
        ∧ ∀ {id}, id ∈ result.1 ↔ ∃ v ∈ vars, result.2.lookup v = some id := by
  induction vars generalizing c known with
  | nil => exact Yields.pure ⟨refl holds, holds, fun found => found, by simp, by simp⟩
  | cons v rest ih =>
      obtain ⟨here, later⟩ := List.forall_mem_cons.mp bounded
      refine (each holds here.1 here.2).bind ?_
      rintro ⟨first, middle⟩ d ⟨grown, holds, keeps, added⟩
      refine (ih holds later).bind ?_
      rintro ⟨ids, last⟩ e ⟨grown', holds, keeps', every, members⟩
      refine Yields.pure ⟨trans grown grown', holds, fun found => keeps' (keeps found),
        List.forall_mem_cons.mpr ⟨⟨first, keeps' added⟩, every⟩, fun {id} => ?_⟩
      rw [List.mem_cons, members, List.exists_mem_cons_iff, keeps' added]
      simp [eq_comm]

/-- A new node with an even gate. -/
theorem insert_grown {gate : Gate} (coherent : c.Coherent)
    (present : ∀ child ∈ gate.children, child < c.nodes.size)
    (ascending : gate.children.Pairwise (· < ·)) (admits : c.Admits gate) (even : c.Even gate)
    : Yields (insert gate) c fun id d => c.Grown d ∧ d.gate? id = some gate := by
  refine (insert_coherent coherent present ascending admits).mono (fun id d result => ?_)
  obtain ⟨grown, coherent', _, found, others⟩ := result
  refine ⟨⟨grown, coherent', fun {other key} there => ?_⟩, found⟩
  refine (others other key there).imp_right fun same => ?_
  subst same
  exact (grown.retains.even_iff present).mpr even

theorem literal_grown (coherent : c.Coherent) {l : Lit} (proper : l.Proper)
    : Yields (literal l) c fun id d => c.Grown d ∧ d.gate? id = some (.literal l) := by
  unfold literal
  rw [if_neg proper.1]
  exact insert_grown coherent (by simp [Gate.children]) (by simp [Gate.children]) proper trivial

/-- The tautology over a variable. -/
theorem gadget_spec (coherent : c.Coherent) (tautologies : Tautologies c known) (nonzero : 0 < v)
    (small : v < 2147483648)
    : Yields (gadget v known) c fun result d =>
        c.Grown d ∧ Tautologies d result.2 ∧ Keeps known result.2
        ∧ result.2.lookup v = some result.1 := by
  unfold gadget
  cases seen : known.lookup v with
  | some id => exact Yields.pure ⟨.refl coherent, tautologies, fun found => found, seen⟩
  | none =>
      have proper : Lit.Proper (v : Int) := ⟨by grind, by simpa [Lit.var] using small⟩
      rw [Lit.word_eq_self small]
      refine Yields.bind (literal_grown coherent proper) (fun p c₁ result => ?_)
      obtain ⟨grown₁, positive⟩ := result
      refine Yields.checked proper.negate ?_
      refine Yields.bind (literal_grown grown₁.coherent proper.neg) (fun n c₂ result => ?_)
      obtain ⟨grown₂, negative⟩ := result
      have coherent₂ := grown₂.coherent
      have positive := grown₂.extends_.gate? positive
      have members : ∀ {child}, child ∈ (SortedSet.ofList [p, n]).toList
          ↔ child = p ∨ child = n := by simp
      have present : ∀ child ∈ (Gate.or none (SortedSet.ofList [p, n]).toList).children,
          child < c₂.nodes.size := by
        intro child member
        rcases members.mp member with rfl | rfl
        · exact Circuit.lt_of_gate? positive
        · exact Circuit.lt_of_gate? negative
      have contradict : c₂.Contradict p n :=
        ⟨v, (coherent₂.mem_conjunctsOf positive).mpr rfl, (coherent₂.mem_conjunctsOf negative).mpr rfl⟩
      have vars : ∀ {child}, child ∈ (SortedSet.ofList [p, n]).toList
          → ∀ w, w ∈ c₂.varsOf child ↔ w = v := by
        intro child member w
        have var : Lit.var (v : Int) = v := rfl
        rcases members.mp member with rfl | rfl
        · rw [coherent₂.mem_varsOf positive]
          exact Iff.rfl
        · rw [coherent₂.mem_varsOf negative, Circuit.Mentions, Lit.var_neg, var]
      have admits : c₂.Admits (.or none (SortedSet.ofList [p, n]).toList) := by
        refine ⟨?_, fun child member => ?_, List.ne_nil_of_mem (members.mpr (.inl rfl)), by simp⟩
        · exact (SortedSet.ofList [p, n]).nodup.pairwise_of_forall_ne
            (Circuit.forall_pair contradict fun _ => members.mp)
        · rcases members.mp member with rfl | rfl
          · exact Circuit.isFalse_of_gate? positive (by simp)
          · exact Circuit.isFalse_of_gate? negative (by simp)
      have even : c₂.Even (.or none (SortedSet.ofList [p, n]).toList) := by
        intro a left b right
        refine SortedSet.ext_mem (fun w => ?_)
        rw [vars left, vars right]
      refine Yields.bind (insert_grown coherent₂ present (SortedSet.ofList [p, n]).ascending admits even)
        (fun id d result => Yields.pure ?_)
      obtain ⟨grown₃, found⟩ := result
      have grown := (grown₁.trans grown₂).trans grown₃
      refine ⟨grown, fun {u other} there => ?_, keeps_cons seen, by simp⟩
      rcases lookup_cons_cases there with ⟨rfl, rfl⟩ | before
      · exact ⟨nonzero, p, n, grown₃.extends_.gate? positive, grown₃.extends_.gate? negative, found⟩
      · exact tautologies.grow grown.extends_ before

/-- The tautologies over several variables. -/
theorem gadgets_spec {vars : List Var} (coherent : c.Coherent) (tautologies : Tautologies c known)
    (bound : ∀ v ∈ vars, 0 < v ∧ v < 2147483648)
    : Yields (gadgets vars known) c fun result d =>
        c.Grown d ∧ Tautologies d result.2 ∧ Keeps known result.2
        ∧ (∀ v ∈ vars, ∃ id, result.2.lookup v = some id)
        ∧ ∀ {id}, id ∈ result.1 ↔ ∃ v ∈ vars, result.2.lookup v = some id := by
  refine (gadgets_of_each (fun c known => c.Coherent ∧ Tautologies c known) (fun holds => Circuit.Grown.refl holds.1)
    Circuit.Grown.trans (fun holds nonzero small => ?_) ⟨coherent, tautologies⟩ bound).mono ?_
  · refine (gadget_spec holds.1 holds.2 nonzero small).mono ?_
    rintro _ d ⟨grown, tautologies, rest⟩
    exact ⟨grown, ⟨grown.coherent, tautologies⟩, rest⟩
  · rintro _ d ⟨grown, ⟨_, tautologies⟩, rest⟩
    exact ⟨grown, tautologies, rest⟩

/-- Tautologies over the variables that a child misses, one over each. -/
structure Fills (c : Circuit) (target child : NodeId) (ids : List NodeId) : Prop where
  tautology : ∀ {id}, id ∈ ids
    → ∃ v, v ∈ c.varsOf target ∧ ¬ v ∈ c.varsOf child ∧ 0 < v ∧ c.Tautology v id
  apart : ∀ {a b}, a ∈ ids → b ∈ ids → a ≠ b → c.Apart a b
  every : ∀ {v}, v ∈ c.varsOf target → ¬ v ∈ c.varsOf child → ∃ id ∈ ids, c.Tautology v id

/-- The tautologies that were made for the missing variables. -/
theorem Tautologies.fills {child : NodeId} {ids : List NodeId} (coherent : c.Coherent)
    (tautologies : Tautologies c known)
    (every : ∀ v, v ∈ (c.varsOf target).diff (c.varsOf child) → ∃ id, known.lookup v = some id)
    (members : ∀ {id}, id ∈ ids
      ↔ ∃ v, v ∈ (c.varsOf target).diff (c.varsOf child) ∧ known.lookup v = some id)
    : Fills c target child ids where
  tautology gadget := by
    obtain ⟨v, missing, found⟩ := members.mp gadget
    obtain ⟨needed, absent⟩ := SortedSet.mem_diff.mp missing
    exact ⟨v, needed, absent, tautologies found⟩
  apart := by
    intro a b left right differ v first second
    obtain ⟨u, _, found⟩ := members.mp left
    obtain ⟨w, _, found'⟩ := members.mp right
    obtain rfl := ((tautologies found).2.mem_varsOf coherent).mp first
    obtain rfl := ((tautologies found').2.mem_varsOf coherent).mp second
    exact differ (Option.some.inj (found.symm.trans found'))
  every needed absent := by
    have missing := SortedSet.mem_diff.mpr ⟨needed, absent⟩
    obtain ⟨id, found⟩ := every _ missing
    exact ⟨id, members.mpr ⟨_, missing, found⟩, (tautologies found).2⟩

section Padding

variable {decision : Option Var} {children ids : List NodeId} {child new : NodeId} {gate : Gate}

/-- The conjunction of a child and the nodes that fill it up. -/
def filledUp (gate : Gate) (child : NodeId) (ids : List NodeId) : Gate :=
  .and (SortedSet.ofList (gate.conjoined child ++ ids)).toList

theorem mem_filledUp
    : id ∈ (filledUp gate child ids).children ↔ id ∈ gate.conjoined child ∨ id ∈ ids := by
  simp [filledUp, Gate.children]

namespace Fills

theorem present (fills : Fills c target child ids) (coherent : c.Coherent) (found : c.gate? child = some gate)
    : ∀ id ∈ (filledUp gate child ids).children, id < c.nodes.size := by
  intro id inside
  rcases mem_filledUp.mp inside with part | gadget
  · exact (coherent.conjoined found).1 id part |>.1
  · obtain ⟨v, _, _, _, p, n, _, _, there⟩ := fills.tautology gadget
    exact Circuit.lt_of_gate? there

/-- The variable of a tautology is missing in the child, and so in each part of it. -/
theorem mixed (fills : Fills c target child ids) (coherent : c.Coherent) (found : c.gate? child = some gate)
    {a b : NodeId} (part : a ∈ gate.conjoined child) (gadget : b ∈ ids) : c.Apart a b := by
  intro v first second
  obtain ⟨w, _, missing, _, tautology⟩ := fills.tautology gadget
  obtain rfl := (tautology.mem_varsOf coherent).mp second
  obtain ⟨_, _, _, vars, _⟩ := coherent.conjoined found
  exact missing ((vars v).mpr ⟨a, part, first⟩)

theorem admits (fills : Fills c target child ids) (coherent : c.Coherent) (found : c.gate? child = some gate)
    : c.Admits (filledUp gate child ids) := by
  refine (SortedSet.ofList _).nodup.pairwise_of_forall_ne fun a left b right differ => ?_
  rcases mem_filledUp.mp left with part | gadget
  · rcases mem_filledUp.mp right with part' | gadget'
    · exact (coherent.conjoined found).2.1 a part b part' differ
    · exact fills.mixed coherent found part gadget'
  · rcases mem_filledUp.mp right with part' | gadget'
    · exact symm (fills.mixed coherent found part' gadget)
    · exact fills.apart gadget gadget' differ

/-- The tautologies hold in every assignment. -/
theorem satisfies (fills : Fills c target child ids) (coherent : c.Coherent) (found : c.gate? child = some gate)
    (σ : Assignment)
    : (∀ id ∈ (filledUp gate child ids).children, c.Satisfies σ id) ↔ c.Satisfies σ child := by
  obtain ⟨_, _, satisfies, _, _⟩ := coherent.conjoined found
  rw [satisfies]
  constructor
  · exact fun all part inside => all part (mem_filledUp.mpr (.inl inside))
  · intro all id inside
    rcases mem_filledUp.mp inside with part | gadget
    · exact all id part
    · obtain ⟨v, _, _, nonzero, tautology⟩ := fills.tautology gadget
      exact tautology.satisfies nonzero σ

/-- The variables that the child misses are the ones of the tautologies. -/
theorem mentions (fills : Fills c target child ids) (coherent : c.Coherent)
    (disjunction : c.gate? target = some (.or decision children)) (member : child ∈ children)
    (found : c.gate? child = some gate) {v : Var}
    : c.Mentions v (filledUp gate child ids) ↔ v ∈ c.varsOf target := by
  obtain ⟨_, _, _, vars, _⟩ := coherent.conjoined found
  constructor
  · rintro ⟨id, inside, there⟩
    rcases mem_filledUp.mp inside with part | gadget
    · rw [coherent.mem_varsOf disjunction]
      exact ⟨child, member, (vars v).mpr ⟨id, part, there⟩⟩
    · obtain ⟨w, needed, _, _, tautology⟩ := fills.tautology gadget
      obtain rfl := (tautology.mem_varsOf coherent).mp there
      exact needed
  · intro needed
    by_cases there : v ∈ c.varsOf child
    · obtain ⟨part, inside, there⟩ := (vars v).mp there
      exact ⟨part, mem_filledUp.mpr (.inl inside), there⟩
    · obtain ⟨id, gadget, tautology⟩ := fills.every needed there
      exact ⟨id, mem_filledUp.mpr (.inr gadget), (tautology.mem_varsOf coherent).mpr rfl⟩

/-- No literal holds in every model of a tautology. -/
theorem forces (fills : Fills c target child ids) (coherent : c.Coherent) (found : c.gate? child = some gate)
    {l : Lit} : c.Forces l (filledUp gate child ids) ↔ l ∈ c.conjunctsOf child := by
  obtain ⟨_, _, _, _, conjuncts⟩ := coherent.conjoined found
  rw [conjuncts]
  constructor
  · rintro ⟨id, inside, there⟩
    rcases mem_filledUp.mp inside with part | gadget
    · exact ⟨id, part, there⟩
    · obtain ⟨w, _, _, nonzero, tautology⟩ := fills.tautology gadget
      exact absurd there (tautology.not_forced coherent nonzero)
  · rintro ⟨part, inside, there⟩
    exact ⟨part, mem_filledUp.mpr (.inl inside), there⟩

/-- The disjunction is not below what fills its child up: it is no tautology, as its children are not even. -/
theorem not_below (fills : Fills c target child ids) (coherent : c.Coherent)
    (disjunction : c.gate? target = some (.or decision children)) (member : child ∈ children)
    (found : c.gate? child = some gate)
    (lacking : ∃ v, v ∈ (c.varsOf target).diff (c.varsOf child))
    : ∀ id ∈ (filledUp gate child ids).children, ¬ ReflTransGen c.IsChild target id := by
  intro id inside before
  rcases mem_filledUp.mp inside with part | gadget
  · refine coherent.acyclic.not_below ⟨_, disjunction, member⟩ (before.trans ?_)
    exact ((coherent.conjoined found).1 id part).2
  · obtain ⟨w, _, _, _, tautology⟩ := fills.tautology gadget
    rcases tautology.below before with rfl | ⟨l, literal⟩
    · obtain ⟨v, missing⟩ := lacking
      obtain ⟨needed, absent⟩ := SortedSet.mem_diff.mp missing
      obtain ⟨other, listed, there⟩ := (coherent.mem_varsOf disjunction).mp needed
      rw [tautology.even coherent disjunction other listed child member] at there
      exact absent there
    · rw [disjunction] at literal
      simp at literal

/-- In a grown circuit, the conjunction pads the child. -/
theorem padded (fills : Fills c target child ids) (coherent : c.Coherent)
    (disjunction : c.gate? target = some (.or decision children)) (member : child ∈ children)
    (found : c.gate? child = some gate)
    (lacking : ∃ v, v ∈ (c.varsOf target).diff (c.varsOf child))
    (grown : c.Grown d) (conjunction : d.gate? new = some (filledUp gate child ids))
    : d.Padded target child new where
  present := Circuit.lt_of_gate? conjunction
  satisfies σ := by
    rw [Circuit.satisfies_iff conjunction,
      grown.extends_.holds_iff coherent.closed (fills.present coherent found),
      grown.extends_.satisfies_iff coherent.closed (Circuit.lt_of_gate? found)]
    exact fills.satisfies coherent found σ
  vars := by
    refine SortedSet.ext_mem fun v => ?_
    rw [grown.coherent.mem_varsOf conjunction,
      grown.extends_.retains.mentions_iff (fills.present coherent found),
      grown.extends_.varsOf (Circuit.lt_of_gate? disjunction)]
    exact fills.mentions coherent disjunction member found
  conjuncts := by
    refine SortedSet.ext_mem fun l => ?_
    rw [grown.coherent.mem_conjunctsOf conjunction,
      grown.extends_.retains.forces_iff (fills.present coherent found),
      grown.extends_.conjunctsOf (Circuit.lt_of_gate? found)]
    exact fills.forces coherent found
  open_ := Circuit.isFalse_of_gate? conjunction (by simp [filledUp])
  apart path := by
    rcases path.cases_tail with same | ⟨id, first, link⟩
    · rw [same, grown.extends_.gate? disjunction] at conjunction
      simp [filledUp] at conjunction
    · rw [Circuit.isChild_iff conjunction] at link
      exact fills.not_below coherent disjunction member found lacking id link
        (grown.extends_.below coherent.closed first (fills.present coherent found id link))

/-- A child and tautologies over the variables that it misses, conjoined. -/
theorem conjoin (fills : Fills c target child ids) (coherent : c.Coherent)
    (disjunction : c.gate? target = some (.or decision children)) (member : child ∈ children)
    (found : c.gate? child = some gate)
    (lacking : ∃ v, v ∈ (c.varsOf target).diff (c.varsOf child))
    : Yields (insert (filledUp gate child ids)) c fun new d =>
        c.Grown d ∧ d.Padded target child new := by
  refine (insert_grown coherent (fills.present coherent found) (SortedSet.ofList _).ascending
    (fills.admits coherent found) trivial).mono ?_
  rintro new d ⟨grown, conjunction⟩
  exact ⟨grown, fills.padded coherent disjunction member found lacking grown conjunction⟩

end Fills

end Padding

/-- The node that stands for a child: the child itself if it has all variables. -/
theorem smoothChild_spec {decision : Option Var} {children : List NodeId} {child : NodeId}
    (coherent : c.Coherent) (disjunction : c.gate? target = some (.or decision children))
    (member : child ∈ children) (tautologies : Tautologies c known)
    : Yields (smoothChild (c.varsOf target) child known) c fun result d =>
        c.Grown d ∧ Tautologies d result.2 ∧ d.Padded target child result.1
        ∧ (c.varsOf child = c.varsOf target → result.1 = child) := by
  obtain ⟨node, found⟩ := c.exists_node (coherent.closed disjunction child member)
  refine Yields.current ?_
  rw [found]
  dsimp only
  rw [← Circuit.varsOf_of_node? found]
  have inside : ∀ {v}, v ∈ c.varsOf child → v ∈ c.varsOf target := fun there =>
    (coherent.mem_varsOf disjunction).mpr ⟨child, member, there⟩
  split
  · rename_i complete
    refine Yields.pure ⟨.refl coherent, tautologies, ⟨Circuit.lt_of_node? found, fun σ => Iff.rfl,
      SortedSet.ext_mem fun v => ⟨inside, fun needed => ?_⟩, rfl,
      (coherent.admits disjunction).2.1 child member,
      coherent.acyclic.not_below ⟨_, disjunction, member⟩⟩, fun _ => rfl⟩
    by_contra absent
    exact SortedSet.isEmpty_iff.mp complete v (SortedSet.mem_diff.mpr ⟨needed, absent⟩)
  · rename_i incomplete
    have lacking : ∃ v, v ∈ (c.varsOf target).diff (c.varsOf child) :=
      SortedSet.isEmpty_eq_false_iff.mp (Bool.eq_false_iff.mpr incomplete)
    have bound : ∀ v ∈ ((c.varsOf target).diff (c.varsOf child)).toList, 0 < v ∧ v < 2147483648 :=
      fun v missing => coherent.vars_bound (SortedSet.mem_diff.mp missing).1
    refine Yields.bind (gadgets_spec coherent tautologies bound) ?_
    rintro ⟨ids, later⟩ d ⟨grown, tautologies', _, every, members⟩
    have extends_ := grown.extends_
    have targetVars := extends_.varsOf (Circuit.lt_of_gate? disjunction)
    have childVars := extends_.varsOf (Circuit.lt_of_node? found)
    rw [← targetVars, ← childVars] at every lacking
    rw [← targetVars, ← childVars] at members
    have fills := tautologies'.fills grown.coherent every members
    refine Yields.bind (fills.conjoin grown.coherent (extends_.gate? disjunction) member
      (extends_.gate? (Circuit.gate?_of_node? found)) lacking) (fun new e result => Yields.pure ?_)
    refine ⟨grown.trans result.1, tautologies'.grow result.1.extends_, result.2, fun same => ?_⟩
    obtain ⟨v, missing⟩ := lacking
    rw [targetVars, childVars, same] at missing
    exact absurd (SortedSet.mem_diff.mp missing).1 (SortedSet.mem_diff.mp missing).2

/-- The nodes that stand for the children; induction on the children. -/
theorem smoothChildren_spec {decision : Option Var} {children some_ : List NodeId}
    (coherent : c.Coherent) (disjunction : c.gate? target = some (.or decision children))
    (distinct : some_.Nodup) (members : ∀ child ∈ some_, child ∈ children)
    (tautologies : Tautologies c known)
    : Yields (smoothChildren (c.varsOf target) some_ known) c fun result d =>
        c.Grown d ∧ Tautologies d result.2
        ∧ ∃ newOf : NodeId → NodeId, result.1 = some_.map newOf
          ∧ ∀ child ∈ some_, d.Padded target child (newOf child)
            ∧ (c.varsOf child = c.varsOf target → newOf child = child) := by
  induction some_ generalizing c known with
  | nil => exact Yields.pure ⟨.refl coherent, tautologies, id, rfl, by simp⟩
  | cons child rest ih =>
      obtain ⟨new, distinctRest⟩ := List.nodup_cons.mp distinct
      obtain ⟨member, membersRest⟩ := List.forall_mem_cons.mp members
      have targetPresent := Circuit.lt_of_gate? disjunction
      refine Yields.bind (smoothChild_spec coherent disjunction member tautologies)
        (fun ⟨first, middle⟩ d result => ?_)
      obtain ⟨grown, tautologies', padded, complete⟩ := result
      have extends_ := grown.extends_
      have targetVars := extends_.varsOf targetPresent
      rw [← targetVars]
      refine Yields.bind (ih grown.coherent (extends_.gate? disjunction) distinctRest membersRest
        tautologies') (fun ⟨ids, last⟩ e result => ?_)
      obtain ⟨grown', tautologies'', newOf, listed, each⟩ := result
      obtain rfl : ids = rest.map newOf := listed
      refine Yields.pure ⟨grown.trans grown', tautologies'', Circuit.exists_map_cons
        (fun old new => e.Padded target old new ∧ (c.varsOf old = d.varsOf target → new = old)) new ?_ ?_⟩
      · refine ⟨padded.grow grown'.extends_ grown.coherent.closed (extends_.lt targetPresent)
          (extends_.lt (coherent.closed disjunction child member)), ?_⟩
        rw [targetVars]
        exact complete
      · intro x inside
        rw [← extends_.varsOf (coherent.closed disjunction x (membersRest x inside))]
        exact each x inside

/-- The tautologies stay when a disjunction gets other children. One that is the target is even already, so that its
children stand for themselves.
-/
theorem Tautologies.redirect {node : Node} {decision : Option Var} {children ids : List NodeId}
    {newOf : NodeId → NodeId} (tautologies : Tautologies c known) (coherent : c.Coherent)
    (redirection : c.Redirection target node decision children ids newOf)
    (complete : ∀ child ∈ children, c.varsOf child = c.varsOf target → newOf child = child)
    : Tautologies (c.redirect target node ids) known := by
  intro v id found
  obtain ⟨nonzero, p, n, positive, negative, tautology⟩ := tautologies found
  have kept {other : NodeId} {l : Lit} (literal : c.gate? other = some (.literal l))
      : (c.redirect target node ids).gate? other = some (.literal l) := by
    rw [redirection.gate?, if_neg]
    · exact literal
    · intro same
      rw [← same, redirection.target_gate?] at literal
      simp at literal
  refine ⟨nonzero, p, n, kept positive, kept negative, ?_⟩
  rw [redirection.gate?]
  split
  · rename_i same
    subst same
    have even := (tautologies found).2.even coherent redirection.target_gate?
    have same : ∀ child ∈ children, newOf child = child := by
      intro child member
      refine complete child member (SortedSet.ext_mem fun v => ?_)
      rw [coherent.mem_varsOf redirection.target_gate?]
      refine ⟨fun inside => ⟨child, member, inside⟩, ?_⟩
      rintro ⟨other, listed, inside⟩
      rwa [even child member other listed]
    rw [redirection.eq_of_self coherent same, ← redirection.target_gate?]
    exact tautology
  · exact tautology

/-- A disjunction gets even children. -/
theorem smoothNode_spec {node : Node} {decision : Option Var} {children : List NodeId}
    (coherent : c.Coherent) (found : c.node? target = some node)
    (disjunction : node.gate = .or decision children)
    (tautologies : Tautologies c known)
    : Yields (smoothNode target known) c fun later d =>
        d.Coherent ∧ c.Reshapes d ∧ Tautologies d later
        ∧ ∀ {id gate}, d.gate? id = some gate → d.Even gate ∨ id ≠ target ∧ c.gate? id = some gate := by
  have gate : c.gate? target = some (.or decision children) := by
    rw [Circuit.gate?_of_node? found, disjunction]
  have own : node.children = children := by rw [Node.children, disjunction]; rfl
  have distinct : children.Nodup := (coherent.ascending gate).imp Nat.ne_of_lt
  refine Yields.current ?_
  rw [found]
  dsimp only
  rw [own, ← Circuit.varsOf_of_node? found]
  refine Yields.bind (smoothChildren_spec coherent gate distinct (fun _ member => member) tautologies)
    fun pair d result => ?_
  obtain ⟨ids, later⟩ := pair
  refine Yields.update (Yields.pure ?_)
  obtain ⟨grown, tautologies', newOf, listed, each⟩ := result
  obtain rfl : ids = children.map newOf := listed
  obtain ⟨here, there, sameGate, _⟩ := grown.extends_.kept found
  have redirection : d.Redirection target here decision children
      (SortedSet.ofList (children.map newOf)).toList newOf :=
    { found := there
      disjunction := sameGate.trans disjunction
      ascending := (SortedSet.ofList _).ascending
      members := by simp
      padded := fun member => (each _ member).1 }
  rw [Circuit.redirect_congr sameGate.symm]
  have coherent' := redirection.coherent grown.coherent
  have gates := redirection.gate?
  have complete : ∀ child ∈ children, d.varsOf child = d.varsOf target → newOf child = child := by
    intro child member same
    rw [grown.extends_.varsOf (coherent.closed gate child member),
      grown.extends_.varsOf (Circuit.lt_of_gate? gate)] at same
    exact (each child member).2 same
  refine ⟨coherent', (grown.extends_.reshapes coherent.closed).trans (redirection.reshapes grown.coherent),
    tautologies'.redirect grown.coherent redirection complete, fun {id key} after => ?_⟩
  rw [gates] at after
  split at after
  · obtain rfl := Option.some.inj after
    exact .inl redirection.even
  · rename_i differ
    rcases grown.even after with old | even
    · exact .inr ⟨Ne.symm differ, old⟩
    · exact .inl ((redirection.retains.even_iff (grown.coherent.closed after)).mpr even)

end Build

end KnowledgeCompiler
