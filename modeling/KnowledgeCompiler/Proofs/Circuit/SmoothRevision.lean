import KnowledgeCompiler.Proofs.Circuit.Edges
import KnowledgeCompiler.Proofs.Circuit.Smoothing

/-! Smoothing is a revision.

Nothing is asked of the circuit but that it is up to date. Each disjunction that is not smooth gets other
children, which do not lead back to it, so the circuit stays without cycles; then all nodes are refreshed.
-/

namespace KnowledgeCompiler

open Relation

-----------------------------------------------------------------------------------------
-- Actions without errors
-----------------------------------------------------------------------------------------

namespace Build

open KnowledgeCompiler.Action

variable {α β : Type}

/-- The action never stops with an error; it may stop with a fault. -/
structure Errorless (action : Build α) : Prop where
  ended : ∀ c, Ensures action c (fun _ _ => True) fun _ => False

namespace Errorless

variable {action : Build α} {next : α → Build β} {c : Circuit} {post : α → Circuit → Prop}
variable {stop : Circuit → Prop}

theorem pure (a : α) : Errorless (Pure.pure a : Build α) := ⟨fun _ => Ensures.pure trivial⟩

theorem fault (cause : Fault) : Errorless (throw (.fault cause) : Build α) := ⟨fun _ => Ensures.fault⟩

theorem bind (first : Errorless action) (second : ∀ a, Errorless (next a)) : Errorless (action >>= next) where
  ended c := (first.ended c).bind fun a d _ => (second a).ended d

theorem current {next : Circuit → Build β} (each : ∀ c, Errorless (next c))
    : Errorless (Action.current >>= next) := ⟨fun c => Ensures.current ((each c).ended c)⟩

theorem checked {value : Checked α} (each : ∀ a, Errorless (next a))
    : Errorless ((liftM value : Build α) >>= next) :=
  ⟨fun c => Ensures.checked fun a _ => (each a).ended c⟩

/-- Nothing needs to be said about errors. -/
theorem ensures (errorless : Errorless action) (known : Ensures action c post stop)
    : Ensures action c post fun _ => False := by
  intro journal
  have ended := errorless.ended c journal
  have holds := known journal
  split at ended
  · rename_i run
    rwa [run] at holds
  · exact ended.elim
  · trivial

end Errorless

theorem insert_errorless (gate : Gate) : Errorless (insert gate) := by
  refine .current fun c => ?_
  split
  · exact .pure _
  · refine ⟨fun d => Ensures.note (Ensures.checked fun summary _ => Ensures.update (Ensures.pure trivial))⟩

theorem literal_errorless (l : Lit) : Errorless (literal l) := by
  unfold literal
  split
  · exact .bind (.fault _) fun _ => insert_errorless _
  · exact insert_errorless _

theorem gadget_errorless (v : Var) (known : Gadgets) : Errorless (gadget v known) := by
  unfold gadget
  split
  · exact .pure _
  · refine (literal_errorless _).bind fun positive => .checked fun l => ?_
    exact (literal_errorless l).bind fun negative => (insert_errorless _).bind fun id => .pure _

/-- Induction on the variables. -/
theorem gadgets_errorless (vars : List Var) (known : Gadgets) : Errorless (gadgets vars known) := by
  induction vars generalizing known with
  | nil => exact .pure _
  | cons v rest ih => exact (gadget_errorless v known).bind fun _ => (ih _).bind fun _ => .pure _

theorem smoothChild_errorless (vars : SortedSet Var) (child : NodeId) (known : Gadgets)
    : Errorless (smoothChild vars child known) := by
  refine .current fun c => ?_
  split
  · exact .pure _
  · dsimp only
    split
    · exact .pure _
    · exact (gadgets_errorless _ _).bind fun _ => (insert_errorless _).bind fun _ => .pure _

/-- Induction on the children. -/
theorem smoothChildren_errorless (vars : SortedSet Var) (children : List NodeId) (known : Gadgets)
    : Errorless (smoothChildren vars children known) := by
  induction children generalizing known with
  | nil => exact .pure _
  | cons child rest ih => exact (smoothChild_errorless vars child known).bind fun _ => (ih _).bind fun _ => .pure _

end Build

-----------------------------------------------------------------------------------------
-- Children that do not lead back
-----------------------------------------------------------------------------------------

namespace Circuit

variable {c d : Circuit} {id target child : NodeId} {gate : Gate} {children : List NodeId}

/-- The gate of a conjoined part is below the node. -/
theorem below_of_conjoined {part : NodeId} (found : c.gate? id = some gate)
    (member : part ∈ gate.conjoined id)
    : ReflTransGen c.IsChild part id := by
  unfold Gate.conjoined at member
  split at member
  · exact .single ⟨_, found, member⟩
  · rw [List.mem_singleton.mp member]

/-- What is below a disjunction of literals is the disjunction or a literal. -/
theorem Balanced.below {other : NodeId} (balanced : c.Balanced id) (path : ReflTransGen c.IsChild other id)
    : other = id ∨ ∃ l : Lit, c.gate? other = some (.literal l) := by
  obtain ⟨v, decision, children, found, literals⟩ := balanced
  rcases path.cases_tail with rfl | ⟨child, first, link⟩
  · exact .inl rfl
  · obtain ⟨l, _, there⟩ := literals child ((isChild_iff found).mp link)
    refine .inr ⟨l, ?_⟩
    rcases first.cases_tail with rfl | ⟨lower, _, link'⟩
    · exact there
    · exact absurd ((isChild_iff there).mp link') List.not_mem_nil

/-- A node stands for a child: it is the child, or a conjunction of its parts and of more. -/
def StandsFor (c : Circuit) (child new : NodeId) : Prop :=
  new = child
    ∨ ∃ gate parts, c.gate? child = some gate ∧ c.gate? new = some (.and parts)
      ∧ ∀ part ∈ gate.conjoined child, part ∈ parts

theorem StandsFor.grow {new : NodeId} (covers : c.StandsFor child new) (grown : c.Extends d)
    : d.StandsFor child new := by
  rcases covers with same | ⟨gate, parts, found, conjunction, each⟩
  · exact .inl same
  · exact .inr ⟨gate, parts, grown.gate? found, grown.gate? conjunction, each⟩

/-- What occurs below a node occurs below one of its conjoined parts. -/
theorem Occurs.conjoined {v : Var} (occurs : c.Occurs v id) (found : c.gate? id = some gate)
    : ∃ part ∈ gate.conjoined id, c.Occurs v part := by
  cases gate with
  | and children =>
      cases occurs with
      | leaf there childless mentioned =>
          obtain rfl := Option.some.inj (found.symm.trans there)
          obtain rfl : children = [] := childless
          obtain ⟨child, member, _⟩ := mentioned
          exact absurd member List.not_mem_nil
      | child there inner member below =>
          obtain rfl := Option.some.inj (found.symm.trans there)
          exact ⟨_, member, below⟩
      | renamed there image below => exact absurd (found.symm.trans there) (by simp)
  | constant value | literal l | or decision children | mapping names child | twoCnf formula | horn formula =>
      exact ⟨id, List.mem_singleton_self id, occurs⟩

/-- A node is a disjunction, but not of literals of one variable. -/
structure Unbalanced (c : Circuit) (id : NodeId) : Prop where
  disjunction : ∃ decision children, c.gate? id = some (.or decision children)
  unbalanced : ¬ c.Balanced id

/-- A disjunction keeps being unbalanced if it and its children keep their gates. -/
theorem Unbalanced.congr (unbalanced : c.Unbalanced id) (same : d.gate? id = c.gate? id)
    (literals : ∀ child, c.IsChild child id → ∀ l : Lit,
      d.gate? child = some (.literal l) → c.gate? child = some (.literal l))
    : d.Unbalanced id where
  disjunction := by rw [same]; exact unbalanced.disjunction
  unbalanced balanced := by
    obtain ⟨v, decision, children, found, each⟩ := balanced
    rw [same] at found
    refine unbalanced.unbalanced ⟨v, decision, children, found, fun child member => ?_⟩
    obtain ⟨l, var, there⟩ := each child member
    exact ⟨l, var, literals child ⟨_, found, member⟩ l there⟩

theorem Unbalanced.grow (unbalanced : c.Unbalanced id) (grown : c.Extends d) (closed : c.Closed)
    : d.Unbalanced id := by
  obtain ⟨decision, children, found⟩ := unbalanced.disjunction
  refine unbalanced.congr (by rw [grown.gate? found, found]) fun child link l there => ?_
  obtain ⟨gate, parent, member⟩ := link
  obtain ⟨node, before⟩ := c.exists_node (closed parent child member)
  have same := grown.gate? (gate?_of_node? before)
  rw [there] at same
  rw [gate?_of_node? before, ← same]

/-- A disjunction is not below the conjunction of the parts of its child and of tautologies. -/
theorem Unbalanced.not_below (unbalanced : c.Unbalanced target) (wired : c.Wired)
    (link : c.IsChild child target) (found : c.gate? child = some gate)
    (conjunction : c.gate? id = some (.and children))
    (parts : ∀ part ∈ children, part ∈ gate.conjoined child ∨ c.Balanced part)
    : ¬ ReflTransGen c.IsChild target id := by
  intro path
  obtain ⟨decision, others, disjunction⟩ := unbalanced.disjunction
  rcases path.cases_tail with same | ⟨part, first, step⟩
  · rw [same, disjunction] at conjunction
    simp at conjunction
  · rcases parts part ((isChild_iff conjunction).mp step) with conjoined | balanced
    · exact wired.acyclic.not_below link (first.trans (below_of_conjoined found conjoined))
    · rcases balanced.below first with same | ⟨l, literal⟩
      · exact unbalanced.unbalanced (same ▸ balanced)
      · rw [disjunction] at literal
        simp at literal

end Circuit

namespace Build

open KnowledgeCompiler.Action
open Circuit

variable {c d : Circuit} {target child : NodeId} {known : Gadgets}

/-- The nodes that stand for the children of a disjunction exist, and do not lead back to it. -/
def LeadAway (d : Circuit) (target : NodeId) (ids : List NodeId) : Prop :=
  ∀ id ∈ ids, id < d.nodes.size ∧ ¬ ReflTransGen d.IsChild target id

theorem LeadAway.grow {ids : List NodeId} (away : LeadAway c target ids) (grown : c.Extends d)
    (closed : c.Closed)
    : LeadAway d target ids := fun id member =>
  ⟨grown.lt (away id member).1, fun path =>
    (away id member).2 (grown.below closed path (away id member).1)⟩

/-- Each of these children is covered by one of these nodes. -/
def AllCovered (d : Circuit) (children ids : List NodeId) : Prop :=
  ∀ child ∈ children, ∃ id ∈ ids, d.StandsFor child id

theorem smoothChild_grows (vars : SortedSet Var) (wired : c.Wired) (unbalanced : c.Unbalanced target)
    (link : c.IsChild child target) (balanced : AllBalanced c known)
    : Grows c (smoothChild vars child known) fun result d =>
        LeadAway d target [result.1] ∧ d.StandsFor child result.1 ∧ AllBalanced d result.2 := by
  obtain ⟨gate, parent, member⟩ := id link
  obtain ⟨node, found⟩ := c.exists_node (wired.closed parent child member)
  have here := gate?_of_node? found
  refine .current ?_
  rw [found]
  dsimp only
  split
  · refine .pure ⟨List.forall_mem_singleton.mpr ⟨lt_of_node? found, ?_⟩, .inl rfl, balanced⟩
    exact wired.acyclic.not_below link
  · rename_i missing
    refine (gadgets_grows _ balanced).bind ?_
    rintro ⟨ids, later⟩ d grown ⟨each, balanced, length⟩
    have members {part : NodeId} : part ∈ (SortedSet.ofList (node.gate.conjoined child ++ ids)).toList
        ↔ part ∈ node.gate.conjoined child ∨ part ∈ ids := by simp
    have present : ∀ part ∈ (Gate.and (SortedSet.ofList (node.gate.conjoined child ++ ids)).toList).children,
        part < d.nodes.size := by
      intro part listed
      rcases members.mp listed with conjoined | gadget
      · exact grown.extends_.lt
          (Closed.lt_of_below wired.closed (below_of_conjoined here conjoined) (lt_of_node? found))
      · exact (each part gadget).lt
    -- some variable is missing, so there is a tautology
    have some_ : (SortedSet.ofList (node.gate.conjoined child ++ ids)).toList ≠ [] := by
      have positive : ids.length ≠ 0 := by simpa [length, SortedSet.isEmpty] using missing
      obtain ⟨gadget, listed⟩ := List.exists_mem_of_length_pos (Nat.pos_of_ne_zero positive)
      exact List.ne_nil_of_mem (members.mpr (.inr listed))
    refine (insert_grows present (SortedSet.nodup _) (decides_of_none some_ rfl) trivial).bind ?_
    rintro id e grown' ⟨other, there, signed⟩
    obtain ⟨children, rfl, same⟩ := Gate.eq_and_of_signature? signed
    have all := grown.extends_.trans grown'.extends_
    have covers : e.StandsFor child id := .inr ⟨node.gate, children, all.gate? here, there, fun part conjoined =>
      (same part).mpr (members.mpr (.inl conjoined))⟩
    refine .pure ⟨List.forall_mem_singleton.mpr ⟨lt_of_gate? there, ?_⟩, covers, balanced.grow grown'.extends_⟩
    refine (unbalanced.grow all wired.closed).not_below grown'.wired
      ((all.isChild_iff (lt_of_gate? parent)).mpr link) (all.gate? here) there fun part listed => ?_
    exact (members.mp ((same part).mp listed)).imp_right fun gadget => (each part gadget).grow grown'.extends_

/-- Induction on the children. -/
theorem smoothChildren_grows (vars : SortedSet Var) {children : List NodeId} (wired : c.Wired)
    (unbalanced : c.Unbalanced target) (links : ∀ child ∈ children, c.IsChild child target)
    (balanced : AllBalanced c known)
    : Grows c (smoothChildren vars children known) fun result d =>
        LeadAway d target result.1 ∧ AllCovered d children result.1 ∧ AllBalanced d result.2 := by
  induction children generalizing c known with
  | nil => exact .pure ⟨by simp [LeadAway], by simp [AllCovered], balanced⟩
  | cons child rest ih =>
      obtain ⟨link, links⟩ := List.forall_mem_cons.mp links
      have present : target < c.nodes.size := by
        obtain ⟨gate, found, _⟩ := link
        exact lt_of_gate? found
      refine (smoothChild_grows vars wired unbalanced link balanced).bind ?_
      rintro ⟨id, known⟩ d grown ⟨away, covers, balanced⟩
      have links : ∀ child ∈ rest, d.IsChild child target := fun child member =>
        (grown.extends_.isChild_iff present).mpr (links child member)
      refine (ih grown.wired (unbalanced.grow grown.extends_ wired.closed) links balanced).bind ?_
      rintro ⟨ids, known⟩ e grown' ⟨others, covered, balanced⟩
      have first := away.grow grown'.extends_ grown.wired.closed
      refine .pure ⟨List.forall_mem_cons.mpr ⟨first id (List.mem_singleton_self id), others⟩, ?_, balanced⟩
      refine List.forall_mem_cons.mpr ⟨⟨id, List.mem_cons_self, covers.grow grown'.extends_⟩, fun other member => ?_⟩
      obtain ⟨new, listed, covers⟩ := covered other member
      exact ⟨new, List.mem_cons_of_mem id listed, covers⟩

end Build

-----------------------------------------------------------------------------------------
-- Other children
-----------------------------------------------------------------------------------------

namespace Circuit

variable {c d e : Circuit} {id target : NodeId} {targets : List NodeId}

/-- The second circuit has the gates of the first one, apart from disjunctions among the targets, which
may have other children. It shows the same of its root, and decisions stay on variables below.
-/
structure Reforms (c d : Circuit) (targets : List NodeId) : Prop where
  others : ∀ {id gate}, c.gate? id = some gate → ¬ id ∈ targets → d.gate? id = some gate
  disjunction
    : ∀ {id decision children},
        c.gate? id = some (.or decision children)
        → ∃ children, d.gate? id = some (.or decision children)
  rooted : c.Rooted → d.Rooted
  decided : c.Decided → d.Decided

theorem Enlarges.reforms (larger : c.Enlarges d) : c.Reforms d targets where
  others found _ := larger.extends_.gate? found
  disjunction found := ⟨_, larger.extends_.gate? found⟩
  rooted := larger.rooted
  decided := larger.decided

theorem Reforms.trans (first : c.Reforms d targets) (second : d.Reforms e targets) : c.Reforms e targets where
  others found outside := second.others (first.others found outside) outside
  disjunction found := by
    obtain ⟨children, there⟩ := first.disjunction found
    exact second.disjunction there
  rooted known := second.rooted (first.rooted known)
  decided known := second.decided (first.decided known)

theorem Reforms.mono {more : List NodeId} (reforms : c.Reforms d targets)
    (subset : ∀ id ∈ targets, id ∈ more)
    : c.Reforms d more :=
  { reforms with others := fun found outside => reforms.others found fun member => outside (subset _ member) }

/-- A node that is a literal afterwards was one before. -/
theorem Reforms.literal {l : Lit} (reforms : c.Reforms d targets)
    (all : ∀ id ∈ targets, c.Unbalanced id) (present : id < c.nodes.size)
    (literal : d.gate? id = some (.literal l))
    : c.gate? id = some (.literal l) := by
  by_cases member : id ∈ targets
  · obtain ⟨decision, children, found⟩ := (all id member).disjunction
    obtain ⟨others, there⟩ := reforms.disjunction found
    rw [there] at literal
    simp at literal
  · obtain ⟨node, found⟩ := c.exists_node present
    have before := gate?_of_node? found
    rw [reforms.others before member] at literal
    rw [before, literal]

/-- Other disjunctions stay unbalanced. -/
theorem Reforms.unbalanced (reforms : c.Reforms d targets) (all : ∀ id ∈ targets, c.Unbalanced id)
    (closed : c.Closed) (unbalanced : c.Unbalanced id) (outside : ¬ id ∈ targets)
    : d.Unbalanced id := by
  obtain ⟨decision, children, found⟩ := unbalanced.disjunction
  refine unbalanced.congr (by rw [reforms.others found outside, found]) fun child link l literal => ?_
  obtain ⟨gate, there, member⟩ := link
  exact reforms.literal all (closed there child member) literal

/-- Tautologies stay tautologies, for none of them is among the targets. -/
theorem Reforms.balanced (reforms : c.Reforms d targets) (all : ∀ id ∈ targets, c.Unbalanced id)
    (balanced : c.Balanced id)
    : d.Balanced id := by
  have kept : ¬ id ∈ targets := fun member => (all id member).unbalanced balanced
  obtain ⟨v, decision, children, found, literals⟩ := balanced
  refine ⟨v, decision, children, reforms.others found kept, fun child member => ?_⟩
  obtain ⟨l, var, there⟩ := literals child member
  refine ⟨l, var, reforms.others there fun listed => ?_⟩
  obtain ⟨_, _, disjunction⟩ := (all child listed).disjunction
  rw [there] at disjunction
  simp at disjunction

/-- A disjunction keeps what occurs below it if its new children cover the old ones. -/
theorem Rewires.decided_of_covered {decision : Option Var} {children ids : List NodeId}
    (rewires : c.Rewires d target (.or decision children) (.or decision ids))
    (wired : c.Wired) (covered : ∀ child ∈ children, ∃ id ∈ ids, c.StandsFor child id) (decided : c.Decided)
    : d.Decided := by
  have inhabited : (Gate.or decision children).Inhabited → (Gate.or decision ids).Inhabited := by
    intro some_ none_
    obtain ⟨child, member⟩ := List.exists_mem_of_ne_nil _ some_
    obtain ⟨id, listed, _⟩ := covered child member
    rw [none_] at listed
    cases listed
  refine rewires.decided (.inr rfl) (.inr rfl) inhabited rfl (fun child member v below => ?_) decided
  obtain ⟨new, listed, covers⟩ := covered child member
  refine ⟨new, listed, ?_⟩
  rcases covers with rfl | ⟨gate, parts, found, conjunction, each⟩
  · exact below
  · -- neither the child nor the new conjunction is the disjunction itself
    have other : target ≠ child := fun same =>
      wired.acyclic.not_properlyBelow target (.single ⟨_, rewires.found, same ▸ member⟩)
    have other' : target ≠ new := fun same => by
      have both := rewires.found.symm.trans (same ▸ conjunction)
      simp at both
    obtain ⟨part, conjoined, inside⟩ := below.conjoined ((rewires.other_gate? other).trans found)
    exact .child ((rewires.other_gate? other').trans conjunction) (.inl rfl) (each part conjoined) inside

/-- A disjunction of an up-to-date circuit that is not smooth is unbalanced. -/
theorem UpToDate.unbalanced {node : Node} (upToDate : c.UpToDate) (found : c.node? id = some node)
    (disjunction : node.kind = .or) (uneven : node.summary.own.smooth = false)
    : c.Unbalanced id := by
  obtain ⟨decision, children, gate⟩ : ∃ decision children, node.gate = .or decision children := by
    cases shape : node.gate <;> simp [Node.kind, Gate.kind, shape] at disjunction
    exact ⟨_, _, rfl⟩
  have here : c.gate? id = some (.or decision children) := by rw [gate?_of_node? found, gate]
  refine ⟨⟨decision, children, here⟩, fun balanced => ?_⟩
  obtain ⟨v, decision', children', there, literals⟩ := balanced
  obtain ⟨rfl, rfl⟩ : decision = decision' ∧ children = children' := by simpa [here] using there
  have derived := upToDate.derived id node found
  rw [gate] at derived
  obtain ⟨_, _, _, _, _, smooth, _⟩ := ofDisjunction_eq_ok derived
  rw [smooth, ← Bool.not_eq_true] at uneven
  have vars : ∀ child ∈ children, ∀ w, w ∈ c.varsOf child ↔ w = v := by
    intro child member w
    obtain ⟨l, rfl, literal⟩ := literals child member
    exact upToDate.mem_varsOf literal
  refine uneven ((all_vars_iff (upToDate.closed here)).mpr fun a first b second => ?_)
  exact SortedSet.ext_mem fun w => (vars a first w).trans (vars b second w).symm

end Circuit

namespace Build

open KnowledgeCompiler.Action
open Circuit

variable {c d : Circuit} {target : NodeId} {known : Gadgets}

/-- A disjunction gets other children; the circuit stays wired. -/
theorem smoothNode_ensures (wired : c.Wired) (unbalanced : c.Unbalanced target)
    (balanced : AllBalanced c known)
    : Ensures (smoothNode target known) c
        (fun later d => d.Wired ∧ c.Reforms d [target] ∧ AllBalanced d later) fun _ => False := by
  obtain ⟨decision, children, disjunction⟩ := unbalanced.disjunction
  obtain ⟨node, found, gate⟩ := Option.map_eq_some_iff.mp disjunction
  have links : ∀ child ∈ node.children, c.IsChild child target := fun child member =>
    ⟨_, disjunction, gate ▸ member⟩
  refine .current ?_
  rw [found]
  dsimp only
  have children_ := (smoothChildren_grows node.vars wired unbalanced links balanced).ensures wired
  refine ((smoothChildren_errorless ..).ensures children_).bind ?_
  rintro ⟨ids, later⟩ d ⟨grown, away, covered, balanced⟩
  refine .update (.pure ?_)
  obtain ⟨here, there, same, _⟩ := grown.extends_.kept found
  rw [Circuit.redirect_congr same.symm]
  have shape : here.gate = .or decision children := same.trans gate
  have listed : (here.gate.withChildren (SortedSet.ofList ids).toList).children
      = (SortedSet.ofList ids).toList := children_withChildren (.inr (by rw [shape]; rfl)) _
  have rewires := grown.wired.rewires_redirect there listed
  have wired' : (d.redirect target here (SortedSet.ofList ids).toList).Wired := by
    refine grown.wired.rewire rewires ?_ ?_ ?_
    · exact fun id member => (away id (by simpa [listed] using member)).1
    · rw [listed]
      exact SortedSet.nodup _
    · exact fun id member => (away id (by simpa [listed] using member)).2
  have reforms : d.Reforms (d.redirect target here (SortedSet.ofList ids).toList) [target] := by
    refine ⟨fun before outside => ?_, fun {id other others} before => ?_, fun rooted => rooted.redirect,
      fun decided => ?_⟩
    · rw [rewires.other_gate? fun same => outside (List.mem_singleton.mpr same.symm), before]
    · by_cases same : target = id
      · subst same
        rw [gate?_of_node? there, shape] at before
        obtain ⟨rfl, rfl⟩ : decision = other ∧ children = others := by simpa using before
        exact ⟨_, by rw [rewires.target_gate?, shape]; rfl⟩
      · exact ⟨others, by rw [rewires.other_gate? same, before]⟩
    · rw [shape] at rewires
      refine rewires.decided_of_covered grown.wired (fun child member => ?_) decided
      have before : node.children = children := congrArg Gate.children gate
      obtain ⟨new, listed, covers⟩ := covered child (before ▸ member)
      exact ⟨new, by simpa using listed, covers⟩
  have unbalanced' := unbalanced.grow grown.extends_ wired.closed
  exact ⟨wired', grown.reforms.trans reforms, fun entry member =>
    reforms.balanced (List.forall_mem_singleton.mpr unbalanced') (balanced entry member)⟩

/-- Induction on the targets. -/
theorem smoothNodes_ensures {targets : List NodeId} (wired : c.Wired) (distinct : targets.Nodup)
    (all : ∀ id ∈ targets, c.Unbalanced id) (balanced : AllBalanced c known)
    : Ensures (targets.foldlM (fun known id => smoothNode id known) known) c
        (fun _ d => d.Wired ∧ c.Reforms d targets) fun _ => False := by
  induction targets generalizing c known with
  | nil => exact .pure ⟨wired, (Enlarges.refl wired).reforms⟩
  | cons target rest ih =>
      obtain ⟨first, others⟩ := List.forall_mem_cons.mp all
      obtain ⟨fresh, distinct⟩ := List.nodup_cons.mp distinct
      rw [List.foldlM_cons]
      refine (smoothNode_ensures wired first balanced).bind fun known d ⟨wired', reforms, balanced⟩ => ?_
      have remaining : ∀ id ∈ rest, d.Unbalanced id := fun id member =>
        reforms.unbalanced (List.forall_mem_singleton.mpr first) wired.closed (others id member)
          fun same => fresh (List.mem_singleton.mp same ▸ member)
      refine (ih wired' distinct remaining balanced).mono (fun _ e done => ?_) fun _ none_ => none_
      exact ⟨done.1, (reforms.mono (by simp)).trans (done.2.mono (by simp +contextual))⟩

/-- Smoothing is a revision. -/
theorem smooth_ensures (upToDate : c.UpToDate)
    : Ensures smooth c (fun _ d => c.Revises d) c.Revises := by
  refine .current ?_
  dsimp only
  split
  · exact .pure (.refl upToDate)
  refine .note ?_
  rw [discard_bind]
  have all : ∀ id ∈ (List.range c.nodes.size).filter (fun id =>
        (c.node? id).elim false fun node => node.kind == .or && !node.summary.own.smooth),
      c.Unbalanced id := by
    intro id member
    have chosen := (List.mem_filter.mp member).2
    cases found : c.node? id with
    | none => simp [found] at chosen
    | some node =>
        obtain ⟨disjunction, uneven⟩ : node.kind = .or ∧ node.summary.own.smooth = false := by
          simpa [found] using chosen
        exact upToDate.unbalanced found disjunction uneven
  have distinct := (List.nodup_range (n := c.nodes.size)).filter fun id =>
    (c.node? id).elim false fun node => node.kind == .or && !node.summary.own.smooth
  have none_ : AllBalanced c [] := by simp [AllBalanced]
  have folded := smoothNodes_ensures upToDate.toWired distinct all none_
  refine Ensures.bind (folded.mono (fun _ _ done => done) fun _ none_ => none_.elim) ?_
  rintro - d ⟨wired, reforms⟩
  refine (refreshCircuit_ensures wired).mono (fun _ e ⟨refreshed, rooted⟩ => ?_) fun _ none_ => none_.elim
  refine ⟨refreshed.upToDate wired, fun inRange {id gate} found => ?_, fun known => rooted (reforms.rooted known),
    fun known => refreshed.decided wired (reforms.decided known), fun {id node} found => .inl ?_⟩
  · by_cases member : id ∈ (List.range c.nodes.size).filter fun id =>
        (c.node? id).elim false fun node => node.kind == .or && !node.summary.own.smooth
    · obtain ⟨_, _, disjunction⟩ := (all id member).disjunction
      obtain rfl := Option.some.inj (found.symm.trans disjunction)
      exact Gate.inRange_of_inner (.inr rfl)
    · refine @inRange id gate ?_
      rw [refreshed.wiring.gate?, reforms.others found member]
  · refine refreshed.forgotten id ?_ node found
    rw [SortedSet.mem_ofList, List.mem_range, ← refreshed.wiring.size]
    exact lt_of_node? found

end Build

end KnowledgeCompiler
