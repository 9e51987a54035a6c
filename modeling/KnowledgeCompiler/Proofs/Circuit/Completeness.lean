import KnowledgeCompiler.Proofs.Circuit.SmoothMeaning

/-! Mapping nodes under later requests.

A mapping node is made with names for all variables of its child. No request takes them away, but a new edge below a
mapping node may bring variables that the node has no names for. So all mapping nodes are complete just as long as
each edge that is added brings only variables that the mapping nodes above it can name.
-/

namespace KnowledgeCompiler

open Relation
open KnowledgeCompiler.Build
open KnowledgeCompiler.Action (Ensures)

namespace Circuit

variable {c d : Circuit} {source target id child : NodeId} {parent : Node} {gate : Gate} {names : Bijection}
variable {u v w : Var}

-----------------------------------------------------------------------------------------
-- Variables on their way up
-----------------------------------------------------------------------------------------

/-- A variable that a node has is known above it, by the names that the mapping nodes in between give to it. -/
inductive Rises (c : Circuit) (source : NodeId) (v : Var) : NodeId → Var → Prop
  | here : c.Rises source v source v
  | operand {id child : NodeId} {w : Var} (operand : c.IsOperand child id) (below : c.Rises source v child w)
    : c.Rises source v id w
  | renamed {id child : NodeId} {names : Bijection} {u w : Var} (found : c.gate? id = some (.mapping names child))
    (image : names.toGlobal.find? u = some w) (below : c.Rises source v child u)
    : c.Rises source v id w

theorem IsOperand.occurs (operand : c.IsOperand child id) (below : c.Occurs v child) : c.Occurs v id := by
  obtain ⟨gate, found, inner, member⟩ := operand
  exact .child found inner member below

/-- Variables rise along edges only. -/
theorem Rises.path (rises : c.Rises source v id w) : ReflTransGen c.IsChild source id := by
  induction rises with
  | here => exact .refl
  | operand operand _ ih =>
      obtain ⟨gate, found, _, member⟩ := operand
      exact ih.tail ⟨gate, found, member⟩
  | renamed found image _ ih => exact ih.tail ⟨_, found, List.mem_singleton_self _⟩

/-- What occurs below a node occurs below those above it. -/
theorem Rises.occurs (rises : c.Rises source v id w) (occurs : c.Occurs v source) : c.Occurs w id := by
  induction rises with
  | here => exact occurs
  | operand operand _ ih => exact operand.occurs ih
  | renamed found image _ ih => exact .renamed found image ih

/-- The mapping nodes above a node have names for all variables that another node would bring as its child. -/
def Welcomes (c : Circuit) (source target : NodeId) : Prop :=
  ∀ {v id names child w},
    v ∈ c.varsOf target
    → c.gate? id = some (.mapping names child)
    → c.Rises source v child w
    → (names.toGlobal.find? w).isSome = true

/-- Children that are there already are welcome. -/
theorem UpToDate.welcomes_operand (upToDate : c.UpToDate) (covered : c.Covered) (operand : c.IsOperand target source)
    : c.Welcomes source target := fun inside found rises =>
  covered found _ (upToDate.mem_varsOf_of_occurs (rises.occurs (operand.occurs (upToDate.occurs inside))))

-----------------------------------------------------------------------------------------
-- New edges
-----------------------------------------------------------------------------------------

namespace Attaches

variable (attaches : c.Attaches d source target parent) (upToDate : c.UpToDate)

include attaches upToDate

/-- Only the parent gets another gate. -/
theorem gate?
    : d.gate? id
      = if source = id then some (parent.gate.withChildren (parent.children ++ [target])) else c.gate? id := by
  rw [attaches.refreshed.wiring.gate?, (attaches.rewires upToDate.toWired).gate?]

/-- Mapping nodes stay. -/
theorem mapping_iff
    : d.gate? id = some (.mapping names child) ↔ c.gate? id = some (.mapping names child) := by
  have kind := attaches.inner
  rw [attaches.gate? upToDate]
  split
  · rename_i same
    subst same
    rw [gate?_of_node? attaches.found]
    constructor
    · intro renames
      rw [← kind_withChildren (parent.children ++ [target]), Option.some.inj renames] at kind
      simp [Gate.kind] at kind
    · intro renames
      rw [Option.some.inj renames] at kind
      simp [Gate.kind] at kind
  · exact Iff.rfl

/-- The new child is one of the parent, and there are no other new children. -/
theorem isOperand_iff {low high : NodeId}
    : d.IsOperand low high ↔ c.IsOperand low high ∨ low = target ∧ high = source := by
  have members (low : NodeId) : low ∈ (parent.gate.withChildren (parent.children ++ [target])).children
      ↔ low ∈ parent.gate.children ∨ low = target := by
    rw [children_withChildren attaches.inner, List.mem_append, List.mem_singleton]
    rfl
  have before := gate?_of_node? attaches.found
  simp only [IsOperand, attaches.gate? upToDate]
  by_cases same : source = high
  · subst same
    simp [before, members, kind_withChildren, attaches.inner]
  · simp [same, Ne.symm same]

/-- Leaves are not new. -/
theorem gate?_of_childless (found : d.gate? id = some gate) (childless : gate.children = [])
    : c.gate? id = some gate := by
  rw [attaches.gate? upToDate] at found
  split at found
  · rw [← Option.some.inj found, children_withChildren attaches.inner] at childless
    simp at childless
  · exact found

/-- What occurs below a node occurred there before, or it comes from the new child; induction on the occurrence. -/
theorem occurs_iff : d.Occurs w id ↔ c.Occurs w id ∨ ∃ v, c.Occurs v target ∧ c.Rises source v id w := by
  have operand {low high : NodeId} := @isOperand_iff _ _ _ _ _ attaches upToDate low high
  have old {id : NodeId} {u : Var} (occurs : c.Occurs u id) : d.Occurs u id := by
    refine occurs.transport (fun found other => ?_) fun found inner member below =>
      (operand.mpr (.inl ⟨_, found, inner, member⟩)).occurs below
    rw [attaches.gate? upToDate, if_neg fun same => other ?_, found]
    subst same
    exact Option.some.inj ((gate?_of_node? attaches.found).symm.trans found) ▸ attaches.inner
  constructor
  · intro occurs
    induction occurs with
    | leaf found childless mentioned =>
        exact .inl (.leaf (attaches.gate?_of_childless upToDate found childless) childless
          (mentions_of_childless childless mentioned))
    | child found inner member _ ih =>
        rcases operand.mp ⟨_, found, inner, member⟩ with before | ⟨rfl, rfl⟩
        · rcases ih with below | ⟨v, inside, rises⟩
          · exact .inl (before.occurs below)
          · exact .inr ⟨v, inside, .operand before rises⟩
        · rcases ih with below | ⟨v, inside, rises⟩
          · exact .inr ⟨_, below, .here⟩
          -- the new child is not above the parent, so nothing has changed below it
          · exact absurd (upToDate.toWired.mem_dominated attaches.present rises.path) attaches.safe
    | renamed found image _ ih =>
        rw [attaches.mapping_iff upToDate] at found
        rcases ih with below | ⟨v, inside, rises⟩
        · exact .inl (.renamed found image below)
        · exact .inr ⟨v, inside, .renamed found image rises⟩
  · rintro (occurs | ⟨v, inside, rises⟩)
    · exact old occurs
    · induction rises with
      | here => exact (operand.mpr (.inr ⟨rfl, rfl⟩)).occurs (old inside)
      | operand before _ ih => exact (operand.mpr (.inl before)).occurs ih
      | renamed found image _ ih => exact .renamed ((attaches.mapping_iff upToDate).mpr found) image ih

/-- After an edge has been added, the mapping nodes have all names that they need just if they had them before and the
new child was welcome.
-/
theorem covered_iff : d.Covered ↔ c.Covered ∧ c.Welcomes source target := by
  have later := (attaches.revises upToDate).upToDate
  constructor
  · intro covered
    have named {id child : NodeId} {names : Bijection} {w : Var} (found : c.gate? id = some (.mapping names child))
        (occurs : d.Occurs w child)
        : (names.toGlobal.find? w).isSome = true :=
      covered ((attaches.mapping_iff upToDate).mpr found) w (later.mem_varsOf_of_occurs occurs)
    refine ⟨fun found w inside => named found ?_, fun inside found rises => named found ?_⟩
    · exact (attaches.occurs_iff upToDate).mpr (.inl (upToDate.occurs inside))
    · exact (attaches.occurs_iff upToDate).mpr (.inr ⟨_, upToDate.occurs inside, rises⟩)
  · rintro ⟨covered, welcomes⟩ id names child found w inside
    have before := (attaches.mapping_iff upToDate).mp found
    rcases (attaches.occurs_iff upToDate).mp (later.occurs inside) with old | ⟨v, brought, rises⟩
    · exact covered before w (upToDate.mem_varsOf_of_occurs old)
    · exact welcomes (upToDate.mem_varsOf_of_occurs brought) before rises

end Attaches

end Circuit

-----------------------------------------------------------------------------------------
-- Requests
-----------------------------------------------------------------------------------------

namespace Request

open Circuit

variable {c : Circuit}

/-- The mapping nodes can name what a request brings into their sub-circuits. -/
def Welcome (c : Circuit) : Request → Prop
  | addEdge source target => c.Welcomes source target
  | _ => True

/-- What the requests of a run that succeed bring along is welcome when they come. -/
def AllWelcome : List Request → Journaled Circuit → Prop
  | [], _ => True
  | request :: rest, s =>
      match request.perform s with
      | .ok _ t => request.Welcome s.state ∧ AllWelcome rest t
      | .error (.error _) t => AllWelcome rest t
      | .error (.fault _) _ => True

/-- What a request does to a circuit: it adds nodes, or nothing changes but what nodes remember, or it adds an edge, or
it smooths.
-/
inductive Effect (c : Circuit) : Request → Prop
  | grows {request : Request} (welcome : request.Welcome c)
    (ensures : c.Wired → Ensures request.perform c (fun _ d => c.Enlarges d) c.Enlarges)
    : Effect c request
  | asks {request : Request} (welcome : request.Welcome c)
    (ensures : Ensures request.perform c (fun _ d => d.forget = c.forget) fun d => d.forget = c.forget)
    : Effect c request
  | addEdge (source target : NodeId) : Effect c (.addEdge source target)
  | smooth : Effect c .smooth

theorem Effect.of_grows {α : Type} {action : Build α} {post : α → Circuit → Prop} {request : Request}
    (grows : Grows c action post) (same : request.perform = discard action) (welcome : request.Welcome c)
    : Effect c request :=
  .grows welcome fun wired => same ▸ (grows.enlarges wired).discarded

theorem Effect.of_harmless {α : Type} {action : Build α} {request : Request} (harmless : Harmless action)
    (same : request.perform = discard action) (welcome : request.Welcome c)
    : Effect c request :=
  .asks welcome (same ▸ (harmless.ensures c).discarded)

theorem effect (c : Circuit) (request : Request) : request.Effect c := by
  cases request with
  | constant value => exact .of_grows (constant_grows value) rfl trivial
  | literal l => exact .of_grows (literal_grows l) rfl trivial
  | conjunction children => exact .of_grows (conjunction_grows children) rfl trivial
  | disjunction children v => exact .of_grows (disjunction_grows children v) rfl trivial
  | decision v high low => exact .of_grows (decision_grows v high low) rfl trivial
  | mapping child names => exact .of_grows (mapping_grows child names) rfl trivial
  | twoCnf formula => exact .of_grows (twoCnf_grows formula) rfl trivial
  | horn formula => exact .of_grows (horn_grows formula) rfl trivial
  | setSharing on => exact .grows trivial (setSharing_grows on).enlarges
  | setRoot id => exact .grows trivial (setRoot_grows id).enlarges
  | addEdge source target => exact .addEdge source target
  | smooth => exact .smooth
  | copy id names => exact .of_grows (copyWith_grows false id) rfl trivial
  | expandMappings => exact .grows trivial expandMappings_grows.enlarges
  | expandLeaves => exact .grows trivial expandLeaves_grows.enlarges
  | isSatisfiable visits id literals quantified memoize =>
      exact .of_harmless (isSatisfiableBy_harmless visits id literals quantified memoize) rfl trivial
  | entails id clause => exact .of_harmless (entails_harmless id clause) rfl trivial
  | modelCount id literals memoize => exact .of_harmless (modelCount_harmless id literals memoize) rfl trivial
  | modelCountOver id literals variableCount =>
      exact .of_harmless (modelCountOver_harmless id literals variableCount) rfl trivial
  | minimumCardinality id literals defaults memoize =>
      exact .of_harmless (minimumCardinality_harmless id literals defaults memoize) rfl trivial

end Request

namespace Circuit

variable {c : Circuit} {s t : Journaled Circuit} {requests : List Request}

/-- After a request all mapping nodes have the names that they need just if they had them before, and if the request
was welcome in case it succeeded.
-/
theorem Consistent.covered_step (consistent : c.Consistent) (request : Request)
    : Ensures request.perform c
        (fun _ d => d.InRange → c.InRange ∧ (d.Covered ↔ c.Covered ∧ request.Welcome c))
        fun d => d.InRange → c.InRange ∧ (d.Covered ↔ c.Covered) := by
  have upToDate := consistent.upToDate
  have unchanged {d : Circuit} (inRange : d.InRange → c.InRange) (covered : d.Covered ↔ c.Covered) {welcome : Prop}
      (holds : welcome)
      : d.InRange → c.InRange ∧ (d.Covered ↔ c.Covered ∧ welcome) := fun known =>
    ⟨inRange known, covered.trans (and_iff_left holds).symm⟩
  cases request.effect c with
  | grows welcome ensures =>
      have grown {d : Circuit} (larger : c.Enlarges d) : d.Covered ↔ c.Covered :=
        ⟨larger.extends_.covered upToDate.closed, larger.covered⟩
      refine (ensures upToDate.toWired).mono (fun _ d larger => ?_) fun d larger inRange => ?_
      · exact unchanged (larger.revises upToDate).inRange (grown larger) welcome
      · exact ⟨(larger.revises upToDate).inRange inRange, grown larger⟩
  | asks welcome ensures =>
      have alike {d : Circuit} (same : d.forget = c.forget) : d.Covered ↔ c.Covered :=
        ⟨fun covered => covered.of_bare fun id => (bare?_of_forget same id).symm,
          fun covered => covered.of_bare fun id => bare?_of_forget same id⟩
      refine ensures.mono (fun _ d same => ?_) fun d same inRange => ?_
      · exact unchanged (inRange_of_forget same) (alike same) welcome
      · exact ⟨inRange_of_forget same inRange, alike same⟩
  | addEdge source target =>
      refine (addEdge_spec upToDate source target).mono ?_ fun d same => ?_
      · rintro - d (⟨rfl, operand⟩ | ⟨parent, attaches⟩) inRange
        · exact ⟨inRange, fun covered => ⟨covered, upToDate.welcomes_operand covered operand⟩, And.left⟩
        · exact ⟨(attaches.revises upToDate).inRange inRange, attaches.covered_iff upToDate⟩
      · subst same
        exact fun inRange => ⟨inRange, Iff.rfl⟩
  | smooth =>
      by_cases known : c.InRange
      · refine Ensures.of_yields ((smooth_yields upToDate known).mono fun _ d smooths => ?_)
        exact unchanged (fun _ => known) smooths.covered_iff trivial
      · exact (smooth_ensures upToDate).mono (fun _ _ revises inRange => (known (revises.inRange inRange)).elim)
          fun _ revises inRange => (known (revises.inRange inRange)).elim

/-- Induction on the requests. -/
theorem Reachable.covered_iff (reachable : s.state.Reachable) (small : ∀ request ∈ requests, request.Small)
    (ran : Request.performAll requests s = some t) (inRange : t.state.InRange)
    : s.state.InRange ∧ (t.state.Covered ↔ s.state.Covered ∧ Request.AllWelcome requests s) := by
  induction requests generalizing s with
  | nil =>
      obtain rfl := Option.some.inj ran
      exact ⟨inRange, (and_iff_left trivial).symm⟩
  | cons request rest ih =>
      obtain ⟨here, later⟩ := List.forall_mem_cons.mp small
      have step := reachable.consistent.covered_step request s.journal
      rcases done : request.perform s with ⟨_, next⟩ | ⟨cause | cause, next⟩
      · simp only [Request.performAll, done] at ran
        obtain ⟨known, covered⟩ := ih (reachable.done here done) later ran
        rw [done] at step
        obtain ⟨before, first⟩ := step known
        refine ⟨before, ?_⟩
        rw [covered, first, Request.AllWelcome, done, and_assoc]
      · simp only [Request.performAll, done] at ran
        obtain ⟨known, covered⟩ := ih (reachable.refused here done) later ran
        rw [done] at step
        obtain ⟨before, first⟩ := step known
        refine ⟨before, ?_⟩
        rw [covered, first, Request.AllWelcome, done]
      · simp [Request.performAll, done] at ran

/-- After any run of requests all mapping nodes are complete just if they were complete before the run and each edge
that the run adds brings only variables that the mapping nodes above it can name. A complete mapping node has a name
for each variable of its child, has as many variables as the child, and passes on what a query says about each of them.
-/
theorem Reachable.complete_iff_welcome (reachable : s.state.Reachable) (small : ∀ request ∈ requests, request.Small)
    (ran : Request.performAll requests s = some t) (inRange : t.state.InRange)
    : (∀ {id names child}, t.state.gate? id = some (.mapping names child) → t.state.Complete id names child)
      ↔ (∀ {id names child}, s.state.gate? id = some (.mapping names child) → s.state.Complete id names child)
        ∧ Request.AllWelcome requests s := by
  have later := reachable.performAll small ran
  rw [← later.consistent.upToDate.covered_iff_complete, ← reachable.consistent.upToDate.covered_iff_complete]
  exact (reachable.covered_iff small ran inRange).2

/-- A run that adds a literal below a mapping node, which has a name for its variable. -/
def welcomedRun : List Request :=
  [.literal 1, .literal 2, .conjunction [0], .mapping 2 renamedPair, .addEdge 2 1]

/-- The state after that run. -/
def welcomed : Journaled Circuit := (Request.performAll welcomedRun { state := .empty }).get (by decide +kernel)

/-- The new edge is welcome, and the mapping node is complete. -/
theorem complete_iff_welcome_renamed
    : Request.AllWelcome welcomedRun { state := .empty }
      ∧ welcomed.state.gate? 3 = some (.mapping renamedPair 2)
      ∧ welcomed.state.Complete 3 renamedPair 2 := by
  have small : ∀ request ∈ welcomedRun, request.Small := by simp [welcomedRun, Request.Small]
  have ran : Request.performAll welcomedRun { state := .empty } = some welcomed := (Option.some_get _).symm
  have upToDate := (Reachable.empty.performAll small ran).consistent.upToDate
  have covered : welcomed.state.Covered := by decide +kernel
  have complete {id child : NodeId} {names : Bijection}
      (found : welcomed.state.gate? id = some (.mapping names child))
      : welcomed.state.Complete id names child :=
    upToDate.complete found (covered found)
  have equivalent := Reachable.empty.complete_iff_welcome small ran (by decide +kernel)
  have found : welcomed.state.gate? 3 = some (.mapping renamedPair 2) := by rfl
  exact ⟨(equivalent.mp complete).2, found, complete found⟩

/-- One variable renamed. -/
def renamedSingle : Bijection where
  toGlobal := .ofList [(1, 5)]
  toLocal := .ofList [(5, 1)]
  toLocal_eq := by decide
  injective := by decide

/-- A run that adds a literal below a mapping node, which has no name for its variable. -/
def unnamedRun : List Request :=
  [.literal 1, .literal 2, .conjunction [0], .mapping 2 renamedSingle, .addEdge 2 1]

/-- The state after that run. -/
def unnamed : Journaled Circuit := (Request.performAll unnamedRun { state := .empty }).get (by decide +kernel)

/-- The edge is added all the same. The mapping node keeps its single variable, and its child has two. -/
theorem edge_below_mapping_unchecked
    : (unnamed.state.Reachable ∧ unnamed.state.InRange)
      ∧ unnamed.state.gate? 3 = some (.mapping renamedSingle 2)
      ∧ (unnamed.state.varsOf 3).toList = [5]
      ∧ (unnamed.state.varsOf 2).toList = [1, 2]
      ∧ ¬ unnamed.state.Complete 3 renamedSingle 2 := by
  have reachable : unnamed.state.Reachable := by
    refine @Reachable.performAll unnamedRun { state := .empty } unnamed .empty ?_ (Option.some_get _).symm
    simp [unnamedRun, Request.Small]
  refine ⟨⟨reachable, by decide +kernel⟩, rfl, by decide +kernel, by decide +kernel, fun complete => ?_⟩
  have differ : (unnamed.state.varsOf 3).size ≠ (unnamed.state.varsOf 2).size := by decide +kernel
  exact differ complete.size

end Circuit

end KnowledgeCompiler
