import KnowledgeCompiler.Proofs.Circuit.Growth
import KnowledgeCompiler.Proofs.Circuit.Queries

/-! What requests may do to a circuit.

A request may change a circuit in any way, as long as each node that still remembers an answer has the
sub-circuit that it had when the answer was found. Then the answers stay right, if they were.
-/

namespace KnowledgeCompiler

open Relation
open KnowledgeCompiler.Build
open KnowledgeCompiler.Action (Ensures)

variable {c d : Circuit} {id : NodeId} {node : Node}

/-- An answer is known as well where the sub-circuit of its node is the same. -/
theorem Build.Walk.Knows.transport {β : Type} {walk : Walk β} {key : Restriction} {known : β}
    (knows : walk.Knows c id key known) (upToDate : c.UpToDate) (upToDate' : d.UpToDate)
    (present : id < c.nodes.size)
    (same : ∀ other, ReflTransGen c.IsChild other id → d.bare? other = c.bare? other)
    : walk.Knows d id key known := by
  intro literals marked admissible restricted
  rw [Circuit.varsOf_of_bare? (same id .refl)] at restricted
  obtain ⟨here, found⟩ := c.exists_node present
  obtain ⟨there, found', _⟩ := Circuit.node?_of_bare? (same id .refl) found
  let fuel := max (c.nodes.size + 1) (d.nodes.size + 1)
  have within : c.Within fuel id := (within_size upToDate id).mono (Nat.le_max_left _ _)
  have within' : d.Within fuel id := (within_size upToDate' id).mono (Nat.le_max_right _ _)
  calc
    walk.plain d id literals marked
    _ = walk.answer d fuel id literals marked :=
      (Walk.answer_eq_plain upToDate' (Circuit.lt_of_node? found') within').symm
    _ = walk.answer c fuel id literals marked := Walk.answer_transport same
    _ = walk.plain c id literals marked := Walk.answer_eq_plain upToDate present within
    _ = .ok known := knows admissible restricted

namespace Circuit

-----------------------------------------------------------------------------------------
-- Revisions
-----------------------------------------------------------------------------------------

/-- The second circuit is what a request may make of the first one. -/
structure Revises (c d : Circuit) : Prop where
  upToDate : d.UpToDate
  inRange : d.InRange → c.InRange
  rooted : c.Rooted → d.Rooted
  decided : c.Decided → d.Decided
  memos
    : ∀ {id node},
        d.node? id = some node
        → node.memo = {}
          ∨ ∃ old, c.node? id = some old ∧ node.memo = old.memo
            ∧ ∀ other, ReflTransGen c.IsChild other id → d.bare? other = c.bare? other

theorem Revises.refl (upToDate : c.UpToDate) : c.Revises c where
  upToDate := upToDate
  inRange known := known
  rooted known := known
  decided known := known
  memos {_ node} found := .inr ⟨node, found, rfl, fun _ _ => rfl⟩

/-- What is below a node exists. -/
theorem Closed.lt_of_below (closed : c.Closed) {other : NodeId} (below : ReflTransGen c.IsChild other id)
    (present : id < c.nodes.size)
    : other < c.nodes.size := by
  induction below using ReflTransGen.head_induction_on with
  | refl => exact present
  | head link _ _ =>
      obtain ⟨gate, found, member⟩ := link
      exact closed found _ member

theorem Enlarges.revises (larger : c.Enlarges d) (upToDate : c.UpToDate) : c.Revises d where
  upToDate := larger.upToDate upToDate
  inRange inRange := fun found => inRange (larger.extends_.gate? found)
  rooted := larger.rooted
  decided := larger.decided
  memos found := by
    rcases larger.memos found with ⟨old, there, memo⟩ | none_
    · refine .inr ⟨old, there, memo, fun other below => larger.extends_.bare? ?_⟩
      exact Closed.lt_of_below upToDate.closed below (lt_of_node? there)
    · exact .inl none_

-----------------------------------------------------------------------------------------
-- Circuits between requests
-----------------------------------------------------------------------------------------

/-- A circuit as it is between requests: the derived data and what is shown of the root are up to date,
decisions are on variables below, and the remembered answers are right, if all variables are in range.
-/
structure Consistent (c : Circuit) : Prop where
  upToDate : c.UpToDate
  rooted : c.Rooted
  decided : c.Decided
  memos : c.InRange → MemoSound c

theorem Consistent.empty : Circuit.empty.Consistent where
  upToDate := .empty
  rooted := .empty
  decided := .empty
  memos _ := by
    have none_ {id node} : Circuit.empty.node? id = some node → False := by simp [node?, Circuit.empty]
    exact ⟨fun found => (none_ found).elim, fun found => (none_ found).elim, fun found => (none_ found).elim⟩

/-- Requests keep a circuit consistent. -/
theorem Consistent.revise (consistent : c.Consistent) (revises : c.Revises d) : d.Consistent where
  upToDate := revises.upToDate
  rooted := revises.rooted consistent.rooted
  decided := revises.decided consistent.decided
  memos inRange := by
    have right := consistent.memos (revises.inRange inRange)
    have remembers {β : Type} {walk : Walk β} (before : walk.Remembers c c)
        (nothing : walk.field.table {} = [])
        : walk.Remembers d d := by
      intro id node key known found member
      rcases revises.memos found with none_ | ⟨old, there, memo, same⟩
      · rw [none_, nothing] at member
        exact absurd member List.not_mem_nil
      · rw [memo] at member
        exact Walk.Knows.transport (before there member) consistent.upToDate revises.upToDate
          (lt_of_node? there) same
    exact ⟨remembers right.satisfiable rfl, remembers right.modelCount rfl,
      remembers right.cardinality rfl⟩

-----------------------------------------------------------------------------------------
-- Queries
-----------------------------------------------------------------------------------------

/-- A circuit that differs only in what it remembers is wired alike. -/
theorem sameWiring_of_forget (same : d.forget = c.forget) : c.SameWiring d where
  nodes id := by
    have equal : (d.node? id).map Node.forget = (c.node? id).map Node.forget := by
      rw [← node?_forget, ← node?_forget, same]
    simpa [Function.comp_def, Node.forget] using
      congrArg (Option.map fun node => (node.gate, node.parents)) equal
  table := by
    have equal : d.forget.table = c.forget.table := by rw [same]
    exact equal

theorem UpToDate.of_forget (upToDate : c.UpToDate) (same : d.forget = c.forget) : d.UpToDate where
  toWired := upToDate.toWired.congr (sameWiring_of_forget same)
  derived id := (upToDate.derived id).congr (bare?_of_forget same id) fun child _ => bare?_of_forget same child

theorem Rooted.of_forget (rooted : c.Rooted) (same : d.forget = c.forget) : d.Rooted := by
  have root : d.forget.root = c.forget.root := by rw [same]
  have language : d.forget.language = c.forget.language := by rw [same]
  have size : d.forget.size = c.forget.size := by rw [same]
  have shown : c.SameRoot d := ⟨root, language, size⟩
  refine shown.rooted (fun {id node} found => ?_) rooted
  obtain ⟨other, there, _, summary⟩ := node?_of_bare? (bare?_of_forget same id) found
  exact ⟨other, there, summary⟩

theorem Decided.of_forget (decided : c.Decided) (same : d.forget = c.forget) : d.Decided := by
  have gates := (sameWiring_of_forget same).gate?
  have vars (id : NodeId) : d.varsOf id = c.varsOf id := varsOf_of_bare? (bare?_of_forget same id)
  refine ⟨fun found => decided.inhabited (gates _ ▸ found), fun found decides => ?_, fun inside => ?_⟩
  · exact vars _ ▸ decided.decides (gates _ ▸ found) decides
  · exact (decided.occurs (vars _ ▸ inside)).of_gates fun found => gates _ ▸ found

theorem inRange_of_forget (same : d.forget = c.forget) (inRange : d.InRange) : c.InRange := fun {id _} found =>
  inRange (((sameWiring_of_forget same).gate? id).trans found)

/-- After a query a circuit is consistent, if what is remembered besides is right. -/
theorem Consistent.ask (consistent : c.Consistent) (same : d.forget = c.forget)
    (right : c.InRange → RightMemos c d)
    : d.Consistent where
  upToDate := consistent.upToDate.of_forget same
  rooted := consistent.rooted.of_forget same
  decided := consistent.decided.of_forget same
  memos inRange := by
    have remembers {β : Type} {walk : Walk β} (before : walk.Remembers c d) : walk.Remembers d d := by
      intro id node key known found member
      exact Walk.Knows.transport (before found member) consistent.upToDate
        (consistent.upToDate.of_forget same) (size_of_forget same ▸ lt_of_node? found)
        fun other _ => bare?_of_forget same other
    have answers := right (inRange_of_forget same inRange)
    exact ⟨remembers answers.satisfiable, remembers answers.modelCount, remembers answers.cardinality⟩

end Circuit

-----------------------------------------------------------------------------------------
-- Queries change nothing but what is remembered
-----------------------------------------------------------------------------------------

namespace Build

variable {α β : Type}

/-- The action changes nothing but what nodes remember. -/
structure Harmless (action : Build α) : Prop where
  ensures : ∀ c, Ensures action c (fun _ d => d.forget = c.forget) fun d => d.forget = c.forget

namespace Harmless

variable {action : Build α} {next : α → Build β}

theorem pure (a : α) : Harmless (Pure.pure a : Build α) := ⟨fun _ => Ensures.pure rfl⟩

theorem throw (cause : Failure CircuitError) : Harmless (throw cause : Build α) where
  ensures c := by
    cases cause with
    | error cause => exact Ensures.fail rfl
    | fault cause => exact Ensures.fault

theorem bind (first : Harmless action) (second : ∀ a, Harmless (next a)) : Harmless (action >>= next) where
  ensures c := (first.ensures c).bind fun a d same => ((second a).ensures d).mono
    (fun _ _ same' => same'.trans same) fun _ same' => same'.trans same

theorem current {next : Circuit → Build β} (each : ∀ c, Harmless (next c))
    : Harmless (Action.current >>= next) := ⟨fun c => Ensures.current ((each c).ensures c)⟩

theorem checked {value : Checked α} (each : ∀ a, Harmless (next a))
    : Harmless ((liftM value : Build α) >>= next) :=
  ⟨fun c => Ensures.checked fun a _ => (each a).ensures c⟩

end Harmless

theorem node_harmless (id : NodeId) : Harmless (Build.node id) := by
  refine .current fun c => ?_
  split
  · exact .pure _
  · exact .throw _

theorem ofOutcome_harmless (result : Outcome α) : Harmless (ofOutcome result) := by
  cases result with
  | ok a => exact .pure a
  | error cause => exact .throw cause

theorem remembered_harmless {memoize : Bool} {walk : Walk β} {id : NodeId} {here : Node}
    {key : Restriction} {compute : Build β} (computed : Harmless compute)
    : Harmless (remembered memoize walk.field id here key compute) := by
  unfold remembered
  split
  · exact .pure _
  · refine computed.bind fun answer => ?_
    cases memoize with
    | false => exact .pure answer
    | true =>
        refine Harmless.bind ⟨fun c => Ensures.updated ?_⟩ fun _ => .pure answer
        exact forget_store

theorem combine_harmless {step : β → β → β × Bool} {value : NodeId → Build β} {ids : List NodeId}
    (each : ∀ id, Harmless (value id)) (start : β)
    : Harmless (combine step value ids start) := by
  induction ids generalizing start with
  | nil => exact .pure start
  | cons id rest ih =>
      refine (each id).bind fun answer => ?_
      dsimp only
      split
      · exact .pure _
      · exact ih _

/-- A walk only remembers; induction on the fuel. -/
theorem run_harmless (walk : Walk β) (memoize : Bool) (fuel : Nat) (id : NodeId) (literals : List Lit)
    (marked : List Var)
    : Harmless (walk.run memoize fuel id literals marked) := by
  induction fuel generalizing id literals marked with
  | zero => exact .throw _
  | succ fuel ih =>
      refine (node_harmless id).bind fun here => ?_
      have inner {compute : Build β} (computed : Harmless compute)
          : Harmless (do
              ofOutcome (walk.check id here.throughout)
              let key ← Restriction.of here.vars literals marked
              remembered memoize walk.field id here key compute) :=
        (ofOutcome_harmless _).bind fun _ => .checked fun key => remembered_harmless computed
      dsimp only
      split
      · exact inner (.checked fun translated => ih _ _ _)
      · exact inner (combine_harmless (fun child => ih child literals marked) _)
      · exact inner (combine_harmless (fun child => ih child literals marked) _)
      · exact ofOutcome_harmless _

theorem checkAssumption_harmless (literals : List Lit) : Harmless (checkAssumption literals) := by
  refine .checked fun found => ?_
  cases found with
  | some l => exact .throw _
  | none => exact .pure ()

theorem depthBound_harmless : Harmless depthBound := .current fun _ => .pure _

theorem isSatisfiableBy_harmless (visits : VisitOrder Var) (id : NodeId) (literals : List Lit) (quantified : List Var)
    (memoize : Bool)
    : Harmless (isSatisfiableBy visits id literals quantified memoize) := by
  refine (checkAssumption_harmless literals).bind fun _ => .checked fun found => ?_
  cases found with
  | some v => exact .throw _
  | none =>
      refine depthBound_harmless.bind fun bound => ?_
      rw [satWithin_eq_run]
      exact run_harmless satisfiableWalk memoize bound id literals quantified

theorem modelCount_harmless (id : NodeId) (literals : List Lit) (memoize : Bool)
    : Harmless (modelCount id literals memoize) := by
  refine (checkAssumption_harmless literals).bind fun _ => (node_harmless id).bind fun here => ?_
  have counted : Harmless (do countWithin memoize (← depthBound) id literals) := by
    refine depthBound_harmless.bind fun bound => ?_
    rw [countWithin_eq_run]
    exact run_harmless countWalk memoize bound id literals []
  dsimp only
  obtain ⟨decomposable, deterministic, smooth⟩ := here.throughout
  cases decomposable with
  | false => exact .throw _
  | true =>
      cases deterministic with
      | false => exact .throw _
      | true =>
          cases smooth with
          | false => exact .throw _
          | true => exact counted

theorem minimumCardinality_harmless (id : NodeId) (observation : List Lit) (defaults : List Var)
    (memoize : Bool)
    : Harmless (minimumCardinality id observation defaults memoize) := by
  refine (checkAssumption_harmless observation).bind fun _ => (node_harmless id).bind fun here => ?_
  have walked : Harmless (do cardinalityWithin memoize (← depthBound) id observation defaults) := by
    refine depthBound_harmless.bind fun bound => ?_
    rw [cardinalityWithin_eq_run]
    exact run_harmless cardinalityWalk memoize bound id observation defaults
  dsimp only
  obtain ⟨decomposable, _, _⟩ := here.throughout
  cases decomposable with
  | false => exact .throw _
  | true => exact walked

theorem modelCountOver_harmless (id : NodeId) (literals : List Lit) (variableCount : Nat)
    : Harmless (modelCountOver id literals variableCount) :=
  (modelCount_harmless id literals true).bind fun _ => (node_harmless id).bind fun _ => .pure _

theorem entails_harmless (id : NodeId) (clause : Clause) : Harmless (entails id clause) := by
  refine .checked fun tautological => ?_
  split
  · exact .pure true
  · exact .checked fun negated => (isSatisfiableBy_harmless .asListed id negated [] true).bind fun _ => .pure _

end Build

end KnowledgeCompiler
