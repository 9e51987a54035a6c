import KnowledgeCompiler.Proofs.Circuit.CopyGrowth
import KnowledgeCompiler.Proofs.Circuit.Reading
import KnowledgeCompiler.Proofs.Circuit.SmoothRevision

/-! Runs of requests.

A circuit is empty at first or read from a text; then requests that change it and queries come in any
order, and some of them fail. Whatever they are, the derived data of each node fit its gate afterwards, no
path leads back to where it began, and the nodes remember right answers.
-/

namespace KnowledgeCompiler

open KnowledgeCompiler.Build
open KnowledgeCompiler.Action (Ensures Computes)

/-- What can be asked of a circuit. -/
inductive Request where
  | constant (value : Bool)
  | literal (l : Lit)
  | conjunction (children : List NodeId)
  | disjunction (children : List NodeId) (decision : Option Var)
  | decision (v : Var) (high low : NodeId)
  | mapping (child : NodeId) (names : Bijection)
  | twoCnf (formula : TwoCnf)
  | horn (formula : Horn)
  | setSharing (on : Bool)
  | setRoot (id : NodeId)
  | addEdge (source target : NodeId)
  | smooth
  | copy (id : NodeId) (names : Renaming)
  | expandMappings
  | expandLeaves
  | isSatisfiable (visits : VisitOrder Var) (id : NodeId) (assumption : List Lit) (quantified : List Var)
    (memoize : Bool)
  | entails (id : NodeId) (clause : Clause)
  | modelCount (id : NodeId) (assumption : List Lit) (memoize : Bool)
  | modelCountOver (id : NodeId) (assumption : List Lit) (variableCount : Nat)
  | minimumCardinality (id : NodeId) (observation : List Lit) (defaults : List Var) (memoize : Bool)

namespace Request

/-- Does what is asked, without its result. -/
def perform : Request → Build Unit
  | constant value => discard (Build.constant value)
  | literal l => discard (Build.literal l)
  | conjunction children => discard (Build.conjunction children)
  | disjunction children v => discard (Build.disjunction children v)
  | decision v high low => discard (Build.decision v high low)
  | mapping child names => discard (Build.mapping child names)
  | twoCnf formula => discard (Build.twoCnf formula)
  | horn formula => discard (Build.horn formula)
  | setSharing on => Build.setSharing on
  | setRoot id => Build.setRoot id
  | addEdge source target => Build.addEdge source target
  | smooth => Build.smooth
  | copy id names => discard (Build.copy id names)
  | expandMappings => Build.expandMappings
  | expandLeaves => Build.expandLeaves
  | isSatisfiable visits id assumption quantified memoize =>
      discard (Build.isSatisfiableBy visits id assumption quantified memoize)
  | entails id clause => discard (Build.entails id clause)
  | modelCount id assumption memoize => discard (Build.modelCount id assumption memoize)
  | modelCountOver id assumption variableCount =>
      discard (Build.modelCountOver id assumption variableCount)
  | minimumCardinality id observation defaults memoize =>
      discard (Build.minimumCardinality id observation defaults memoize)

/-- Does what is asked in turn, also after a request that is refused. A fault ends the run. -/
def performAll : List Request → Journaled Circuit → Option (Journaled Circuit)
  | [], s => some s
  | request :: rest, s =>
      match request.perform s with
      | .ok _ t | .error (.error _) t => performAll rest t
      | .error (.fault _) _ => none

/-- The literals of a query are in range. -/
def Small : Request → Prop
  | isSatisfiable _ _ literals _ _ | modelCount _ literals _ | modelCountOver _ literals _
  | minimumCardinality _ literals _ _ => ∀ l ∈ literals, l.var < 2147483648
  | entails _ clause => ∀ l ∈ clause, l.Proper
  | _ => True

end Request

namespace Circuit

variable {c d : Circuit}

/-- The circuits between requests. A request ends with a result or with an error; after a fault no request
follows.
-/
inductive Reachable : Circuit → Prop
  | empty : Reachable .empty
  | read {lines : List (Option (List Char))} {journal : Journal} {s : Journaled Circuit}
    (done : Nnf.readAll lines ⟨.empty, journal⟩ = .ok () s)
    : Reachable s.state
  | done {request : Request} {s t : Journaled Circuit} (before : Reachable s.state)
    (small : request.Small) (ran : request.perform s = .ok () t)
    : Reachable t.state
  | refused {request : Request} {s t : Journaled Circuit} {cause : CircuitError}
    (before : Reachable s.state) (small : request.Small) (ran : request.perform s = .error (.error cause) t)
    : Reachable t.state

-----------------------------------------------------------------------------------------
-- What one request keeps
-----------------------------------------------------------------------------------------

section Step

variable {α : Type} {action : Build α} {post : α → Circuit → Prop}

/-- From the circuit on, the action leads to consistent circuits. -/
structure Preserves (c : Circuit) (action : Build α) : Prop where
  ensures : Ensures action c (fun _ d => d.Consistent) Consistent

theorem Preserves.discarded (preserves : c.Preserves action) : c.Preserves (discard action) :=
  ⟨preserves.ensures.discarded⟩

theorem Consistent.preserves_of_revises (consistent : c.Consistent)
    (revises : Ensures action c (fun _ d => c.Revises d) c.Revises)
    : c.Preserves action :=
  ⟨revises.mono (fun _ _ => consistent.revise) fun _ => consistent.revise⟩

/-- Adding nodes keeps a circuit consistent. -/
theorem Consistent.preserves_of_grows (consistent : c.Consistent) (grows : Grows c action post)
    : c.Preserves action :=
  consistent.preserves_of_revises ((grows.ensures consistent.upToDate.toWired).mono
    (fun _ _ done => done.1.revises consistent.upToDate) fun _ larger => larger.revises consistent.upToDate)

/-- Queries keep a circuit consistent. -/
theorem Consistent.preserves_of_computes (consistent : c.Consistent) (harmless : Harmless action)
    {result : Outcome α} (computes : c.InRange → Computes (Asked c) action result)
    : c.Preserves action := by
  have right : Ensures action c (fun _ d => c.InRange → RightMemos c d) fun d => c.InRange → RightMemos c d := by
    by_cases inRange : c.InRange
    · exact ((computes inRange).ensures ⟨rfl, consistent.memos inRange⟩).mono
        (fun _ _ asked _ => asked.right) fun _ asked _ => asked.right
    · exact (harmless.ensures c).mono (fun _ _ _ holds => (inRange holds).elim)
        fun _ _ holds => (inRange holds).elim
  exact ⟨((harmless.ensures c).and right).mono (fun _ _ done => consistent.ask done.1 done.2)
    fun _ done => consistent.ask done.1 done.2⟩

/-- A request keeps a circuit consistent. -/
theorem Consistent.preserves (consistent : c.Consistent) (request : Request) (small : request.Small)
    : c.Preserves request.perform := by
  have upToDate := consistent.upToDate
  cases request with
  | constant value => exact (consistent.preserves_of_grows (constant_grows value)).discarded
  | literal l => exact (consistent.preserves_of_grows (literal_grows l)).discarded
  | conjunction children => exact (consistent.preserves_of_grows (conjunction_grows children)).discarded
  | disjunction children v => exact (consistent.preserves_of_grows (disjunction_grows children v)).discarded
  | decision v high low => exact (consistent.preserves_of_grows (decision_grows v high low)).discarded
  | mapping child names => exact (consistent.preserves_of_grows (mapping_grows child names)).discarded
  | twoCnf formula => exact (consistent.preserves_of_grows (twoCnf_grows formula)).discarded
  | horn formula => exact (consistent.preserves_of_grows (horn_grows formula)).discarded
  | setSharing on => exact consistent.preserves_of_grows (setSharing_grows on)
  | setRoot id => exact consistent.preserves_of_grows (setRoot_grows id)
  | addEdge source target => exact consistent.preserves_of_revises (addEdge_ensures upToDate source target)
  | smooth => exact consistent.preserves_of_revises (smooth_ensures upToDate)
  | copy id names => exact (consistent.preserves_of_grows (copyWith_grows false id)).discarded
  | expandMappings => exact consistent.preserves_of_grows expandMappings_grows
  | expandLeaves => exact consistent.preserves_of_grows expandLeaves_grows
  | isSatisfiable visits id literals quantified memoize =>
      exact (consistent.preserves_of_computes (isSatisfiableBy_harmless visits id literals quantified memoize)
        fun inRange => isSatisfiableBy_computes upToDate inRange memoize small visits).discarded
  | entails id clause =>
      exact (consistent.preserves_of_computes (entails_harmless id clause)
        fun inRange => entails_computes upToDate inRange small).discarded
  | modelCount id literals memoize =>
      exact (consistent.preserves_of_computes (modelCount_harmless id literals memoize)
        fun inRange => modelCount_computes upToDate inRange memoize small).discarded
  | modelCountOver id literals variableCount =>
      exact (consistent.preserves_of_computes (modelCountOver_harmless id literals variableCount)
        fun inRange => modelCountOver_computes upToDate inRange small variableCount).discarded
  | minimumCardinality id literals defaults memoize =>
      exact (consistent.preserves_of_computes (minimumCardinality_harmless id literals defaults memoize)
        fun inRange => minimumCardinality_computes upToDate inRange memoize small).discarded

end Step

-----------------------------------------------------------------------------------------
-- What runs keep
-----------------------------------------------------------------------------------------

/-- Circuits between requests are consistent; induction on the run. -/
theorem Reachable.consistent (reachable : c.Reachable) : c.Consistent := by
  induction reachable with
  | empty => exact .empty
  | @read lines journal s done =>
      have ended := (Consistent.empty.preserves_of_grows (Nnf.readAll_grows lines)).ensures journal
      rw [done] at ended
      exact ended
  | @done request s t _ small ran ih =>
      have ended := (ih.preserves request small).ensures s.journal
      rw [ran] at ended
      exact ended
  | @refused request s t cause _ small ran ih =>
      have ended := (ih.preserves request small).ensures s.journal
      rw [ran] at ended
      exact ended

/-- Runs lead from reachable circuits to reachable ones; induction on the requests. -/
theorem Reachable.performAll {requests : List Request} {s t : Journaled Circuit}
    (reachable : s.state.Reachable) (small : ∀ request ∈ requests, request.Small)
    (ran : Request.performAll requests s = some t)
    : t.state.Reachable := by
  induction requests generalizing s with
  | nil => exact Option.some.inj ran ▸ reachable
  | cons request rest ih =>
      obtain ⟨here, later⟩ := List.forall_mem_cons.mp small
      unfold Request.performAll at ran
      split at ran
      · rename_i done
        exact ih (reachable.done here done) later ran
      · rename_i refused
        exact ih (reachable.refused here refused) later ran
      · cases ran

/-- Between requests nothing but right answers is remembered, if all numbers are in range. -/
theorem Reachable.asked (reachable : c.Reachable) (inRange : c.InRange) : Asked c c :=
  ⟨rfl, reachable.consistent.memos inRange⟩

end Circuit

end KnowledgeCompiler
