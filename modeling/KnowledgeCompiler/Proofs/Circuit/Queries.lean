import KnowledgeCompiler.Proofs.Circuit.Memory
import KnowledgeCompiler.Proofs.Formula

/-! What queries come to.

A query first checks its arguments and what it asks of the node, and then walks down from there. What it
comes to is stated without the answers that nodes remember.
-/

namespace KnowledgeCompiler.Build

open KnowledgeCompiler.Action (Computes)

variable {c : Circuit} {id : NodeId} {literals : List Lit} {marked : List Var}

-----------------------------------------------------------------------------------------
-- Assumptions
-----------------------------------------------------------------------------------------

/-- The first literal whose complement is in the list as well. -/
def complemented? (literals : List Lit) : Option Lit := literals.find? fun l => literals.contains (-l)

/-- The outcome of the check of an assumption. -/
def assumable (literals : List Lit) : Outcome Unit :=
  match complemented? literals with
  | some l => .error (.error (.complementaryLiterals l.var))
  | none => .ok ()

theorem negate_of_small {l : Lit} (small : l.var < 2147483648) : Lit.negate l = .ok (-l) := by
  refine Lit.negate_eq_ok ?_
  unfold Lit.var at small
  unfold Lit.least
  grind

/-- The search for a complementary pair succeeds; induction on the literals that are left. -/
theorem complementary?_ok {all rest : List Lit} (small : ∀ l ∈ rest, l.var < 2147483648)
    : complementary? all rest = .ok (rest.find? fun l => all.contains (-l)) := by
  induction rest with
  | nil => rfl
  | cons l rest ih =>
      obtain ⟨here, later⟩ := List.forall_mem_cons.mp small
      rw [complementary?, negate_of_small here, List.find?_cons]
      cases found : all.contains (-l) with
      | true =>
          simp only [bind, Except.bind, found, if_true]
          rfl
      | false => simp only [bind, Except.bind, found, ih later, Bool.false_eq_true, if_false]

theorem complemented?_eq_none : complemented? literals = none ↔ ∀ l ∈ literals, ¬ -l ∈ literals := by
  simp [complemented?, List.find?_eq_none]

/-- Literals that pass the check can be assumed. -/
theorem admissible_of_assumable (small : ∀ l ∈ literals, l.var < 2147483648)
    (passed : assumable literals = .ok ())
    : Admissible literals := by
  have none : complemented? literals = none := by
    unfold assumable at passed
    split at passed
    · cases passed
    · assumption
  have consistent := complemented?_eq_none.mp none
  refine ⟨fun l member => ⟨?_, small l member⟩, consistent⟩
  rintro rfl
  exact consistent 0 member member

theorem checkAssumption_computes {inv : Circuit → Prop} (small : ∀ l ∈ literals, l.var < 2147483648)
    : Computes inv (checkAssumption literals) (assumable literals) := by
  unfold checkAssumption assumable complemented?
  rw [complementary?_ok small]
  cases literals.find? fun l => literals.contains (-l) with
  | some l => exact .throw _
  | none => exact .pure ()

-----------------------------------------------------------------------------------------
-- Queries
-----------------------------------------------------------------------------------------

/-- What satisfiability comes to. -/
def satisfiableOutcome (visits : VisitOrder Var) (c : Circuit) (id : NodeId) (literals : List Lit)
    (quantified : List Var)
    : Outcome Bool := do
  assumable literals
  match ← Outcome.ofChecked (assumed? literals (visits.visit (SortedSet.ofList quantified).toList)) with
  | some v => .error (.error (.assumptionNotDisjoint v))
  | none => satisfiableWalk.plain c id literals quantified

/-- Stops at the first of the properties for counting that a node lacks. -/
def countable (id : NodeId) (properties : Properties) : Outcome Unit :=
  if !properties.decomposable then .error (.error (.notDecomposable id))
  else if !properties.deterministic then .error (.error (.notDeterministic id))
  else if !properties.smooth then .error (.error (.notSmooth id))
  else .ok ()

/-- What counting models comes to. -/
def countOutcome (c : Circuit) (id : NodeId) (literals : List Lit) : Outcome Nat := do
  assumable literals
  match c.node? id with
  | none => .error (.error (.nodeNotFound id))
  | some here => do
      countable id here.throughout
      countWalk.plain c id literals []

/-- What the minimum default cardinality comes to. -/
def cardinalityOutcome (c : Circuit) (id : NodeId) (literals : List Lit) (defaults : List Var)
    : Outcome (Option Nat) := do
  assumable literals
  match c.node? id with
  | none => .error (.error (.nodeNotFound id))
  | some here => do
      if here.throughout.decomposable then .ok () else .error (.error (.notDecomposable id))
      cardinalityWalk.plain c id literals defaults

/-- What entailment of a clause comes to. -/
def entailsOutcome (c : Circuit) (id : NodeId) (clause : Clause) : Outcome Bool :=
  if clause.any fun l => clause.contains (-l) then .ok true
  else do return !(← satisfiableOutcome .asListed c id (clause.map (- ·)) [])

/-- Number of variables up to a bound that neither a node nor literals mention. -/
def freeCount (c : Circuit) (id : NodeId) (literals : List Lit) (variableCount : Nat) : Nat :=
  variableCount - ((c.varsOf id).union (SortedSet.ofList (literals.map Lit.var))).toList.countP
    fun v => 1 ≤ v && v ≤ variableCount

/-- What counting models over the variables up to a bound comes to. -/
def countOverOutcome (c : Circuit) (id : NodeId) (literals : List Lit) (variableCount : Nat)
    : Outcome Nat := do
  return (← countOutcome c id literals) <<< freeCount c id literals variableCount

/-- Paths from a node are not longer than the circuit has nodes. -/
theorem within_size (upToDate : c.UpToDate) (id : NodeId) : c.Within (c.nodes.size + 1) id := by
  by_cases present : id < c.nodes.size
  · exact (upToDate.acyclic.within upToDate.closed present).mono (Nat.le_succ _)
  · rintro child ⟨gate, found, -⟩
    exact absurd (Circuit.lt_of_gate? found) present

/-- A bound that is read from the circuit is the same whatever is remembered. -/
theorem computes_depthBound {β : Type} {next : Nat → Build β} {result : Outcome β}
    (computed : Computes (Asked c) (next (c.nodes.size + 1)) result)
    : Computes (Asked c) (depthBound >>= next) result := by
  unfold depthBound
  rw [bind_assoc]
  refine .current fun d asked => ?_
  rw [Circuit.size_of_forget asked.same]
  exact computed

section Outcomes

variable (upToDate : c.UpToDate) (inRange : c.InRange) (memoize : Bool)
variable (small : ∀ l ∈ literals, l.var < 2147483648)

include upToDate inRange small

/-- What satisfiability comes to does not depend on what is remembered. -/
theorem isSatisfiableBy_computes (visits : VisitOrder Var)
    : Computes (Asked c) (isSatisfiableBy visits id literals marked memoize)
        (satisfiableOutcome visits c id literals marked) := by
  refine (checkAssumption_computes small).bind fun _ passed => ?_
  have admissible := admissible_of_assumable small passed
  have checked : Computes (Asked c)
      (liftM (assumed? literals (visits.visit (SortedSet.ofList marked).toList)) : Build (Option Var))
      (Outcome.ofChecked (assumed? literals (visits.visit (SortedSet.ofList marked).toList))) := by
    cases assumed? literals (visits.visit (SortedSet.ofList marked).toList) with
    | ok found => exact .pure found
    | error cause => exact .throw _
  refine checked.bind fun found _ => ?_
  cases found with
  | some v => exact .throw _
  | none =>
      refine computes_depthBound ?_
      rw [satWithin_eq_run]
      exact run_computes satisfiableWalk_faithful upToDate inRange memoize (within_size upToDate id)
        admissible

/-- What counting comes to does not depend on what is remembered. -/
theorem modelCount_computes
    : Computes (Asked c) (modelCount id literals memoize) (countOutcome c id literals) := by
  refine (checkAssumption_computes small).bind fun _ passed => ?_
  have admissible := admissible_of_assumable small passed
  cases found : c.node? id with
  | none => exact computes_node_missing found
  | some here =>
      refine computes_node found fun {d there} asked _ _ summary => ?_
      have throughout : there.throughout = here.throughout := congrArg Summary.throughout summary
      have counted : Computes (Asked c) (do countWithin memoize (← depthBound) id literals)
          (countWalk.plain c id literals []) := by
        refine computes_depthBound ?_
        rw [countWithin_eq_run]
        exact run_computes countWalk_faithful upToDate inRange memoize (within_size upToDate id) admissible
      dsimp only
      rw [throughout]
      unfold countable
      obtain ⟨decomposable, deterministic, smooth⟩ := here.throughout
      cases decomposable with
      | false => exact .throw _
      | true =>
          cases deterministic with
          | false => exact .throw _
          | true =>
              cases smooth with
              | false => exact .throw _
              | true => exact counted

/-- What the minimum default cardinality comes to does not depend on what is remembered. -/
theorem minimumCardinality_computes
    : Computes (Asked c) (minimumCardinality id literals marked memoize)
        (cardinalityOutcome c id literals marked) := by
  refine (checkAssumption_computes small).bind fun _ passed => ?_
  have admissible := admissible_of_assumable small passed
  cases found : c.node? id with
  | none => exact computes_node_missing found
  | some here =>
      refine computes_node found fun {d there} asked _ _ summary => ?_
      have throughout : there.throughout = here.throughout := congrArg Summary.throughout summary
      have walked : Computes (Asked c) (do cardinalityWithin memoize (← depthBound) id literals marked)
          (cardinalityWalk.plain c id literals marked) := by
        refine computes_depthBound ?_
        rw [cardinalityWithin_eq_run]
        exact run_computes cardinalityWalk_faithful upToDate inRange memoize (within_size upToDate id)
          admissible
      dsimp only
      rw [throughout]
      obtain ⟨decomposable, _, _⟩ := here.throughout
      cases decomposable with
      | false => exact .throw _
      | true => exact walked

/-- What counting up to a bound comes to does not depend on what is remembered. -/
theorem modelCountOver_computes (variableCount : Nat)
    : Computes (Asked c) (modelCountOver id literals variableCount)
        (countOverOutcome c id literals variableCount) := by
  refine (modelCount_computes upToDate inRange true small).bind fun count counted => ?_
  cases found : c.node? id with
  | none =>
      -- the count would have stopped already
      unfold countOutcome at counted
      rw [found] at counted
      cases passed : assumable literals with
      | ok _ => simp [passed, bind, Except.bind] at counted
      | error cause => simp [passed, bind, Except.bind] at counted
  | some here =>
      refine computes_node found fun _ _ _ summary => ?_
      have vars : Node.vars _ = c.varsOf id :=
        (congrArg Summary.vars summary).trans (Circuit.varsOf_of_node? found).symm
      unfold freeCount
      rw [vars]
      exact .pure _

end Outcomes

/-- What entailment comes to does not depend on what is remembered. -/
theorem entails_computes {clause : Clause} (upToDate : c.UpToDate) (inRange : c.InRange)
    (proper : ∀ l ∈ clause, l.Proper)
    : Computes (Asked c) (entails id clause) (entailsOutcome c id clause) := by
  have negated : clause.mapM Lit.negate = .ok (clause.map (- ·)) :=
    Checked.mapM_ok fun l member => (proper l member).negate
  have small : ∀ l ∈ clause.map (- ·), Lit.var l < 2147483648 := by
    intro l member
    obtain ⟨k, inside, rfl⟩ := List.mem_map.mp member
    exact (proper k inside).neg.2
  have asked : Computes (Asked c) (do return !(← isSatisfiable id (clause.map (- ·)) [] true))
      (do return !(← satisfiableOutcome .asListed c id (clause.map (- ·)) [])) :=
    (isSatisfiableBy_computes upToDate inRange true small .asListed).bind fun answer _ => .pure _
  unfold entails entailsOutcome
  rw [hasComplements_ok proper, negated]
  show Computes (Asked c) (if _ then _ else _) _
  split
  · exact .pure true
  · exact asked

end KnowledgeCompiler.Build
