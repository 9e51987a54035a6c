import KnowledgeCompiler.Circuit.Query
import KnowledgeCompiler.Proofs.Circuit.Flags

/-! Queries as walks down a circuit.

The three queries differ in what they ask of a node, in their answers at leaves, and in how they combine the
answers of children; otherwise they are the same walk. The plain answer of a walk is what it computes
without remembering anything. It depends on the gates and derived data below a node, and on what the query
says about the variables of the node.
-/

namespace KnowledgeCompiler

/-- What a query comes to: an answer, or why there is none. -/
abbrev Outcome (β : Type) := Except (Failure CircuitError) β

/-- The outcome of a checked computation. -/
def Outcome.ofChecked {β : Type} : Checked β → Outcome β
  | .ok b => .ok b
  | .error cause => .error (.fault cause)

namespace Build

variable {β : Type}

/-- The action that comes to a given outcome. -/
def ofOutcome : Outcome β → Build β
  | .ok b => pure b
  | .error cause => throw cause

/-- Combines the values of nodes from the left until a step says that the rest does not matter. -/
def combine {m : Type → Type} [Monad m] (step : β → β → β × Bool) (value : NodeId → m β)
    : List NodeId → β → m β
  | [], sum => pure sum
  | child :: rest, sum => do
      let next := step sum (← value child)
      if next.2 then pure next.1 else combine step value rest next.1

/-- What makes up a kind of query. -/
structure Walk (β : Type) where
  /-- Where nodes remember the answers. -/
  field : MemoField β
  /-- What is asked of an inner node. -/
  check : NodeId → Properties → Outcome Unit
  /-- The answer at a leaf with these variables. -/
  leaf : NodeId → Gate → SortedSet Var → List Lit → List Var → Outcome β
  /-- The answer of a conjunction without children. -/
  unit : β
  /-- How a conjunction adds the answer of a child. -/
  conjoin : β → β → β × Bool
  /-- The answer of a disjunction without children. -/
  zero : β
  /-- How a disjunction adds the answer of a child. -/
  disjoin : β → β → β × Bool

namespace Walk

/-- Walks down from a node and remembers answers if that is wanted. -/
def run (walk : Walk β) (memoize : Bool) : Nat → NodeId → List Lit → List Var → Build β
  | 0, _, _, _ => throw (.fault .exhausted)
  | fuel + 1, id, literals, marked => do
      let here ← node id
      let inner (compute : Build β) : Build β := do
        ofOutcome (walk.check id here.throughout)
        let key ← Restriction.of here.vars literals marked
        remembered memoize walk.field id here key compute
      match here.gate with
      | .mapping names child => inner do
          let translated ← names.toLocal.literals literals
          walk.run memoize fuel child translated (marked.filterMap names.toLocal.find?)
      | .and children =>
          inner (combine walk.conjoin (walk.run memoize fuel · literals marked) children walk.unit)
      | .or _ children =>
          inner (combine walk.disjoin (walk.run memoize fuel · literals marked) children walk.zero)
      | gate => ofOutcome (walk.leaf id gate here.vars literals marked)

/-- The plain answer at a node. -/
def answer (walk : Walk β) (c : Circuit) : Nat → NodeId → List Lit → List Var → Outcome β
  | 0, _, _, _ => .error (.fault .exhausted)
  | fuel + 1, id, literals, marked =>
      match c.node? id with
      | none => .error (.error (.nodeNotFound id))
      | some here =>
          match here.gate with
          | .mapping names child => do
              walk.check id here.throughout
              walk.answer c fuel child (literals.filterMap names.toLocal.image)
                (marked.filterMap names.toLocal.find?)
          | .and children => do
              walk.check id here.throughout
              combine walk.conjoin (walk.answer c fuel · literals marked) children walk.unit
          | .or _ children => do
              walk.check id here.throughout
              combine walk.disjoin (walk.answer c fuel · literals marked) children walk.zero
          | gate => walk.leaf id gate here.vars literals marked

section Equations

variable {walk : Walk β} {c : Circuit} {id : NodeId} {here : Node} {children : List NodeId}
variable {fuel : Nat} {literals : List Lit} {marked : List Var}

theorem answer_missing (missing : c.node? id = none)
    : walk.answer c (fuel + 1) id literals marked = .error (.error (.nodeNotFound id)) := by
  rw [answer, missing]

theorem answer_and (found : c.node? id = some here) (gate : here.gate = .and children)
    : walk.answer c (fuel + 1) id literals marked = (do
        walk.check id here.throughout
        combine walk.conjoin (walk.answer c fuel · literals marked) children walk.unit) := by
  rw [answer, found]
  dsimp only
  rw [gate]

theorem answer_or {decision : Option Var} (found : c.node? id = some here)
    (gate : here.gate = .or decision children)
    : walk.answer c (fuel + 1) id literals marked = (do
        walk.check id here.throughout
        combine walk.disjoin (walk.answer c fuel · literals marked) children walk.zero) := by
  rw [answer, found]
  dsimp only
  rw [gate]

theorem answer_mapping {names : Bijection} {child : NodeId} (found : c.node? id = some here)
    (gate : here.gate = .mapping names child)
    : walk.answer c (fuel + 1) id literals marked = (do
        walk.check id here.throughout
        walk.answer c fuel child (literals.filterMap names.toLocal.image)
          (marked.filterMap names.toLocal.find?)) := by
  rw [answer, found]
  dsimp only
  rw [gate]

theorem answer_leaf (found : c.node? id = some here) (leaf : here.kind.isInner = false)
    : walk.answer c (fuel + 1) id literals marked = walk.leaf id here.gate here.vars literals marked := by
  rw [answer, found]
  dsimp only
  cases gate : here.gate with
  | and children | or decision children | mapping names child =>
      rw [Node.kind, gate] at leaf
      cases leaf
  | constant value | literal l | twoCnf formula | horn formula => rfl

end Equations

end Walk

-----------------------------------------------------------------------------------------
-- The three walks
-----------------------------------------------------------------------------------------

/-- The literals over some variables. -/
def within (vars : SortedSet Var) (literals : List Lit) : List Lit :=
  literals.filter fun l => vars.contains l.var

/-- Satisfiability. -/
def satisfiableWalk : Walk Bool where
  field := satisfiableField
  check id properties :=
    if properties.decomposable then .ok () else .error (.error (.notDecomposable id))
  leaf _ gate vars literals _ :=
    match gate with
    | .constant value => .ok value
    | .literal l => .ofChecked do return !literals.contains (← Lit.negate l)
    | .twoCnf formula => .ofChecked (formula.isSatisfiable (within vars literals))
    | .horn formula => .ofChecked (formula.isSatisfiable (within vars literals))
    | _ => .ok false
  unit := true
  conjoin _ value := (value, !value)
  zero := false
  disjoin _ value := (value, value)

/-- Model counting. -/
def countWalk : Walk Nat where
  field := modelCountField
  check _ _ := .ok ()
  leaf _ gate vars literals _ :=
    match gate with
    | .constant value => .ok (if value then 1 else 0)
    | .literal l => .ofChecked do return if literals.contains (← Lit.negate l) then 0 else 1
    | .twoCnf formula => .ofChecked (formula.modelCount (within vars literals))
    | .horn formula => .ofChecked (formula.modelCount (within vars literals))
    | _ => .ok 0
  unit := 1
  conjoin product value := (product * value, product * value == 0)
  zero := 0
  disjoin sum value := (sum + value, false)

/-- Minimum default cardinality. -/
def cardinalityWalk : Walk (Option Nat) where
  field := cardinalityField
  check _ _ := .ok ()
  leaf id gate _ literals marked :=
    match gate with
    | .constant value => .ok (if value then some 0 else none)
    | .literal l => .ofChecked (literalCardinality literals marked l)
    | .twoCnf _ | .horn _ => .error (.error (.cardinalityUnsupported id))
    | _ => .ok none
  unit := some 0
  conjoin sum value :=
    match value with
    | none => (none, true)
    | some n => (sum.map (· + n), false)
  zero := none
  disjoin least value := (smaller least value, false)

section Combining

variable {m : Type → Type} [Monad m]

theorem allM_eq_combine (test : NodeId → m Bool) (ids : List NodeId)
    : ids.allM test = combine satisfiableWalk.conjoin test ids true := by
  induction ids with
  | nil => rfl
  | cons id rest ih =>
      simp only [List.allM, combine, satisfiableWalk, ih]
      congr
      funext value
      cases value <;> rfl

theorem anyM_eq_combine (test : NodeId → m Bool) (ids : List NodeId)
    : ids.anyM test = combine satisfiableWalk.disjoin test ids false := by
  induction ids with
  | nil => rfl
  | cons id rest ih =>
      simp only [List.anyM, combine, satisfiableWalk, ih]
      congr
      funext value
      cases value <;> rfl

end Combining

theorem productOver_eq_combine (count : NodeId → Build Nat) (ids : List NodeId) (product : Nat)
    : productOver count ids product = combine countWalk.conjoin count ids product := by
  induction ids generalizing product with
  | nil => rfl
  | cons id rest ih =>
      simp only [productOver, combine, countWalk, ih, beq_iff_eq]
      congr
      funext value
      split
      · rename_i zero
        rw [zero]
      · rfl

theorem sumOver_eq_combine (count : NodeId → Build Nat) (ids : List NodeId) (sum : Nat)
    : sumOver count ids sum = combine countWalk.disjoin count ids sum := by
  induction ids generalizing sum with
  | nil => rfl
  | cons id rest ih =>
      simp only [sumOver, combine, countWalk, ih]
      rfl

theorem cardinalitySum_eq_combine (cardinality : NodeId → Build (Option Nat)) (ids : List NodeId)
    (sum : Nat)
    : cardinalitySum cardinality ids sum
      = combine cardinalityWalk.conjoin cardinality ids (some sum) := by
  induction ids generalizing sum with
  | nil => rfl
  | cons id rest ih =>
      simp only [cardinalitySum, combine, cardinalityWalk, ih]
      congr
      funext value
      cases value <;> rfl

theorem cardinalityMin_eq_combine (cardinality : NodeId → Build (Option Nat)) (ids : List NodeId)
    (least : Option Nat)
    : cardinalityMin cardinality ids least
      = combine cardinalityWalk.disjoin cardinality ids least := by
  induction ids generalizing least with
  | nil => rfl
  | cons id rest ih =>
      simp only [cardinalityMin, combine, cardinalityWalk, ih]
      rfl

theorem ofOutcome_ofChecked {value : Checked β} : ofOutcome (.ofChecked value) = (liftM value : Build β) := by
  cases value <;> rfl

theorem ofOutcome_map {α : Type} (value : Checked α) (f : α → β)
    : ofOutcome (.ofChecked (f <$> value)) = (do return f (← liftM value) : Build β) := by
  cases value <;> rfl

/-- Satisfiability asks for decomposability. -/
theorem ask_decomposable (id : NodeId) (properties : Properties) (compute : Build β)
    : (do ofOutcome (satisfiableWalk.check id properties); compute)
      = if !properties.decomposable then (do Action.fail (.notDecomposable id); compute)
        else compute := by
  obtain ⟨decomposable, _, _⟩ := properties
  cases decomposable <;> rfl

/-- Satisfiability is its walk; induction on the fuel. -/
theorem satWithin_eq_run (memoize : Bool) (fuel : Nat) (id : NodeId) (literals : List Lit)
    (marked : List Var)
    : satWithin memoize fuel id literals marked
      = satisfiableWalk.run memoize fuel id literals marked := by
  induction fuel generalizing id literals marked with
  | zero => rfl
  | succ fuel ih =>
      simp only [satWithin, Walk.run, allM_eq_combine, anyM_eq_combine, ih]
      congr
      funext here
      cases here.gate with
      | constant value => rfl
      | literal l =>
          exact (ofOutcome_map (Lit.negate l) fun negated => !literals.contains negated).symm
      | and children => exact (ask_decomposable id here.throughout _).symm
      | or decision children => exact (ask_decomposable id here.throughout _).symm
      | mapping names child => exact (ask_decomposable id here.throughout _).symm
      | twoCnf formula => exact ofOutcome_ofChecked.symm
      | horn formula => exact ofOutcome_ofChecked.symm

/-- Model counting is its walk without marks; induction on the fuel. -/
theorem countWithin_eq_run (memoize : Bool) (fuel : Nat) (id : NodeId) (literals : List Lit)
    : countWithin memoize fuel id literals = countWalk.run memoize fuel id literals [] := by
  induction fuel generalizing id literals with
  | zero => rfl
  | succ fuel ih =>
      simp only [countWithin, Walk.run, productOver_eq_combine, sumOver_eq_combine, ih]
      congr
      funext here
      cases here.gate with
      | constant value => rfl
      | literal l =>
          exact (ofOutcome_map (Lit.negate l) fun negated =>
            if literals.contains negated then 0 else 1).symm
      | and children => rfl
      | or decision children => rfl
      | mapping names child => rfl
      | twoCnf formula => exact ofOutcome_ofChecked.symm
      | horn formula => exact ofOutcome_ofChecked.symm

/-- Minimum default cardinality is its walk; induction on the fuel. -/
theorem cardinalityWithin_eq_run (memoize : Bool) (fuel : Nat) (id : NodeId) (literals : List Lit)
    (marked : List Var)
    : cardinalityWithin memoize fuel id literals marked
      = cardinalityWalk.run memoize fuel id literals marked := by
  induction fuel generalizing id literals marked with
  | zero => rfl
  | succ fuel ih =>
      simp only [cardinalityWithin, Walk.run, cardinalitySum_eq_combine, cardinalityMin_eq_combine, ih]
      congr
      funext here
      cases here.gate with
      | constant value => rfl
      | literal l => exact ofOutcome_ofChecked.symm
      | and children => rfl
      | or decision children => rfl
      | mapping names child => rfl
      | twoCnf formula => rfl
      | horn formula => rfl

end Build

end KnowledgeCompiler
