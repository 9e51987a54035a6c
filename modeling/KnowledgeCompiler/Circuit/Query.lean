import KnowledgeCompiler.Circuit.Basic

/-! Queries over circuits.

Each query walks down from a node and combines the answers of the children. Inner nodes remember
their answers by what the query restricts of their own variables, so that a shared node is walked
once for each restriction.
-/

namespace KnowledgeCompiler.Build

/-- The first literal of a list whose complement is in the list. -/
def complementary? (all : List Lit) : List Lit → Checked (Option Lit)
  | [] => return none
  | l :: rest => do
      if all.contains (← Lit.negate l) then return some l else complementary? all rest

/-- Stops if an assumption holds a literal together with its complement. -/
def checkAssumption (assumption : List Lit) : Build Unit := do
  match ← complementary? assumption assumption with
  | some l => Action.fail (.complementaryLiterals l.var)
  | none => return ()

/-- The literals over the variables of a node. -/
def relevant (node : Node) (literals : List Lit) : List Lit :=
  literals.filter fun l => node.vars.contains l.var

/-- A kind of answer that nodes remember. -/
structure MemoField (β : Type) where
  /-- The remembered answers. -/
  table : Memo → List (Restriction × β)
  /-- Replaces the remembered answers. -/
  replace : Memo → List (Restriction × β) → Memo

/-- Remembered answers to satisfiability. -/
def satisfiableField : MemoField Bool :=
  { table := (·.satisfiable), replace := fun memo answers => { memo with satisfiable := answers } }

/-- Remembered model counts. -/
def modelCountField : MemoField Nat :=
  { table := (·.modelCount), replace := fun memo answers => { memo with modelCount := answers } }

/-- Remembered cardinalities. -/
def cardinalityField : MemoField (Option Nat) :=
  { table := (·.cardinality), replace := fun memo answers => { memo with cardinality := answers } }

/-- Remembers an answer at a node. -/
def remember {β : Type} (field : MemoField β) (id : NodeId) (key : Restriction) (answer : β)
    : Build Unit :=
  Action.update fun c => c.modifyNode id fun node =>
    { node with memo := field.replace node.memo ((key, answer) :: field.table node.memo) }

/-- The answer that a node remembers, or else the computed one, which it then remembers. Without
`memoize` the answer is always computed.
-/
def remembered {β : Type} (memoize : Bool) (field : MemoField β) (id : NodeId) (here : Node)
    (key : Restriction) (compute : Build β) : Build β := do
  match if memoize then (field.table here.memo).lookup key else none with
  | some known => return known
  | none =>
      let answer ← compute
      if memoize then
        remember field id key answer
      return answer

/-- The largest number of nodes on a path, and one more. -/
def depthBound : Build Nat := do return (← Action.current).nodes.size + 1

-----------------------------------------------------------------------------------------
-- Satisfiability
-----------------------------------------------------------------------------------------

/-- Whether the sub-circuit of a node has a model that extends the assumption. -/
def satWithin (memoize : Bool) : Nat → NodeId → List Lit → List Var → Build Bool
  | 0, _, _, _ => throw (.fault .exhausted)
  | fuel + 1, id, assumption, quantified => do
      let here ← node id
      let inner (compute : Build Bool) : Build Bool := do
        if !here.throughout.decomposable then
          Action.fail (.notDecomposable id)
        let key ← Restriction.of here.vars assumption quantified
        remembered memoize satisfiableField id here key compute
      match here.gate with
      | .constant value => return value
      | .literal l => return !assumption.contains (← Lit.negate l)
      | .twoCnf formula => formula.isSatisfiable (relevant here assumption)
      | .horn formula => formula.isSatisfiable (relevant here assumption)
      | .mapping names child => inner do
          let assumed ← names.toLocal.literals assumption
          let bound := quantified.filterMap names.toLocal.find?
          satWithin memoize fuel child assumed bound
      | .and children =>
          inner (children.allM fun child => satWithin memoize fuel child assumption quantified)
      | .or _ children =>
          inner (children.anyM fun child => satWithin memoize fuel child assumption quantified)

/-- The first variable that is assumed. -/
def assumed? (assumption : List Lit) : List Var → Checked (Option Var)
  | [] => return none
  | v :: rest => do
      if (← Restriction.valueOf assumption v).isSome then return some v
      else assumed? assumption rest

/-- Whether the sub-circuit of a decomposable node has a model that extends the assumption, with
some variables existentially quantified. None of them may be assumed; which one is reported depends on the
order in which they are visited.
-/
def isSatisfiableBy (visits : VisitOrder Var) (id : NodeId) (assumption : List Lit) (quantified : List Var)
    (memoize : Bool)
    : Build Bool := do
  checkAssumption assumption
  match ← assumed? assumption (visits.visit (SortedSet.ofList quantified).toList) with
  | some v => Action.fail (.assumptionNotDisjoint v)
  | none => satWithin memoize (← depthBound) id assumption quantified

/-- The same, with the quantified variables visited in ascending order. -/
def isSatisfiable (id : NodeId) (assumption : List Lit) (quantified : List Var) (memoize : Bool) : Build Bool :=
  isSatisfiableBy .asListed id assumption quantified memoize

/-- Whether every model of the sub-circuit satisfies a clause. -/
def entails (id : NodeId) (clause : Clause) : Build Bool := do
  if ← hasComplements clause then
    return true
  let negated : List Lit ← (clause.mapM Lit.negate : Checked (List Lit))
  return !(← isSatisfiable id negated [] true)

-----------------------------------------------------------------------------------------
-- Model counts
-----------------------------------------------------------------------------------------

/-- Multiplies the answers for children, as long as the product is not zero. -/
def productOver (count : NodeId → Build Nat) : List NodeId → Nat → Build Nat
  | [], product => return product
  | child :: rest, product => do
      let next := product * (← count child)
      if next = 0 then return 0 else productOver count rest next

/-- Adds up the answers for children. -/
def sumOver (count : NodeId → Build Nat) : List NodeId → Nat → Build Nat
  | [], sum => return sum
  | child :: rest, sum => do sumOver count rest (sum + (← count child))

/-- The number of models of the sub-circuit of a node over its own variables that extend the
assumption.
-/
def countWithin (memoize : Bool) : Nat → NodeId → List Lit → Build Nat
  | 0, _, _ => throw (.fault .exhausted)
  | fuel + 1, id, assumption => do
      let here ← node id
      let inner (compute : Build Nat) : Build Nat := do
        let key ← Restriction.of here.vars assumption []
        remembered memoize modelCountField id here key compute
      match here.gate with
      | .constant value => return if value then 1 else 0
      | .literal l => return if assumption.contains (← Lit.negate l) then 0 else 1
      | .twoCnf formula => formula.modelCount (relevant here assumption)
      | .horn formula => formula.modelCount (relevant here assumption)
      | .mapping names child => inner do
          countWithin memoize fuel child (← names.toLocal.literals assumption)
      | .and children => inner (productOver (countWithin memoize fuel · assumption) children 1)
      | .or _ children => inner (sumOver (countWithin memoize fuel · assumption) children 0)

/-- The number of models of a sub-circuit over its own variables that extend the assumption. The
sub-circuit has to be decomposable, deterministic and smooth.
-/
def modelCount (id : NodeId) (assumption : List Lit) (memoize : Bool) : Build Nat := do
  checkAssumption assumption
  let properties := (← node id).throughout
  if !properties.decomposable then
    Action.fail (.notDecomposable id)
  if !properties.deterministic then
    Action.fail (.notDeterministic id)
  if !properties.smooth then
    Action.fail (.notSmooth id)
  countWithin memoize (← depthBound) id assumption

/-- The number of models over the variables from one to `variableCount` that extend the assumption.
Variables that neither the sub-circuit nor the assumption mentions are free.
-/
def modelCountOver (id : NodeId) (assumption : List Lit) (variableCount : Nat) : Build Nat := do
  let count ← modelCount id assumption true
  let mentioned := (← node id).vars.union (SortedSet.ofList (assumption.map Lit.var))
  let covered := mentioned.toList.countP fun v => 1 ≤ v && v ≤ variableCount
  return count <<< (variableCount - covered)

-----------------------------------------------------------------------------------------
-- Minimum default cardinality
-----------------------------------------------------------------------------------------

/-- Adds up the answers for children; infinity ends the sum. -/
def cardinalitySum (cardinality : NodeId → Build (Option Nat))
    : List NodeId → Nat → Build (Option Nat)
  | [], sum => return some sum
  | child :: rest, sum => do
      match ← cardinality child with
      | none => return none
      | some n => cardinalitySum cardinality rest (sum + n)

/-- The smaller of two cardinalities. -/
def smaller : Option Nat → Option Nat → Option Nat
  | none, n => n
  | m, none => m
  | some m, some n => some (min m n)

/-- The least of the answers for children. -/
def cardinalityMin (cardinality : NodeId → Build (Option Nat))
    : List NodeId → Option Nat → Build (Option Nat)
  | [], least => return least
  | child :: rest, least => do
      cardinalityMin cardinality rest (smaller least (← cardinality child))

/-- The cardinality of a literal: infinite if the observation excludes it, one if it makes a default
variable false that is not observed, and zero otherwise.
-/
def literalCardinality (observation : List Lit) (defaults : List Var) (l : Lit)
    : Checked (Option Nat) := do
  if observation.contains (← Lit.negate l) then
    return none
  if !observation.contains l && l < 0 && defaults.contains l.var then
    return some 1
  return some 0

/-- The cardinality of the sub-circuit of a node. -/
def cardinalityWithin (memoize : Bool)
    : Nat → NodeId → List Lit → List Var → Build (Option Nat)
  | 0, _, _, _ => throw (.fault .exhausted)
  | fuel + 1, id, observation, defaults => do
      let here ← node id
      let inner (compute : Build (Option Nat)) : Build (Option Nat) := do
        let key ← Restriction.of here.vars observation defaults
        remembered memoize cardinalityField id here key compute
      match here.gate with
      | .constant value => return if value then some 0 else none
      | .literal l => literalCardinality observation defaults l
      | .twoCnf _ | .horn _ => Action.fail (.cardinalityUnsupported id)
      | .mapping names child => inner do
          let observed ← names.toLocal.literals observation
          cardinalityWithin memoize fuel child observed (defaults.filterMap names.toLocal.find?)
      | .and children =>
          inner (cardinalitySum (cardinalityWithin memoize fuel · observation defaults) children 0)
      | .or _ children =>
          inner (cardinalityMin (cardinalityWithin memoize fuel · observation defaults) children none)

/-- The least number of default variables that a model of a decomposable sub-circuit makes false,
among the models that extend the observation. Nothing stands for infinity: no model extends it.
-/
def minimumCardinality (id : NodeId) (observation : List Lit) (defaults : List Var)
    (memoize : Bool) : Build (Option Nat) := do
  checkAssumption observation
  if !(← node id).throughout.decomposable then
    Action.fail (.notDecomposable id)
  cardinalityWithin memoize (← depthBound) id observation defaults

end KnowledgeCompiler.Build
