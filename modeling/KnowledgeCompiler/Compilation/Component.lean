import KnowledgeCompiler.Compilation.State

/-! The compilation of one component.

A component is a residual formula. Its implied literals are assigned first. What is left is a leaf,
or falls into components of its own, or is divided by the two values of a branching variable. Each
component that this leads to has fewer variables, which bounds the depth of the search.
-/

namespace KnowledgeCompiler

/-- Where in the search a component stands. -/
structure Frame where
  /-- The number of components around it. -/
  depth : Nat := 0
  /-- Whether it is known to have a model. -/
  knownSatisfiable : Bool := false
  /-- The last cut set computed for a formula around it. -/
  cutSet : Option (SortedSet Var) := none

/-- What is known of the models of a formula. -/
inductive Prospect where
  /-- There is none. -/
  | refuted
  /-- Nothing, or only that there is one. -/
  | unknown
  /-- A model of the whole formula that extends the assignment. -/
  | model (found : Model)

/-- The model, if there is one at hand. -/
def Prospect.model? : Prospect → Option Model
  | .model found => some found
  | .refuted | .unknown => none

/-- The compilation of a component, as its parts call it. -/
abbrev CompileCall := Residual → Frame → Compiling NodeId

/-- The compilation of a formula whose implied literals are assigned, with a model that may be at hand. -/
abbrev ReducedCall := Residual → Frame → Option Model → Compiling NodeId

namespace Compiling

-----------------------------------------------------------------------------------------
-- Satisfiability
-----------------------------------------------------------------------------------------

/-- Asks the solver for a model; without a solver nothing is known. -/
def askModel (g : Residual) : Compiling Prospect := do
  match (← Action.current).solver with
  | none => return .unknown
  | some solver =>
      match ← onSolver solver (Solver.model? g.assignment) with
      | none => return .refuted
      | some model => return .model model

/-- What is known of the models of a component as it is entered. Without a solver, it is refuted if
unit propagation refutes it.
-/
def prospect (g : Residual) (frame : Frame) : Compiling Prospect := do
  if frame.knownSatisfiable then
    return .unknown
  else if (← Action.current).solver.isSome then
    askModel g
  else
    match ← (Propagator.ofClauses g.current).propagate [] with
    | none => return .refuted
    | some _ => return .unknown

/-- What is known of the models of a formula when a model may be at hand. -/
def consult (g : Residual) : Option Model → Compiling Prospect
  | some model => return .model model
  | none => askModel g

-----------------------------------------------------------------------------------------
-- Implied literals
-----------------------------------------------------------------------------------------

/-- Literals that the component implies, in the order in which they are found. There are none to
speak of if the component is found unsatisfiable.
-/
def findImplied (g : Residual) : Compiling (Option (List Lit)) := do
  let config ← config
  let solver := (← Action.current).solver
  match config.implied, solver with
  | .propagation, some solver => onSolver solver (Solver.propagate g.assignment)
  | .propagation, none => (Propagator.ofClauses g.current).propagate []
  | .probing iterate, some solver =>
      let candidates := config.probing.choose g.vars g
      let found ← onSolver solver (Solver.probe g.assignment candidates iterate)
      return found.map Std.TreeMap.values
  | .probing iterate, none =>
      let candidates := config.probing.choose g.vars g
      let found ← (Propagator.ofClauses g.current).probe [] candidates iterate
      return found.map Std.TreeMap.values
  | .backbone, some solver => onSolver solver (Solver.backbone? g.assignment)
  | .backbone, none => Action.fail (.invalidConfiguration .backboneWithoutSolver)

/-- The implied literals over the variables of the component, by ascending variable. -/
def impliedLiterals (g : Residual) : Compiling (Option (List Lit)) := do
  let vars := g.vars
  let found ← findImplied g
  return found.map fun literals =>
    dropRepeats
      (sortBy (fun l k => l.var ≤ k.var) (literals.filter fun l => vars.contains l.var))

-----------------------------------------------------------------------------------------
-- Leaves
-----------------------------------------------------------------------------------------

/-- The leaf of a formula that may be one. -/
def leaf? (g : Residual) : Compiling (Option NodeId) := do
  let config ← config
  if config.leafClauses < g.clauseCount then
    return none
  else if config.twoCnfLeaves && g.isTwoCnf then
    count fun counts => { counts with twoCnfLeaves := counts.twoCnfLeaves + 1 }
    let formula ← TwoCnf.ofClauses g.current
    return some (← onCircuit (Build.twoCnf formula))
  else if config.hornLeaves then
    match ← g.hornRenaming? with
    | none => return none
    | some flipped =>
        count fun counts => { counts with hornLeaves := counts.hornLeaves + 1 }
        let formula ← Horn.ofClauses g.current flipped
        return some (← onCircuit (Build.horn formula))
  else
    return none

-----------------------------------------------------------------------------------------
-- Splitting
-----------------------------------------------------------------------------------------

/-- One component of a formula. The variables of the other components keep their values from the
model, so that the solver sees this component alone.
-/
def isolate (materialize : Bool) (g : Residual) (all : SortedSet Var) (model : Option Model)
    (component : SortedSet Var) : Residual :=
  let others := all.diff component
  let siblings := match model with
    | none => []
    | some model => others.toList.filterMap model.literal?
  let own := if materialize then g.part component else g.restrict component
  own.fix siblings

/-- Compiles components one after the other and conjoins them with the nodes of those before. The
first unsatisfiable one is the result.
-/
def compileEach (compile : SortedSet Var → Compiling NodeId)
    : List (SortedSet Var) → List NodeId → Compiling NodeId
  | [], done => conjunction done
  | component :: rest, done => do
      let child ← compile component
      if ← isFalse child then return child
      else compileEach compile rest (done ++ [child])

/-- Compiles the components of a formula and conjoins them. -/
def split (call : CompileCall) (g : Residual) (components : List (SortedSet Var)) (frame : Frame)
    (model : Option Model) : Compiling NodeId := do
  count fun counts => { counts with splits := counts.splits + 1 }
  Action.note (.componentsFound frame.depth components.length)
  let known ← consult g model
  match known with
  | .refuted => unsatisfiable
  | .unknown | .model _ =>
      let materialize := decide ((← config).materializeAbove < g.clauseCount)
      let all := SortedSet.unionAll components
      let next := { frame with
        depth := frame.depth + 1, knownSatisfiable := known.model?.isSome }
      compileEach (fun component => call (isolate materialize g all known.model? component) next)
        components []

-----------------------------------------------------------------------------------------
-- Branching
-----------------------------------------------------------------------------------------

/-- What is left of an inherited cut set, if not too much of it is gone. -/
def inheritedCutSet? (threshold : Float) (g : Residual) (inherited : SortedSet Var)
    : Option (SortedSet Var) :=
  let left := inherited.inter g.vars
  let gone := 1.0 - Float.ofNat left.size / Float.ofNat inherited.size
  if !left.isEmpty && decide (gone ≤ threshold) then some left else none

/-- The cut set for a formula: what is left of the inherited one, or else a new one. -/
def chooseCutSet (g : Residual) (inherited : Option (SortedSet Var))
    : Compiling (SortedSet Var) := do
  let threshold := (← config).cutSetThreshold
  match inherited.bind (inheritedCutSet? threshold g) with
  | some left =>
      count fun counts => { counts with cutSetsReused := counts.cutSetsReused + 1 }
      return left
  | none =>
      count fun counts => { counts with cutSetsComputed := counts.cutSetsComputed + 1 }
      onCutSets (CutSets.cutSet g)

/-- Joins the nodes of the two branches on a variable. A branch that is unsatisfiable is left out. -/
def join (v : Var) (high low : NodeId) : Compiling NodeId := do
  let positive := Lit.word v
  match ← isFalse high, ← isFalse low with
  | true, true => return high
  | true, false =>
      let literal ← onCircuit (Build.literal (← Lit.negate positive))
      conjunction [literal, low]
  | false, true =>
      let literal ← onCircuit (Build.literal positive)
      conjunction [literal, high]
  | false, false => onCircuit (Build.decision v high low)

/-- Compiles a formula by branching on a variable of a cut set. -/
def branch (call : CompileCall) (g : Residual) (frame : Frame) : Compiling NodeId := do
  let cutSet ← chooseCutSet g frame.cutSet
  match (← config).branching.choose cutSet g with
  | none => onCircuit (Build.constant true)
  | some v =>
      count fun counts => { counts with decisions := counts.decisions + 1 }
      Action.note (.branching frame.depth v cutSet.size)
      let next := { depth := frame.depth + 1, cutSet := some cutSet : Frame }
      let positive := Lit.word v
      let high ← call (g.assign [positive]) next
      let negative ← Lit.negate positive
      let low ← call (g.assign [negative]) next
      join v high low

-----------------------------------------------------------------------------------------
-- Components
-----------------------------------------------------------------------------------------

/-- Compiles a formula whose implied literals are assigned. -/
def compileReduced (call : CompileCall) : ReducedCall := fun g frame model =>
  cached (fun counts => { counts with hitsAfter := counts.hitsAfter + 1 }) g do
    match ← leaf? g with
    | some leaf => return leaf
    | none =>
        let components := g.components
        if 1 < components.length then split call g components frame model
        else branch call g frame

/-- Assigns the implied literals of a component and compiles what is left. -/
def compileImplied (reduced : ReducedCall) (g : Residual) (frame : Frame) (model : Option Model)
    : Compiling NodeId := do
  match ← impliedLiterals g with
  | none => unsatisfiable
  | some implied =>
      count fun counts => { counts with implied := counts.implied + implied.length }
      let conjuncts ← onCircuit (implied.mapM Build.literal)
      let left := g.assign implied
      if left.hasEmptyClause then
        unsatisfiable
      else if left.isEmpty then
        conjunction conjuncts
      else
        let inner ← reduced left frame model
        if conjuncts.isEmpty || (← isFalse inner) then return inner
        else conjunction (conjuncts ++ [inner])

/-- Compiles a component that may have a model. -/
def compileOpen (reduced : ReducedCall) (g : Residual) (frame : Frame) (model : Option Model)
    : Compiling NodeId :=
  cached (fun counts => { counts with hitsBefore := counts.hitsBefore + 1 }) g
    (compileImplied reduced g frame model)

/-- Compiles a component, with a way to compile what its implied literals leave. -/
def compileStepBy (reduced : ReducedCall) : CompileCall := fun g frame => do
  count fun counts => { counts with
    recursions := counts.recursions + 1, maxDepth := max counts.maxDepth frame.depth }
  Action.note (.componentEntered frame.depth g.clauseCount g.assignment.length)
  if g.hasEmptyClause then
    unsatisfiable
  else if g.isEmpty then
    onCircuit (Build.constant true)
  else
    match ← prospect g frame with
    | .refuted => unsatisfiable
    | .unknown => compileOpen reduced g frame none
    | .model literals => compileOpen reduced g frame (some literals)

/-- Compiles a component, with a way to compile those inside it. -/
def compileStep (call : CompileCall) : CompileCall := compileStepBy (compileReduced call)

/-- Compiles a component with a bound on the depth. -/
def compileWithin : Nat → CompileCall
  | 0, _, _ => throw (.fault .exhausted)
  | fuel + 1, g, frame => compileStep (compileWithin fuel) g frame

/-- The node of a residual formula. It has the models of the formula and mentions no other variables
than its.
-/
def residual (g : Residual) : Compiling NodeId := compileWithin (g.vars.size + 1) g {}

end Compiling

end KnowledgeCompiler
