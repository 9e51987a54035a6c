import KnowledgeCompiler.Circuit.Copy
import KnowledgeCompiler.Compilation.Config
import KnowledgeCompiler.Solver

/-! What a compilation keeps while it searches: the circuit it builds, a solver, the compiled
components, the cut sets, and counts of what happened.
-/

namespace KnowledgeCompiler

/-- Why a compilation stopped. -/
inductive CompileError where
  | circuit (cause : CircuitError)
  | invalidConfiguration (cause : ConfigError)
  deriving Repr

/-- The wording of an error. -/
def CompileError.message : CompileError → String
  | .circuit cause => cause.message
  | .invalidConfiguration cause => "invalid configuration: " ++ cause.message

/-- Counts of what happened in a compilation. -/
structure Statistics where
  /-- Components entered. -/
  recursions : Nat := 0
  /-- The largest depth of a component. -/
  maxDepth : Nat := 0
  /-- Unsatisfiable components. -/
  unsatisfiable : Nat := 0
  /-- Components found in the cache as they were entered. -/
  hitsBefore : Nat := 0
  /-- Components found in the cache after their implied literals were assigned. -/
  hitsAfter : Nat := 0
  /-- Implied literals. -/
  implied : Nat := 0
  /-- Components that became 2-CNF leaves. -/
  twoCnfLeaves : Nat := 0
  /-- Components that became Horn leaves. -/
  hornLeaves : Nat := 0
  /-- Formulas that fell into several components. -/
  splits : Nat := 0
  /-- Branchings. -/
  decisions : Nat := 0
  /-- Cut sets that were asked for anew. -/
  cutSetsComputed : Nat := 0
  /-- Cut sets that were inherited. -/
  cutSetsReused : Nat := 0
  deriving Repr, DecidableEq

/-- Components found in the cache. -/
def Statistics.cacheHits (counts : Statistics) : Nat := counts.hitsBefore + counts.hitsAfter

/-- The state of a compilation. -/
structure Compiler where
  /-- The options. -/
  config : CompilerConfig
  /-- The circuit so far. -/
  circuit : Circuit := .empty
  /-- The solver, if one is used. -/
  solver : Option Solver
  /-- The compiled components, if they are kept. -/
  cache : Option ComponentCache
  /-- The source of cut sets. -/
  cuts : CutSets
  /-- Counts so far. -/
  statistics : Statistics := {}

/-- The state in which a compilation begins. -/
def Compiler.start (config : CompilerConfig) (solver : Option Solver) : Compiler :=
  { config, solver, cache := config.caching.map fun scheme => { scheme },
    cuts := .ofConfig config.cutSets }

/-- A computation that compiles. -/
abbrev Compiling := Action CompileError Compiler

namespace Compiling

variable {α : Type}

/-- Works on the circuit. Meanwhile the state holds an empty one, so that the nodes have no second
owner and can change in place.
-/
def onCircuit (build : Build α) : Compiling α := do
  let circuit := (← Action.current).circuit
  Action.update fun compiler => { compiler with circuit := .empty }
  Action.within circuit (fun compiler circuit => { compiler with circuit }) .circuit build

/-- Asks the solver. -/
def onSolver (solver : Solver) (ask : Action CompileError Solver α) : Compiling α :=
  Action.within solver (fun compiler solver => { compiler with solver := some solver }) id ask

/-- Works on the cut sets. -/
def onCutSets (work : Action CompileError CutSets α) : Compiling α := do
  Action.within (← Action.current).cuts (fun compiler cuts => { compiler with cuts }) id work

/-- Changes the counts. -/
def count (change : Statistics → Statistics) : Compiling Unit :=
  Action.update fun compiler => { compiler with statistics := change compiler.statistics }

/-- The options. -/
def config : Compiling CompilerConfig := do return (← Action.current).config

-----------------------------------------------------------------------------------------
-- Nodes
-----------------------------------------------------------------------------------------

/-- Counts an unsatisfiable formula; its node is the constant false. -/
def unsatisfiable : Compiling NodeId := do
  count fun counts => { counts with unsatisfiable := counts.unsatisfiable + 1 }
  onCircuit (Build.constant false)

/-- The conjunction of nodes. -/
def conjunction (children : List NodeId) : Compiling NodeId :=
  onCircuit (Build.conjunction children)

/-- Whether a node is the constant false. -/
def isFalse (id : NodeId) : Compiling Bool := onCircuit (Build.isFalse id)

-----------------------------------------------------------------------------------------
-- Cached components
-----------------------------------------------------------------------------------------

/-- The node of a cached component under the names of the current one. -/
def reinstate (entry : CacheEntry) (names : Option Renaming) : Compiling NodeId :=
  match relate entry.names names with
  | none => return entry.node
  | some related => do
      let reuse := (← config).reuse
      match Bijection.ofRenaming? related with
      | none => onCircuit (Build.copy entry.node related)
      | some bijection =>
          if bijection.isIdentity then return entry.node
          else
            match reuse with
            | .mapping => onCircuit (Build.mapping entry.node bijection)
            | .copy => onCircuit (Build.copy entry.node related)

/-- Looks a component up and counts that. -/
def lookup (cache : ComponentCache) (key : ComponentKey) : Compiling (Option CacheEntry) := do
  let (found, cache) := cache.get key
  Action.update fun compiler => { compiler with cache := some cache }
  return found

/-- Caches a node, unless the key has one. -/
def store (key : ComponentKey) (entry : CacheEntry) : Compiling Unit :=
  Action.update fun compiler =>
    { compiler with cache := compiler.cache.map fun cache => cache.add key entry }

/-- The node of a formula: that of a cached component, or else the compiled one, which is then
cached.
-/
def cached (hit : Statistics → Statistics) (g : Residual) (compile : Compiling NodeId)
    : Compiling NodeId := do
  match (← Action.current).cache with
  | none => compile
  | some cache =>
      let (key, names) := cache.scheme.keyOf g
      match ← lookup cache key with
      | some entry =>
          let node ← reinstate entry names
          count hit
          return node
      | none =>
          let node ← compile
          store key { node, names }
          return node

end Compiling

end KnowledgeCompiler
