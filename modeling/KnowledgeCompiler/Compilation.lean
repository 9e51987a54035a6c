import KnowledgeCompiler.Circuit.Query
import KnowledgeCompiler.Circuit.Smoothing
import KnowledgeCompiler.Compilation.Component

/-! The compilation of a formula into a circuit, and the questions that its result answers. -/

namespace KnowledgeCompiler

/-- A compiled formula. -/
structure Compilation where
  /-- The circuit. -/
  circuit : Circuit
  /-- The node with the models of the formula. -/
  root : NodeId
  /-- The number of variables of the formula. -/
  variableCount : Nat
  /-- Counts of what happened. -/
  statistics : Statistics

namespace Compilation

/-- The number of models over all variables of the formula that extend an assumption. -/
def modelCountUnder (compilation : Compilation) (assumption : List Lit) : Build Nat :=
  Build.modelCountOver compilation.root assumption compilation.variableCount

/-- The number of models over all variables of the formula. -/
def modelCount (compilation : Compilation) : Build Nat := compilation.modelCountUnder []

/-- Whether the formula has a model. -/
def isSatisfiable (compilation : Compilation) : Build Bool :=
  Build.isSatisfiable compilation.root [] [] true

end Compilation

namespace Compiling

/-- Records what a finished compilation has to tell. -/
def report (formula : Formula) : Compiling Unit := do
  let compiler ← Action.current
  let circuit := compiler.circuit
  let counts := compiler.statistics
  let entries := compiler.cache.elim {} ComponentCache.entries
  Action.note (.compiled formula.variableCount formula.occurring.size formula.clauses.length
    circuit.nodeCount circuit.size circuit.language)
  Action.note (.searched counts.recursions counts.decisions counts.splits counts.unsatisfiable)
  Action.note (.cached entries.size entries.hits entries.misses compiler.cuts.hits)

/-- Takes a solver for the formula into use, with models from an oracle, if one is wanted. -/
def prepareSolver (formula : Formula) (oracle : Oracle) : Compiling Unit := do
  if (← config).useSolver then
    let solver ← Solver.ofOracle formula oracle
    Action.update fun compiler => { compiler with solver := some solver }

/-- Compiles a formula with models from an oracle, smooths the circuit if that is wanted, and makes
the result the root. The residual formula is compiled in a given way.
-/
def formulaBy (compile : Residual → Compiling NodeId) (formula : Formula) (oracle : Oracle)
    : Compiling Compilation := do
  let config ← config
  match config.validate with
  | .error cause => Action.fail (.invalidConfiguration cause)
  | .ok () =>
      prepareSolver formula oracle
      let root ← compile (.ofClauses formula.clauses)
      onCircuit do
        if config.smooth then
          Build.smooth
        Build.setRoot root
      report formula
      let compiler ← Action.current
      return {
        circuit := compiler.circuit
        root
        variableCount := formula.variableCount
        statistics := compiler.statistics
      }

/-- Compiles a formula with models from an oracle. -/
def formula (formula : Formula) (oracle : Oracle) : Compiling Compilation :=
  formulaBy residual formula oracle

end Compiling

namespace Formula

/-- Compiles a formula with models from a given oracle. -/
def compileWith (formula : Formula) (config : CompilerConfig) (oracle : Oracle)
    : EStateM.Result (Failure CompileError) (Journaled Compiler) Compilation :=
  (Compiling.formula formula oracle).run { state := .start config none }

/-- Compiles a formula. -/
def compile (formula : Formula) (config : CompilerConfig)
    : EStateM.Result (Failure CompileError) (Journaled Compiler) Compilation :=
  formula.compileWith config (.ofFormula formula)

end Formula

end KnowledgeCompiler
