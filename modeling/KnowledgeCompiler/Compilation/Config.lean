import KnowledgeCompiler.Branching
import KnowledgeCompiler.ComponentCache
import KnowledgeCompiler.CutSet
import KnowledgeCompiler.Text.Decimal

/-! The options of a compilation, and which combinations of them are refused. -/

namespace KnowledgeCompiler

/-- How the literals that a component implies are found. -/
inductive Implication where
  /-- By unit propagation. -/
  | propagation
  /-- By propagating each candidate variable both ways, once or until nothing changes. -/
  | probing (iterate : Bool)
  /-- By asking a solver for all of them. -/
  | backbone
  deriving Repr, DecidableEq

/-- How the node of a component is used again for a component that differs in names only. -/
inductive Reuse where
  /-- Through a node that renames. -/
  | mapping
  /-- Through a copy under the other names. -/
  | copy
  deriving Repr, DecidableEq

/-- The options of a compilation. -/
structure CompilerConfig where
  /-- Whether a solver answers questions of satisfiability. Without one, unit propagation stands in
  for it.
  -/
  useSolver : Bool := true
  /-- How implied literals are found. -/
  implied : Implication := .propagation
  /-- How components are cached, if they are. -/
  caching : Option CachingScheme := some (.upToNames 4)
  /-- How cached nodes are used again. -/
  reuse : Reuse := .mapping
  /-- Whether a 2-CNF component becomes a leaf. -/
  twoCnfLeaves : Bool := true
  /-- Whether a component that is Horn up to flipping variables becomes a leaf. -/
  hornLeaves : Bool := true
  /-- The largest number of clauses of a leaf. -/
  leafClauses : Nat := 64
  /-- Formulas with more clauses are split into formulas of their own, others in place. -/
  materializeAbove : Nat := 64
  /-- The share of an inherited cut set that may be gone before a new one is computed. -/
  cutSetThreshold : Float := 0.5
  /-- How branching variables are chosen. -/
  branching : BranchingRule := .mostOccurrences
  /-- Which variables are probed. -/
  probing : ProbingRule := .all
  /-- How cut sets are computed. -/
  cutSets : CutSetConfig := {}
  /-- Whether the finished circuit is smoothed. -/
  smooth : Bool := true

/-- Why options are refused. -/
inductive ConfigError where
  /-- Implied literals from a solver that is not used. -/
  | backboneWithoutSolver
  /-- An imbalance that is not between zero and one half. -/
  | imbalance (value : Float)
  /-- A threshold that is no share. -/
  | cutSetThreshold (value : Float)
  deriving Repr

/-- The wording of a refusal. -/
def ConfigError.message : ConfigError → String
  | .backboneWithoutSolver => "backbone computation requires the SAT solver"
  | .imbalance value => "imbalance must lie in (0, 0.5), got " ++ Text.decimal value
  | .cutSetThreshold value => "cut set threshold must lie in [0, 1], got " ++ Text.decimal value

/-- Checks the options. Of several reasons to refuse them the first one counts. -/
def CompilerConfig.validate (config : CompilerConfig) : Except ConfigError Unit :=
  let imbalance := config.cutSets.imbalance
  let threshold := config.cutSetThreshold
  if !config.useSolver && config.implied == .backbone then
    throw .backboneWithoutSolver
  else if !(decide (0.0 < imbalance) && decide (imbalance < 0.5)) then
    throw (.imbalance imbalance)
  else if !(decide (0.0 ≤ threshold) && decide (threshold ≤ 1.0)) then
    throw (.cutSetThreshold threshold)
  else
    return ()

end KnowledgeCompiler
