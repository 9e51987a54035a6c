import KnowledgeCompiler.Compilation
import KnowledgeCompiler.Proofs.Circuit.Smoothness
import KnowledgeCompiler.Proofs.Compilation.Meaning
import KnowledgeCompiler.Proofs.Compilation.ModelIndependence
import KnowledgeCompiler.Proofs.Search

/-! Compilation preserves meaning.

Under every accepted configuration the compilation of a formula succeeds, and the root of the circuit has the
models of the formula. A solver has room for the variables up to the largest one that it can represent, so a
formula that it is to work on may not mention a larger one.
-/

namespace KnowledgeCompiler

open KnowledgeCompiler.Action

namespace Circuit

variable {c d : Circuit}

theorem Regular.of_nodes (regular : c.Regular) (nodes : d.nodes = c.nodes) (table : d.table = c.table)
    (sharing : d.sharing = c.sharing)
    : d.Regular :=
  ⟨regular.toCoherent.of_nodes nodes table sharing, fun id => (regular.derived id).of_nodes nodes⟩

end Circuit

namespace Compiling

variable {formula : Formula} {config : CompilerConfig} {oracle : Oracle}

theorem not_backbone_of_validate (valid : config.validate = .ok ()) (unused : config.useSolver = false)
    : config.implied ≠ .backbone := by
  intro backbone
  simp [CompilerConfig.validate, unused, backbone] at valid

/-- The state in which a compilation begins is valid, with or without a solver. -/
theorem valid_start {solver : Option Solver} {uses : Bool}
    (solved : uses = true ∧ (∃ s, solver = some s ∧ s.Fits formula) ∨ uses = false ∧ solver = none)
    (backbone : uses = false → config.implied ≠ .backbone)
    : Valid formula uses { Compiler.start config none with solver } where
  regular := Circuit.Regular.empty
  solved := solved
  backbone := backbone
  trusted {cache} found := by
    intro key entry peeked
    obtain ⟨scheme, _, rfl⟩ := Option.map_eq_some_iff.mp found
    simp [Tally.peek?] at peeked
  dividing := CutSets.dividing_ofConfig _

/-- A solver is made if the variables of the formula are not too large for it. -/
theorem prepareSolver_yields (complete : config.useSolver = true → oracle.Complete formula)
    (small : config.useSolver = true → Solver.occurringReach formula ≤ oracle.limit)
    (backbone : config.useSolver = false → config.implied ≠ .backbone)
    : Yields (prepareSolver formula oracle) (.start config none) fun _ s =>
        Valid formula config.useSolver s := by
  refine yields_config ?_
  change Yields (if config.useSolver = true then _ else _) _ _
  cases uses : config.useSolver with
  | false => exact Yields.pure (valid_start (.inr ⟨rfl, rfl⟩) fun _ => backbone uses)
  | true =>
      have made := Solver.ofOracle_eq formula oracle
      have fitting : ¬ oracle.limit < Solver.reachOf 0 formula.clauses.flatten :=
        Nat.not_lt.mpr (small uses)
      rw [if_neg fitting] at made
      have fits := Solver.fits_of_ofOracle (complete uses) made
      exact Yields.checked made (Yields.updated (valid_start (.inl ⟨rfl, _, rfl, fits⟩) (by simp)))

/-- A finished circuit: the root is chosen, and it is smooth if that is wanted. -/
theorem finish_yields {c : Circuit} {root : NodeId} {clauses : Clauses} (regular : c.Regular)
    (denotes : c.Denotes root clauses) (smooth : Bool)
    : Yields (do
          if smooth then
            Build.smooth
          Build.setRoot root) c fun _ d =>
        d.Regular ∧ d.Denotes root clauses ∧ d.root = some root ∧ (smooth = true → d.Smooth root) := by
  have chosen : ∀ {e : Circuit}, e.Regular → e.Denotes root clauses
      → (smooth = true → e.Smooth root)
      → Yields (Build.setRoot root) e fun _ d =>
          d.Regular ∧ d.Denotes root clauses ∧ d.root = some root ∧ (smooth = true → d.Smooth root) := by
    intro e regular' denotes' smoothed
    obtain ⟨nodes, table, sharing⟩ := Circuit.refreshRoot_frame { e with root := some root }
    have same := Circuit.node?_of_nodes nodes
    rw [Build.setRoot, discard_bind]
    refine Yields.bind (Build.node_spec denotes'.present) fun _ d found => ?_
    obtain rfl := found.1
    refine Yields.updated ⟨regular'.of_nodes nodes table sharing, ?_, ?_, fun wanted other there => ?_⟩
    · have alike := Circuit.alike_of_nodes (c := e) nodes
      exact ⟨alike.size.symm ▸ denotes'.present, fun σ => alike.satisfies_iff.trans (denotes'.satisfies σ),
        fun inside => denotes'.vars (alike.varsOf root ▸ inside)⟩
    · rw [Circuit.refreshRoot]
      split <;> rfl
    · exact smoothed wanted ((same root).symm.trans there)
  cases smooth with
  | false => exact chosen regular denotes (by simp)
  | true =>
      refine Yields.bind (Build.smooth_spec regular) fun _ d result => ?_
      obtain ⟨regular', smooth', kept⟩ := result
      obtain ⟨present, vars, satisfies⟩ := kept denotes.present
      refine chosen regular' ⟨present, fun σ => (satisfies σ).trans (denotes.satisfies σ), ?_⟩
        fun _ => smooth' root
      rw [vars]
      exact denotes.vars

end Compiling

/-- What the compilation of a formula gives: a regular circuit whose root has the models of the formula, and
is smooth if that is wanted.
-/
structure Compilation.Represents (compilation : Compilation) (formula : Formula) (config : CompilerConfig)
    : Prop where
  regular : compilation.circuit.Regular
  denotes : compilation.circuit.Denotes compilation.root formula.clauses
  chosen : compilation.circuit.root = some compilation.root
  variableCount : compilation.variableCount = formula.variableCount
  smooth : config.smooth = true → compilation.circuit.Smooth compilation.root

/-- A compilation succeeds and represents its formula. -/
theorem Formula.Normal.compileWith_represents {formula : Formula} (normal : formula.Normal)
    (room : formula.clauses.length ≤ Hypergraph.largestNodeCount) {config : CompilerConfig}
    (valid : config.validate = .ok ()) {oracle : Oracle}
    (complete : config.useSolver = true → oracle.Complete formula)
    (small : config.useSolver = true → Solver.occurringReach formula ≤ oracle.limit)
    : ∃ compilation last, formula.compileWith config oracle = .ok compilation last
      ∧ compilation.Represents formula config := by
  have yields : Yields (Compiling.formula formula oracle) (.start config none) fun compilation _ =>
      compilation.Represents formula config := by
    refine Compiling.yields_config ?_
    dsimp only [Compiler.start]
    rw [valid]
    refine Yields.bind (Compiling.prepareSolver_yields complete small
      (Compiling.not_backbone_of_validate valid)) fun _ s prepared => ?_
    have sits : Compiling.Sits formula config.useSolver (.ofClauses formula.clauses) := by
      refine ⟨.ofClauses _, ?_, ?_, fun _ => .ofClauses formula⟩
      · rw [Residual.current_ofClauses]
        exact normal.tidy
      · rwa [Residual.current_ofClauses]
    refine Yields.bind (Compiling.residual_compiles normal sits s prepared) fun root t result => ?_
    obtain ⟨follows, denotes⟩ := result
    rw [Residual.current_ofClauses] at denotes
    have finished : Yields (Compiling.onCircuit _) t fun _ (u : Compiler) => u.circuit.Regular
        ∧ u.circuit.Denotes root formula.clauses ∧ u.circuit.root = some root
        ∧ (config.smooth = true → u.circuit.Smooth root) :=
      Compiling.yields_onCircuit (Compiling.finish_yields follows.valid.regular denotes config.smooth)
    refine finished.bind fun _ u result => ?_
    obtain ⟨regular, denotes, chosen, smooth⟩ := result
    have reported : Yields (Compiling.report formula) u fun _ (w : Compiler) => w.circuit = u.circuit :=
      Yields.current (Yields.note (Yields.note fun journal => ⟨(), _, rfl, rfl⟩))
    refine reported.bind fun _ w same => ?_
    refine Yields.current (Yields.pure ?_)
    rw [same]
    exact ⟨regular, denotes, chosen, rfl, smooth⟩
  obtain ⟨compilation, last, run, represents⟩ := yields #[]
  exact ⟨compilation, last, run, represents⟩

/-- Compilation preserves meaning: clauses over proper literals are loaded, and under every accepted
configuration their compilation succeeds with a root that has the models of the clauses and mentions no other
variables. The list of clauses is not longer than a list can be, and a solver that is used has room for the
variables of the formula.
-/
theorem compilation_preserves_meaning (variableCount : Nat) (raw : Clauses)
    (proper : ∀ clause ∈ raw, ∀ l ∈ clause, Lit.Proper l)
    (room : raw.length ≤ Hypergraph.largestNodeCount)
    : ∃ formula, Formula.ofClauses variableCount raw = .ok formula
      ∧ ∀ (config : CompilerConfig) (oracle : Oracle), config.validate = .ok ()
        → (config.useSolver = true → oracle.Complete formula)
        → (config.useSolver = true → ∀ v, v ∈ formula.occurring → v ≤ oracle.limit)
        → ∃ compilation last, formula.compileWith config oracle = .ok compilation last
          ∧ (∀ σ, compilation.circuit.Satisfies σ compilation.root ↔ Clauses.TrueIn σ raw)
          ∧ ∀ v, v ∈ compilation.circuit.varsOf compilation.root → v ∈ raw.vars := by
  obtain ⟨formula, loaded, normal, meaning, vars⟩ := Formula.ofClauses_ok variableCount proper
  refine ⟨formula, loaded, fun config oracle valid complete small => ?_⟩
  have bound : config.useSolver = true → Solver.occurringReach formula ≤ oracle.limit :=
    fun uses => Solver.occurringReach_le_of_forall (small uses)
  obtain ⟨compilation, last, run, represents⟩ := normal.compileWith_represents
    (Nat.le_trans (Formula.length_ofClauses_le loaded) room) valid complete bound
  refine ⟨compilation, last, run, fun σ => ?_, fun v inside => vars v (represents.denotes.vars inside)⟩
  rw [represents.denotes.satisfies, meaning]

/-- Two clauses, one with a repeated literal, and a tautology, under the standard options. -/
theorem compilation_of_repeated_literals
    : ∃ formula, Formula.ofClauses 0 [[1, 2, 2], [-1, 3], [2, -2]] = .ok formula
      ∧ ∃ compilation last, formula.compile {} = .ok compilation last
        ∧ (∀ σ, compilation.circuit.Satisfies σ compilation.root
            ↔ Clauses.TrueIn σ [[1, 2, 2], [-1, 3], [2, -2]])
        ∧ ∀ v, v ∈ compilation.circuit.varsOf compilation.root
            → v ∈ Clauses.vars [[1, 2, 2], [-1, 3], [2, -2]] := by
  have proper : ∀ clause ∈ ([[1, 2, 2], [-1, 3], [2, -2]] : Clauses), ∀ l ∈ clause, Lit.Proper l := by
    simp [Lit.Proper, Lit.var]
  obtain ⟨formula, loaded, compiles⟩ :=
    compilation_preserves_meaning 0 [[1, 2, 2], [-1, 3], [2, -2]] proper (by decide)
  obtain ⟨other, same, normal, _, vars⟩ := Formula.ofClauses_ok 0 proper
  obtain rfl := Except.ok.inj (loaded.symm.trans same)
  refine ⟨formula, loaded, compiles {} _ rfl (fun _ => Oracle.ofFormula_complete normal) fun _ v inside => ?_⟩
  have small : ∀ v ∈ (Clauses.vars [[1, 2, 2], [-1, 3], [2, -2]]).toList, v ≤ 268435456 := by decide
  exact small v (vars v inside)

/-- A solver has no room for a variable beyond the largest one that it can represent: with it the compilation
of two contradictory unit clauses stops with a fault, although the options are accepted and the search for models
is a complete source.
-/
theorem compilation_of_unrepresentable_variable
    : ∃ formula : Formula,
        Formula.ofClauses 0 [[268435457], [-268435457]] = .ok formula
        ∧ Lit.Proper 268435457 ∧ Lit.Proper (-268435457)
        ∧ ({} : CompilerConfig).validate = .ok () ∧ (Oracle.ofFormula formula).Complete formula
        ∧ ∃ last, formula.compile {} = .error (.fault .variableTooLarge) last := by
  obtain ⟨formula, loaded, normal, _⟩ := @Formula.ofClauses_ok 0 [[268435457], [-268435457]] (by decide)
  obtain rfl : formula = { variableCount := 268435457, clauses := [[268435457], [-268435457]] } :=
    Except.ok.inj (loaded.symm.trans (by decide))
  exact ⟨_, loaded, by decide, by decide, rfl, Oracle.ofFormula_complete normal, _, rfl⟩

end KnowledgeCompiler
