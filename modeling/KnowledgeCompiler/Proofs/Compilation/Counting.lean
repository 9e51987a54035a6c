import KnowledgeCompiler.Proofs.Circuit.Exactness
import KnowledgeCompiler.Proofs.Compilation.Correctness

/-! Compiled circuits are countable.

The root of a compilation is decomposable and deterministic, and smooth if that is wanted. Then the models
of the formula over all of its variables that extend an assumption are counted exactly, however often and in
whatever order the compilation is asked.
-/

namespace KnowledgeCompiler

open KnowledgeCompiler.Build
open KnowledgeCompiler.Action (Ensures Computes outcome)

-----------------------------------------------------------------------------------------
-- Regular circuits
-----------------------------------------------------------------------------------------

namespace Circuit

variable {c : Circuit} {id : NodeId}

namespace Regular

theorem inRange (regular : c.Regular) : c.InRange := by
  intro id gate found
  have admits := regular.admits found
  cases gate with
  | constant value => trivial
  | literal l => exact admits
  | and children => trivial
  | or decision children => trivial
  | mapping names child => exact ⟨admits.1, admits.2.2.2⟩
  | twoCnf formula => exact fun clause inside => (admits clause inside).proper
  | horn formula => exact Horn.proper_of_unflipped fun clause inside => (admits.1 clause inside).proper

theorem covered (regular : c.Regular) : c.Covered := fun found => (regular.admits found).2.1

/-- Nothing has been asked of a regular circuit. -/
theorem asked (regular : c.Regular) : Asked c c := by
  have nothing {β : Type} {walk : Walk β} (empty : walk.field.table {} = []) : walk.Remembers c c := by
    intro id node key known found member
    rw [regular.unasked found, empty] at member
    exact absurd member List.not_mem_nil
  exact ⟨rfl, nothing rfl, nothing rfl, nothing rfl⟩

theorem countworthy (regular : c.Regular) (present : id < c.nodes.size) (smooth : c.Smooth id)
    : c.Countworthy id := by
  obtain ⟨node, found⟩ := c.exists_node present
  have throughout := throughoutOf_of_node? found
  obtain ⟨decomposable, deterministic⟩ := (regular.sound present).countable found
  exact ⟨by rw [throughout, decomposable], by rw [throughout, deterministic], by rw [throughout, smooth found]⟩

end Regular

end Circuit

-----------------------------------------------------------------------------------------
-- Compilations that are asked
-----------------------------------------------------------------------------------------

namespace Compilation

variable {compilation : Compilation} {formula : Formula} {config : CompilerConfig} {s : Journaled Circuit}
variable {literals : List Lit}

/-- The states of a compiled circuit while the compilation is asked, in any order and any number of times. -/
inductive Queried (compilation : Compilation) : Journaled Circuit → Prop
  | start (journal : Journal) : Queried compilation ⟨compilation.circuit, journal⟩
  | counted {s : Journaled Circuit} {literals : List Lit} (before : Queried compilation s)
    (small : ∀ l ∈ literals, l.var < 2147483648)
    : Queried compilation (Action.after (compilation.modelCountUnder literals) s)
  | decided {s : Journaled Circuit} (before : Queried compilation s)
    : Queried compilation (Action.after compilation.isSatisfiable s)

namespace Represents

variable (represents : compilation.Represents formula config)

include represents

/-- What counting comes to in the circuit as it was compiled. -/
theorem modelCountUnder_computes (small : ∀ l ∈ literals, l.var < 2147483648)
    : Computes (Asked compilation.circuit) (compilation.modelCountUnder literals)
        (countOverOutcome compilation.circuit compilation.root literals compilation.variableCount) :=
  modelCountOver_computes represents.regular.upToDate represents.regular.inRange small _

/-- What satisfiability comes to in the circuit as it was compiled. -/
theorem isSatisfiable_computes
    : Computes (Asked compilation.circuit) compilation.isSatisfiable
        (satisfiableOutcome .asListed compilation.circuit compilation.root [] []) :=
  Build.isSatisfiableBy_computes represents.regular.upToDate represents.regular.inRange true (by simp) .asListed

/-- Questions only make a compiled circuit remember right answers; induction on the questions. -/
theorem asked (queried : compilation.Queried s) : Asked compilation.circuit s.state := by
  induction queried with
  | start journal => exact represents.regular.asked
  | counted _ small ih => exact (represents.modelCountUnder_computes small).after ih
  | decided _ ih => exact represents.isSatisfiable_computes.after ih

/-- The root is decomposable and deterministic, and smooth if that is wanted. -/
theorem flags
    : ∃ node, compilation.circuit.node? compilation.root = some node
      ∧ node.throughout.decomposable = true ∧ node.throughout.deterministic = true
      ∧ (config.smooth = true → node.throughout.smooth = true) := by
  obtain ⟨node, found⟩ := compilation.circuit.exists_node represents.denotes.present
  obtain ⟨decomposable, deterministic⟩ := (represents.regular.sound represents.denotes.present).countable found
  exact ⟨node, found, decomposable, deterministic, fun wanted => represents.smooth wanted found⟩

/-- Models over all variables of the formula that extend an assumption are counted exactly. -/
theorem modelCountUnder_exact (normal : formula.Normal) (wanted : config.smooth = true)
    (queried : compilation.Queried s) (admissible : Admissible literals)
    (within : ∀ l ∈ literals, l.var ≤ formula.variableCount)
    : outcome (compilation.modelCountUnder literals) s
      = .ok (countOver (.Icc 1 formula.variableCount) fun σ =>
          (∀ l ∈ literals, Lit.TrueIn σ l) ∧ Clauses.TrueIn σ formula.clauses) := by
  have regular := represents.regular
  have denotes := represents.denotes
  have small : ∀ l ∈ literals, l.var < 2147483648 := fun l member => (admissible.proper l member).2
  rw [(represents.modelCountUnder_computes small).outcome_eq (represents.asked queried), represents.variableCount,
    regular.upToDate.countOverOutcome_eq regular.inRange regular.covered denotes.present
      (regular.countworthy denotes.present (represents.smooth wanted)) admissible
      (fun v inside => normal.covered v (denotes.vars inside)) within]
  exact congrArg Except.ok (countOver_congr fun σ => and_congr_right fun _ => denotes.satisfies σ)

/-- The compilation is satisfiable if the formula has a model. -/
theorem isSatisfiable_exact (queried : compilation.Queried s)
    : ∃ answer, outcome compilation.isSatisfiable s = .ok answer
      ∧ (answer = true ↔ ∃ σ, Clauses.TrueIn σ formula.clauses) := by
  have regular := represents.regular
  obtain ⟨node, found, decomposable, _⟩ := represents.flags
  obtain ⟨answer, asked, exact_⟩ := @Circuit.UpToDate.satisfiableOutcome_spec _ _ _ [] [] regular.upToDate
    regular.inRange regular.covered found decomposable ⟨by simp, by simp⟩ (by simp) (by simp) .asListed
  refine ⟨answer, ?_, exact_.trans ?_⟩
  · rw [represents.isSatisfiable_computes.outcome_eq (represents.asked queried), asked]
  · simp [represents.denotes.satisfies]

end Represents

end Compilation

-----------------------------------------------------------------------------------------
-- Compilations that are returned
-----------------------------------------------------------------------------------------

namespace Compiling

variable {formula : Formula} {config : CompilerConfig} {oracle : Oracle}

theorem ensures_config {β : Type} {next : CompilerConfig → Compiling β} {s : Compiler}
    {post : β → Compiler → Prop} {stop : Compiler → Prop} (then_ : Ensures (next s.config) s post stop)
    : Ensures (Compiling.config >>= next) s post stop := then_

/-- With a variable that the solver cannot represent, no solver is made. -/
theorem prepareSolver_ensures (uses : config.useSolver = true)
    (large : oracle.limit < Solver.occurringReach formula)
    : Ensures (prepareSolver formula oracle) (.start config none) (fun _ _ => False) fun _ => True := by
  have unmade := Solver.ofOracle_eq formula oracle
  rw [if_pos (show oracle.limit < Solver.reachOf 0 formula.clauses.flatten from large)] at unmade
  refine ensures_config ?_
  change Ensures (if config.useSolver = true then _ else _) _ _ _
  rw [if_pos uses]
  refine Ensures.checked fun solver made => ?_
  rw [unmade] at made
  cases made

/-- A compilation that uses a solver is returned only if the solver can represent all variables. -/
theorem small_of_returned {compilation : Compilation} {last : Journaled Compiler}
    (returned : formula.compileWith config oracle = .ok compilation last) (uses : config.useSolver = true)
    : Solver.occurringReach formula ≤ oracle.limit := by
  by_contra large
  have stopped : Ensures (Compiling.formula formula oracle) (.start config none) (fun _ _ => False)
      fun _ => True := by
    refine ensures_config ?_
    dsimp only [Compiler.start]
    cases config.validate with
    | error cause => exact Ensures.fail trivial
    | ok _ =>
        exact Ensures.bind (prepareSolver_ensures uses (Nat.lt_of_not_le large)) fun _ _ none_ => none_.elim
  have ended := stopped #[]
  rw [show Compiling.formula formula oracle ⟨.start config none, #[]⟩ = .ok compilation last from returned] at ended
  exact ended

end Compiling

/-- The root of every compilation that is returned is decomposable and deterministic, and smooth if that is
wanted; then the models of the clauses over all variables of the formula that extend an assumption are counted
exactly. A compilation is returned unless a solver is used that cannot represent a variable. The list of
clauses is not longer than a list can be.
-/
theorem compilation_counts_models (variableCount : Nat) (raw : Clauses)
    (proper : ∀ clause ∈ raw, ∀ l ∈ clause, Lit.Proper l)
    (room : raw.length ≤ Hypergraph.largestNodeCount)
    : ∃ formula, Formula.ofClauses variableCount raw = .ok formula
      ∧ ∀ (config : CompilerConfig) (oracle : Oracle), config.validate = .ok ()
        → (config.useSolver = true → oracle.Complete formula)
        → ((config.useSolver = true → ∀ v, v ∈ formula.occurring → v ≤ oracle.limit)
            → ∃ compilation last, formula.compileWith config oracle = .ok compilation last)
          ∧ ∀ compilation last, formula.compileWith config oracle = .ok compilation last
            → ∃ node, compilation.circuit.node? compilation.root = some node
              ∧ node.throughout.decomposable = true ∧ node.throughout.deterministic = true
              ∧ (config.smooth = true
                → node.throughout.smooth = true
                  ∧ ∀ s, compilation.Queried s → ∀ literals, Admissible literals
                    → (∀ l ∈ literals, l.var ≤ formula.variableCount)
                    → outcome (compilation.modelCountUnder literals) s
                      = .ok (countOver (.Icc 1 formula.variableCount) fun σ =>
                          (∀ l ∈ literals, Lit.TrueIn σ l) ∧ Clauses.TrueIn σ raw))
              ∧ ∀ s, compilation.Queried s → ∃ answer, outcome compilation.isSatisfiable s = .ok answer
                ∧ (answer = true ↔ ∃ σ, Clauses.TrueIn σ raw) := by
  obtain ⟨formula, loaded, normal, meaning, _⟩ := Formula.ofClauses_ok variableCount proper
  have fits := Nat.le_trans (Formula.length_ofClauses_le loaded) room
  refine ⟨formula, loaded, fun config oracle valid complete => ⟨fun small => ?_, ?_⟩⟩
  · have bound : config.useSolver = true → Solver.occurringReach formula ≤ oracle.limit :=
      fun uses => Solver.occurringReach_le_of_forall (small uses)
    obtain ⟨compilation, last, run, _⟩ := normal.compileWith_represents fits valid complete bound
    exact ⟨compilation, last, run⟩
  · intro compilation last returned
    obtain ⟨same, last', run, represents⟩ :=
      normal.compileWith_represents fits valid complete (Compiling.small_of_returned returned)
    obtain ⟨rfl, -⟩ : compilation = same ∧ last = last' := by simpa using returned.symm.trans run
    obtain ⟨node, found, decomposable, deterministic, smooth⟩ := represents.flags
    refine ⟨node, found, decomposable, deterministic, fun wanted => ⟨smooth wanted, ?_⟩, fun s queried => ?_⟩
    · intro s queried literals admissible within
      rw [represents.modelCountUnder_exact normal wanted queried admissible within]
      exact congrArg Except.ok (countOver_congr fun σ => and_congr_right fun _ => meaning σ)
    · obtain ⟨answer, asked, exact_⟩ := represents.isSatisfiable_exact queried
      exact ⟨answer, asked, exact_.trans (exists_congr meaning)⟩

/-- Two clauses, one with a repeated literal, and a tautology, under the standard options: the models that
make the first of four variables true, after a first question.
-/
theorem compilation_counts_repeated_literals
    : ∃ formula, Formula.ofClauses 4 [[1, 2, 2], [-1, 3], [2, -2]] = .ok formula
      ∧ ∃ compilation last, formula.compile {} = .ok compilation last
        ∧ (∃ node, compilation.circuit.node? compilation.root = some node
          ∧ node.throughout.decomposable = true ∧ node.throughout.deterministic = true
          ∧ node.throughout.smooth = true)
        ∧ outcome (compilation.modelCountUnder [1])
            (Action.after compilation.isSatisfiable ⟨compilation.circuit, #[]⟩)
          = .ok (countOver (.Icc 1 formula.variableCount) fun σ =>
              (∀ l ∈ [1], Lit.TrueIn σ l) ∧ Clauses.TrueIn σ [[1, 2, 2], [-1, 3], [2, -2]]) := by
  have proper : ∀ clause ∈ ([[1, 2, 2], [-1, 3], [2, -2]] : Clauses), ∀ l ∈ clause, Lit.Proper l := by decide
  obtain ⟨formula, loaded, counts⟩ :=
    compilation_counts_models 4 [[1, 2, 2], [-1, 3], [2, -2]] proper (by decide)
  obtain ⟨other, same, normal, _, vars⟩ := Formula.ofClauses_ok 4 proper
  obtain rfl := Except.ok.inj (loaded.symm.trans same)
  have small : ∀ v ∈ (Clauses.vars [[1, 2, 2], [-1, 3], [2, -2]]).toList, v ≤ 268435456 := by decide
  obtain ⟨returns, exact_⟩ := counts {} _ rfl fun _ => Oracle.ofFormula_complete normal
  obtain ⟨compilation, last, returned⟩ := returns fun _ v inside => small v (vars v inside)
  obtain ⟨node, found, decomposable, deterministic, smooth, _⟩ := exact_ compilation last returned
  obtain ⟨smooth, count⟩ := smooth rfl
  have four : formula.variableCount = 4 := by
    have read : Formula.ofClauses 4 [[1, 2, 2], [-1, 3], [2, -2]] = .ok ⟨4, [[1, 2], [-1, 3]]⟩ := by decide
    rw [Except.ok.inj (loaded.symm.trans read)]
  refine ⟨formula, loaded, compilation, last, returned, ⟨node, found, decomposable, deterministic, smooth⟩, ?_⟩
  exact count _ (.decided (.start #[])) [1] ⟨by decide, by decide⟩ (by rw [four]; decide)

end KnowledgeCompiler
