import KnowledgeCompiler.Proofs.Compilation.Materialization
import KnowledgeCompiler.Proofs.Compilation.Meaning

/-! The compilation descends.

A formula whose implied literals are assigned falls into components or is divided by the two values of a
branching variable. `Subproblem` says which formulas that leads to, and `Enters` which formulas are entered from
another one. They have fewer variables, so the recursion ends: its equation has one solution on the formulas that
are entered, and every bound on the depth above the number of variables gives that solution.
-/

namespace KnowledgeCompiler.Compiling

open KnowledgeCompiler.Action Residual

variable {g h : Residual} {frame : Frame} {call call' : CompileCall}

-----------------------------------------------------------------------------------------
-- Formulas that are entered
-----------------------------------------------------------------------------------------

/-- The formulas that the search goes on with when it has found no leaf: the components of a formula, if there are
several, in place or apart and with whatever model at hand, and both sides of a branching variable, whatever the
rule and the cut set.
-/
inductive Subproblem (g : Residual) : Residual → Prop where
  | component {component : SortedSet Var} (several : 1 < g.components.length) (found : component ∈ g.components)
    (materialize : Bool) (model : Option Model)
    : Subproblem g (isolate materialize g (SortedSet.unionAll g.components) model component)
  | side {rule : BranchingRule} {cut : SortedSet Var} {v : Var} {l : Lit} (chosen : rule.choose cut g = some v)
    (either : l = Lit.word v ∨ Lit.negate (Lit.word v) = .ok l)
    : Subproblem g (g.assign [l])

/-- The literals are over variables of the formula, and assigning them neither refutes nor finishes it. -/
structure Reduces (g : Residual) (literals : List Lit) : Prop where
  inside : ∀ l ∈ literals, l.var ∈ g.vars
  nonempty : ¬ [] ∈ (g.assign literals).current
  unfinished : (g.assign literals).current ≠ []

theorem Reduces.of_flags {literals : List Lit} (inside : ∀ l ∈ literals, l.var ∈ g.vars)
    (nonempty : ¬ (g.assign literals).hasEmptyClause = true) (unfinished : ¬ (g.assign literals).isEmpty = true)
    : Reduces g literals :=
  ⟨inside, fun empty => nonempty (hasEmptyClause_iff.mpr empty), fun done => unfinished (isEmpty_iff.mpr done)⟩

/-- While the formula `g` is compiled, the formula `h` may be entered. -/
def Enters (g h : Residual) : Prop := ∃ literals, Reduces g literals ∧ Subproblem (g.assign literals) h

/-- The formulas that the compilation of a formula may enter. -/
inductive Entered (formula : Formula) : Residual → Prop where
  | start : Entered formula (.ofClauses formula.clauses)
  | inner {g h : Residual} (outer : Entered formula g) (enters : Enters g h) : Entered formula h

/-- What holds of all formulas that are entered. -/
structure Neat (g : Residual) : Prop where
  wellFormed : g.WellFormed
  tidy : g.current.Tidy

namespace Neat

theorem ofClauses {clauses : Clauses} (tidy : clauses.Tidy) : Neat (.ofClauses clauses) :=
  ⟨.ofClauses _, (current_ofClauses clauses).symm ▸ tidy⟩

theorem assign (neat : Neat g) (literals : List Lit) : Neat (g.assign literals) where
  wellFormed := neat.wellFormed.assign literals
  tidy := by
    rw [current_assign neat.wellFormed]
    exact neat.tidy.assignEach literals

theorem isolate (neat : Neat g) (nonempty : ¬ [] ∈ g.current) (materialize : Bool) (all : SortedSet Var)
    (model : Option Model) (component : SortedSet Var)
    : Neat (isolate materialize g all model component) where
  wellFormed := (neat.wellFormed.divide materialize component).fix _
  tidy := by
    rw [current_isolate materialize nonempty]
    exact fun clause inside => neat.tidy clause ((mem_current_restrict nonempty).mp inside).1

theorem size_vars_assign_le (neat : Neat g) (literals : List Lit)
    : (g.assign literals).vars.size ≤ g.vars.size := by
  rw [vars, current_assign neat.wellFormed]
  exact SortedSet.size_le fun v inside => (Clauses.mem_vars_assignEach inside).1

end Neat

theorem Subproblem.neat (sub : Subproblem g h) (neat : Neat g) (nonempty : ¬ [] ∈ g.current) : Neat h := by
  cases sub with
  | component several found materialize model => exact neat.isolate nonempty _ _ _ _
  | side chosen either => exact neat.assign _

/-- A component misses a variable of another one, and a side misses the branching variable. -/
theorem Subproblem.size_lt (sub : Subproblem g h) (neat : Neat g) (nonempty : ¬ [] ∈ g.current)
    : h.vars.size < g.vars.size := by
  cases sub with
  | component several found materialize model =>
      rw [vars, current_isolate materialize nonempty]
      exact size_component_lt nonempty several found
  | side chosen either =>
      have occurs := BranchingRule.choose_mem neat.wellFormed chosen
      rw [vars, current_assign neat.wellFormed]
      exact Clauses.size_vars_assign_lt ((var_of_branch neat.tidy occurs either).symm ▸ occurs)

theorem Enters.neat (enters : Enters g h) (neat : Neat g) : Neat h := by
  obtain ⟨literals, reduces, sub⟩ := enters
  exact sub.neat (neat.assign literals) reduces.nonempty

/-- A formula that is entered has fewer variables. -/
theorem Enters.size_lt (enters : Enters g h) (neat : Neat g) : h.vars.size < g.vars.size := by
  obtain ⟨literals, reduces, sub⟩ := enters
  calc h.vars.size
    _ < (g.assign literals).vars.size := sub.size_lt (neat.assign literals) reduces.nonempty
    _ ≤ g.vars.size := neat.size_vars_assign_le literals

/-- Induction along the formulas that are entered. -/
theorem Entered.neat {formula : Formula} (entered : Entered formula g) (normal : formula.Normal) : Neat g := by
  induction entered with
  | start => exact .ofClauses normal.tidy
  | inner _ enters ih => exact enters.neat ih

-----------------------------------------------------------------------------------------
-- The calls of one step
-----------------------------------------------------------------------------------------

/-- Components are compiled one by one; induction on the components. -/
theorem compileEach_congr {compile compile' : SortedSet Var → Compiling NodeId} {components : List (SortedSet Var)}
    (same : ∀ component ∈ components, compile component = compile' component) (done : List NodeId)
    : compileEach compile components done = compileEach compile' components done := by
  induction components generalizing done with
  | nil => rfl
  | cons component rest ih =>
      obtain ⟨first, others⟩ := List.forall_mem_cons.mp same
      rw [compileEach, compileEach, first]
      refine bind_congr fun child => bind_congr fun isFalse => ?_
      rw [ih others]

/-- Two calls do the same with the subproblems of a formula, one level below a frame. -/
def SameBelow (g : Residual) (frame : Frame) (call call' : CompileCall) : Prop :=
  ∀ h next, Subproblem g h → next.depth = frame.depth + 1 → call h next = call' h next

theorem split_congr (same : SameBelow g frame call call') (several : 1 < g.components.length) (model : Option Model)
    : split call g g.components frame model = split call' g g.components frame model := by
  unfold split
  refine bind_congr fun _ => bind_congr fun _ => bind_congr fun known => ?_
  have each : ∀ (materialize : Bool) (next : Frame), next.depth = frame.depth + 1
      → compileEach
          (fun component =>
            call (isolate materialize g (SortedSet.unionAll g.components) known.model? component) next)
          g.components []
        = compileEach
          (fun component =>
            call' (isolate materialize g (SortedSet.unionAll g.components) known.model? component) next)
          g.components [] := fun materialize next deeper =>
    compileEach_congr (fun component found => same _ _ (.component several found materialize _) deeper) []
  cases known with
  | refuted => rfl
  | unknown => exact bind_congr fun config => each _ _ rfl
  | model found => exact bind_congr fun config => each _ _ rfl

theorem branch_congr (same : SameBelow g frame call call') : branch call g frame = branch call' g frame := by
  unfold branch
  refine bind_congr fun cutSet => bind_congr fun config => ?_
  cases chosen : config.branching.choose cutSet g with
  | none => rfl
  | some v =>
      refine bind_congr fun _ => bind_congr fun _ => ?_
      dsimp only
      rw [same _ _ (.side chosen (.inl rfl)) rfl]
      refine bind_congr fun high => ?_
      cases negated : Lit.negate (Lit.word v) with
      | error cause => rfl
      | ok negative => exact congrArg (· >>= join v high) (same _ _ (.side chosen (.inr negated)) rfl)

theorem compileReduced_congr (same : SameBelow g frame call call') (model : Option Model)
    : compileReduced call g frame model = compileReduced call' g frame model := by
  unfold compileReduced
  refine congrArg _ (bind_congr fun leaf => ?_)
  cases leaf with
  | some leaf => rfl
  | none =>
      dsimp only
      split
      · rename_i several
        exact split_congr same several model
      · exact branch_congr same

/-- What comes after the implied literals depends on literals over variables of the component only. -/
theorem impliedLiterals_congr {α : Type} {next next' : Option (List Lit) → Compiling α}
    (refuted : next none = next' none)
    (implied : ∀ literals, (∀ l ∈ literals, l.var ∈ g.vars) → next (some literals) = next' (some literals))
    : impliedLiterals g >>= next = impliedLiterals g >>= next' := by
  unfold impliedLiterals
  simp only [bind_assoc, pure_bind]
  refine bind_congr fun found => ?_
  cases found with
  | none => exact refuted
  | some literals => exact implied _ (impliedLiterals_inside g literals)

theorem compileImplied_congr
    (same : ∀ literals, Reduces g literals → SameBelow (g.assign literals) frame call call') (model : Option Model)
    : compileImplied (compileReduced call) g frame model = compileImplied (compileReduced call') g frame model := by
  unfold compileImplied
  refine impliedLiterals_congr rfl fun literals inside => ?_
  refine bind_congr fun _ => bind_congr fun conjuncts => ?_
  dsimp only
  split
  · rfl
  rename_i nonempty
  split
  · rfl
  rename_i unfinished
  rw [compileReduced_congr (same literals (.of_flags inside nonempty unfinished))]

/-- A component is compiled by calls on formulas that are entered from it, one level deeper. -/
theorem compileStep_congr (same : ∀ h next, Enters g h → next.depth = frame.depth + 1 → call h next = call' h next)
    : compileStep call g frame = compileStep call' g frame := by
  have below : ∀ literals, Reduces g literals → SameBelow (g.assign literals) frame call call' :=
    fun literals reduces h next sub deeper => same h next ⟨literals, reduces, sub⟩ deeper
  have inner : ∀ model,
      compileOpen (compileReduced call) g frame model = compileOpen (compileReduced call') g frame model := by
    intro model
    rw [compileOpen, compileOpen, compileImplied_congr below]
  unfold compileStep compileStepBy
  simp only [inner]

-----------------------------------------------------------------------------------------
-- The recursion
-----------------------------------------------------------------------------------------

/-- The compilation of a component, with enough depth for its variables. -/
def compileFully : CompileCall := fun g frame => compileWithin (g.vars.size + 1) g frame

/-- Two bounds above the number of variables give the same; induction on the first bound. -/
theorem compileWithin_eq (neat : Neat g) {bound bound' : Nat} (above : g.vars.size < bound)
    (above' : g.vars.size < bound') (frame : Frame)
    : compileWithin bound g frame = compileWithin bound' g frame := by
  induction bound generalizing g frame bound' with
  | zero => exact absurd above (Nat.not_lt_zero _)
  | succ bound ih =>
      cases bound' with
      | zero => exact absurd above' (Nat.not_lt_zero _)
      | succ bound' =>
          refine compileStep_congr fun h next enters _ => ?_
          have smaller := enters.size_lt neat
          exact ih (enters.neat neat) (by omega) (by omega) next

/-- With enough depth a component is compiled by calls with enough depth. -/
theorem compileFully_eq (neat : Neat g) (frame : Frame)
    : compileFully g frame = compileStep compileFully g frame := by
  refine compileStep_congr fun h next enters _ => ?_
  exact compileWithin_eq (enters.neat neat) (enters.size_lt neat) (Nat.lt_succ_self _) next

/-- The recursion has no other solution on the formulas that are entered; induction on the number of variables. -/
theorem eq_compileFully {formula : Formula} (normal : formula.Normal) {solution : CompileCall}
    (solves : ∀ g, Entered formula g → ∀ frame, solution g frame = compileStep solution g frame)
    (entered : Entered formula g) (frame : Frame)
    : solution g frame = compileFully g frame := by
  induction size : g.vars.size using Nat.strongRecOn generalizing g frame with
  | ind n ih =>
      have neat := entered.neat normal
      rw [solves g entered, compileFully_eq neat]
      refine compileStep_congr fun h next enters _ => ?_
      exact ih _ (size ▸ enters.size_lt neat) (entered.inner enters) next rfl

end KnowledgeCompiler.Compiling
