import KnowledgeCompiler.Proofs.Compilation.Counting
import KnowledgeCompiler.Proofs.Compilation.Descent

/-! What a compilation counts of its search.

Every cut set that is handed to a branching rule leads to a branching: the case that no variable is left to branch on
does not occur. The depth of the search stays within the number of variables.
-/

namespace KnowledgeCompiler

/-- The counts of branchings and of cut sets, and the depth. -/
structure SearchCounts where
  decisions : Nat
  cutSets : Nat
  maxDepth : Nat

/-- What the counts tell of the search. -/
def Statistics.search (counts : Statistics) : SearchCounts :=
  ⟨counts.decisions, counts.cutSetsComputed + counts.cutSetsReused, counts.maxDepth⟩

namespace Compiling

open KnowledgeCompiler.Action Residual

variable {α β : Type} {p : SearchCounts → Prop} {s : Compiler} {g h : Residual}

-----------------------------------------------------------------------------------------
-- Conditions that are kept
-----------------------------------------------------------------------------------------

/-- If the action ends well, then a condition on the counts of the search still holds. -/
def Keeps (p : SearchCounts → Prop) (action : Compiling α) : Prop :=
  ∀ s, p s.statistics.search → Ensures action s (fun _ t => p t.statistics.search) fun _ => True

namespace Keeps

variable {action : Compiling α} {next : α → Compiling β}

theorem pure (a : α) : Keeps p (Pure.pure a : Compiling α) := fun _ holds => Ensures.pure holds

theorem fail {cause : CompileError} : Keeps p (Action.fail cause : Compiling α) := fun _ _ => Ensures.fail trivial

theorem bind (first : Keeps p action) (second : ∀ a, Keeps p (next a)) : Keeps p (action >>= next) :=
  fun s holds => (first s holds).bind fun a t holds => second a t holds

theorem current {next : Compiler → Compiling β} (then_ : ∀ s, Keeps p (next s)) : Keeps p (Action.current >>= next) :=
  fun s holds => Ensures.current (then_ s s holds)

theorem config {next : CompilerConfig → Compiling β} (then_ : ∀ config, Keeps p (next config))
    : Keeps p (Compiling.config >>= next) := fun s holds => ensures_config (then_ s.config s holds)

theorem update {change : Compiler → Compiler} {next : Unit → Compiling β}
    (same : ∀ s, (change s).statistics.search = s.statistics.search) (then_ : Keeps p (next ()))
    : Keeps p (Action.update change >>= next) :=
  fun s holds => Ensures.update (then_ _ ((same s).symm ▸ holds))

theorem note {event : Event} {next : Unit → Compiling β} (then_ : Keeps p (next ()))
    : Keeps p (Action.note event >>= next) := fun s holds => Ensures.note (then_ s holds)

theorem lifted (value : Checked α) : Keeps p (liftM value : Compiling α) := by
  cases value with
  | ok a => exact pure a
  | error cause => exact fun _ _ _ => trivial

theorem checked {value : Checked α} (then_ : ∀ a, Keeps p (next a)) : Keeps p ((liftM value : Compiling α) >>= next) :=
  (lifted value).bind then_

/-- A part of the state is replaced and the counts are not. -/
theorem within {ε σ : Type} {part : σ} {replace : Compiler → σ → Compiler} {cause : ε → CompileError}
    {action : Action ε σ α} (same : ∀ s part, (replace s part).statistics.search = s.statistics.search)
    : Keeps p (Action.within part replace cause action) := by
  intro s holds journal
  simp only [Action.within]
  cases action ⟨part, journal⟩ with
  | ok a t => exact (congrArg p (same s t.state)).mpr holds
  | error why t => cases why <;> trivial

theorem onCircuit (build : Build α) : Keeps p (onCircuit build) :=
  Keeps.current fun _ => Keeps.update (fun _ => rfl) (Keeps.within fun _ _ => rfl)

theorem onSolver (solver : Solver) (ask : Action CompileError Solver α) : Keeps p (onSolver solver ask) :=
  Keeps.within fun _ _ => rfl

theorem onCutSets (work : Action CompileError CutSets α) : Keeps p (onCutSets work) :=
  Keeps.current fun _ => Keeps.within fun _ _ => rfl

theorem count {change : Statistics → Statistics} {next : Unit → Compiling β}
    (same : ∀ counts, (change counts).search = counts.search) (then_ : Keeps p (next ()))
    : Keeps p (count change >>= next) := Keeps.update (fun s => same s.statistics) then_

end Keeps

theorem unsatisfiable_keeps : Keeps p unsatisfiable := Keeps.count (fun _ => rfl) (.onCircuit _)

theorem reinstate_keeps (entry : CacheEntry) (names : Option Renaming) : Keeps p (reinstate entry names) := by
  unfold reinstate
  split
  · exact .pure _
  · refine Keeps.config fun config => ?_
    dsimp only
    repeat' split
    all_goals first | exact .pure _ | exact .onCircuit _

theorem cached_keeps {hit : Statistics → Statistics} {compile : Compiling NodeId}
    (same : ∀ counts, (hit counts).search = counts.search) (keeps : Keeps p compile)
    : Keeps p (cached hit g compile) := by
  refine Keeps.current fun s => ?_
  split
  · exact keeps
  · refine Keeps.bind (Keeps.update (fun _ => rfl) (.pure _)) fun found => ?_
    split
    · exact (reinstate_keeps _ _).bind fun _ => Keeps.count same (.pure _)
    · exact keeps.bind fun _ => Keeps.update (fun _ => rfl) (.pure _)

theorem askModel_keeps : Keeps p (askModel g) := by
  refine Keeps.current fun s => ?_
  split
  · exact .pure _
  · refine (Keeps.onSolver _ _).bind fun found => ?_
    split <;> exact .pure _

theorem prospect_keeps (frame : Frame) : Keeps p (prospect g frame) := by
  unfold prospect
  split
  · exact .pure _
  refine Keeps.current fun s => ?_
  split
  · exact askModel_keeps
  · refine Keeps.checked fun found => ?_
    split <;> exact .pure _

theorem consult_keeps (model : Option Model) : Keeps p (consult g model) := by
  cases model with
  | none => exact askModel_keeps
  | some model => exact .pure _

theorem findImplied_keeps : Keeps p (findImplied g) := by
  refine Keeps.config fun config => Keeps.current fun s => ?_
  dsimp only
  split
  · exact .onSolver _ _
  · exact .lifted _
  · exact (Keeps.onSolver _ _).bind fun _ => .pure _
  · exact Keeps.checked fun _ => .pure _
  · exact .onSolver _ _
  · exact .fail

/-- What comes after the implied literals has to keep the condition for literals over variables of the component. -/
theorem impliedLiterals_keeps {next : Option (List Lit) → Compiling α} (refuted : Keeps p (next none))
    (implied : ∀ literals, (∀ l ∈ literals, l.var ∈ g.vars) → Keeps p (next (some literals)))
    : Keeps p (impliedLiterals g >>= next) := by
  unfold impliedLiterals
  simp only [bind_assoc, pure_bind]
  refine findImplied_keeps.bind fun found => ?_
  cases found with
  | none => exact refuted
  | some literals => exact implied _ (impliedLiterals_inside g literals)

theorem leaf?_keeps : Keeps p (leaf? g) := by
  refine Keeps.config fun config => ?_
  split
  · exact .pure _
  split
  · exact Keeps.count (fun _ => rfl) (Keeps.checked fun _ => (Keeps.onCircuit _).bind fun _ => .pure _)
  split
  · refine Keeps.checked fun flipped => ?_
    split
    · exact .pure _
    · exact Keeps.count (fun _ => rfl) (Keeps.checked fun _ => (Keeps.onCircuit _).bind fun _ => .pure _)
  · exact .pure _

theorem join_keeps (v : Var) (high low : NodeId) : Keeps p (join v high low) := by
  unfold join
  generalize Lit.word v = positive
  refine (Keeps.onCircuit _).bind fun highFalse => (Keeps.onCircuit _).bind fun lowFalse => ?_
  cases highFalse <;> cases lowFalse <;> dsimp only
  · exact .onCircuit _
  · exact (Keeps.onCircuit _).bind fun _ => .onCircuit _
  · exact Keeps.checked fun _ => (Keeps.onCircuit _).bind fun _ => .onCircuit _
  · exact .pure _

-----------------------------------------------------------------------------------------
-- The search
-----------------------------------------------------------------------------------------

/-- Every cut set led to a branching, and the search has stayed within a depth. -/
structure Balanced (depth : Nat) (counts : SearchCounts) : Prop where
  decided : counts.decisions = counts.cutSets
  shallow : counts.maxDepth ≤ depth

/-- A cut set is counted, inherited or not. -/
theorem chooseCutSet_ensures (inherited : Option (SortedSet Var)) (s : Compiler)
    : Ensures (chooseCutSet g inherited) s
        (fun _ t => t.statistics.search
          = { s.statistics.search with cutSets := s.statistics.search.cutSets + 1 })
        fun _ => True := by
  unfold chooseCutSet
  refine ensures_config ?_
  dsimp only
  split
  · refine Ensures.update (Ensures.pure ?_)
    simp [Statistics.search]
    omega
  · refine Ensures.update ?_
    refine Keeps.onCutSets (p := (· = _)) _ _ ?_
    simp [Statistics.search]
    omega

variable {call : CompileCall} {frame : Frame} {depth : Nat}

/-- The calls on the formulas inside another one keep a condition, one level below a frame. -/
def KeepsBelow (p : SearchCounts → Prop) (g : Residual) (frame : Frame) (call : CompileCall) : Prop :=
  ∀ h next, Subproblem g h → next.depth = frame.depth + 1 → Keeps p (call h next)

/-- Components are compiled one by one; induction on the components. -/
theorem compileEach_keeps {compile : SortedSet Var → Compiling NodeId} {components : List (SortedSet Var)}
    (keeps : ∀ component ∈ components, Keeps p (compile component)) (done : List NodeId)
    : Keeps p (compileEach compile components done) := by
  induction components generalizing done with
  | nil => exact .onCircuit _
  | cons component rest ih =>
      obtain ⟨first, others⟩ := List.forall_mem_cons.mp keeps
      refine first.bind fun child => (Keeps.onCircuit _).bind fun isFalse => ?_
      cases isFalse with
      | true => exact .pure _
      | false => exact ih others _

theorem split_keeps (below : KeepsBelow p g frame call) (several : 1 < g.components.length) (model : Option Model)
    : Keeps p (split call g g.components frame model) := by
  unfold split
  refine Keeps.count (fun _ => rfl) (Keeps.note ((consult_keeps model).bind fun known => ?_))
  have each : ∀ (materialize : Bool) (next : Frame), next.depth = frame.depth + 1
      → Keeps p (compileEach
          (fun component =>
            call (isolate materialize g (SortedSet.unionAll g.components) known.model? component) next)
          g.components []) := fun materialize next deeper =>
    compileEach_keeps (fun component found => below _ _ (.component several found materialize _) deeper) []
  cases known with
  | refuted => exact unsatisfiable_keeps
  | unknown => exact Keeps.config fun config => each _ _ rfl
  | model found => exact Keeps.config fun config => each _ _ rfl

/-- A cut set that is chosen is followed by a branching, as there is a variable to branch on. -/
theorem branch_keeps (neat : Neat g) (nonempty : ¬ [] ∈ g.current) (unfinished : g.current ≠ [])
    (below : KeepsBelow (Balanced depth) g frame call)
    : Keeps (Balanced depth) (branch call g frame) := by
  intro s balanced
  refine (chooseCutSet_ensures frame.cutSet s).bind fun cutSet t chosen => ensures_config ?_
  obtain ⟨v, choice, _⟩ := BranchingRule.exists_choice neat.wellFormed nonempty unfinished t.config.branching cutSet
  rw [choice]
  dsimp only
  refine Ensures.update (Keeps.note (p := Balanced depth) ?_ _ ?_)
  · generalize word : Lit.word v = positive
    have side : ∀ l next, l = positive ∨ Lit.negate positive = .ok l → next.depth = frame.depth + 1
        → Keeps (Balanced depth) (call (g.assign [l]) next) :=
      fun l next either deeper => below _ _ (.side choice (word ▸ either)) deeper
    refine (side _ _ (.inl rfl) rfl).bind fun high => ?_
    cases negated : Lit.negate positive with
    | error cause => exact fun _ _ _ => trivial
    | ok negative => exact (side _ _ (.inr negated) rfl).bind fun low => join_keeps v high low
  · have counted := balanced.decided
    have shallow := balanced.shallow
    simp only [Statistics.search, SearchCounts.mk.injEq] at chosen counted shallow
    obtain ⟨decisions, cutSets, maxDepth⟩ := chosen
    exact ⟨by simp only [Statistics.search]; omega, by simp only [Statistics.search]; omega⟩

theorem compileReduced_keeps (neat : Neat g) (nonempty : ¬ [] ∈ g.current) (unfinished : g.current ≠ [])
    (below : KeepsBelow (Balanced depth) g frame call) (model : Option Model)
    : Keeps (Balanced depth) (compileReduced call g frame model) := by
  refine cached_keeps (fun _ => rfl) (leaf?_keeps.bind fun leaf => ?_)
  cases leaf with
  | some leaf => exact .pure _
  | none =>
      dsimp only
      split
      · rename_i several
        exact split_keeps below several model
      · exact branch_keeps neat nonempty unfinished below

theorem compileImplied_keeps (neat : Neat g)
    (below : ∀ literals, Reduces g literals → KeepsBelow (Balanced depth) (g.assign literals) frame call)
    (model : Option Model)
    : Keeps (Balanced depth) (compileImplied (compileReduced call) g frame model) := by
  refine impliedLiterals_keeps unsatisfiable_keeps fun literals inside => ?_
  refine Keeps.count (fun _ => rfl) ((Keeps.onCircuit _).bind fun conjuncts => ?_)
  dsimp only
  split
  · exact unsatisfiable_keeps
  rename_i nonempty
  split
  · exact .onCircuit _
  rename_i unfinished
  have reduces : Reduces g literals := .of_flags inside nonempty unfinished
  refine (compileReduced_keeps (neat.assign literals) reduces.nonempty reduces.unfinished (below literals reduces)
    model).bind fun inner => (Keeps.onCircuit _).bind fun isFalse => ?_
  split
  · exact .pure _
  · exact .onCircuit _

/-- A component keeps the balance if those that are entered from it do, one level deeper. -/
theorem compileStep_keeps (neat : Neat g) (room : frame.depth ≤ depth)
    (inner : ∀ h next, Enters g h → next.depth = frame.depth + 1 → Keeps (Balanced depth) (call h next))
    : Keeps (Balanced depth) (compileStep call g frame) := by
  have below : ∀ literals, Reduces g literals → KeepsBelow (Balanced depth) (g.assign literals) frame call :=
    fun literals reduces h next sub deeper => inner h next ⟨literals, reduces, sub⟩ deeper
  have open_ : ∀ model, Keeps (Balanced depth) (compileOpen (compileReduced call) g frame model) := fun model =>
    cached_keeps (fun _ => rfl) (compileImplied_keeps neat below model)
  intro s balanced
  refine Ensures.update (Keeps.note (p := Balanced depth) ?_ _ ⟨balanced.decided, ?_⟩)
  · split
    · exact unsatisfiable_keeps
    split
    · exact .onCircuit _
    refine (prospect_keeps frame).bind fun prospect => ?_
    cases prospect with
    | refuted => exact unsatisfiable_keeps
    | unknown => exact open_ none
    | model found => exact open_ (some found)
  · exact Nat.max_le.mpr ⟨balanced.shallow, room⟩

/-- The depth of a component and the number of its variables stay together within a bound; induction on the bound of
the recursion.
-/
theorem compileWithin_keeps (neat : Neat g) (room : frame.depth + g.vars.size ≤ depth) (bound : Nat)
    : Keeps (Balanced depth) (compileWithin bound g frame) := by
  induction bound generalizing g frame with
  | zero => exact fun _ _ => Ensures.fault
  | succ bound ih =>
      refine compileStep_keeps neat (Nat.le_trans (Nat.le_add_right _ _) room) fun h next enters deeper => ?_
      have smaller := enters.size_lt neat
      exact ih (enters.neat neat) (by omega)

/-- The counts of a compilation that is returned are balanced. -/
theorem formula_ensures {formula : Formula} (normal : formula.Normal) (config : CompilerConfig) (oracle : Oracle)
    : Ensures (Compiling.formula formula oracle) (.start config none)
        (fun compilation _ => Balanced formula.occurring.size compilation.statistics.search) fun _ => True := by
  have searched : Keeps (Balanced formula.occurring.size) (residual (.ofClauses formula.clauses)) := by
    refine compileWithin_keeps (.ofClauses normal.tidy) ?_ _
    rw [vars, current_ofClauses]
    exact Nat.le_of_eq (Nat.zero_add _)
  have prepared : Keeps (Balanced formula.occurring.size) (prepareSolver formula oracle) := by
    refine Keeps.config fun config => ?_
    split
    · exact Keeps.checked fun solver _ holds => Ensures.updated holds
    · exact .pure _
  have reported : Keeps (Balanced formula.occurring.size) (report formula) :=
    Keeps.current fun _ => Keeps.note (Keeps.note fun _ holds _ => holds)
  unfold Compiling.formula Compiling.formulaBy
  refine ensures_config ?_
  dsimp only [Compiler.start]
  cases config.validate with
  | error cause => exact Ensures.fail trivial
  | ok _ =>
      refine (prepared _ ⟨rfl, Nat.zero_le _⟩).bind fun _ s balanced => ?_
      refine (searched s balanced).bind fun root t balanced => ?_
      refine (Keeps.onCircuit _ t balanced).bind fun _ u balanced => ?_
      refine (reported u balanced).bind fun _ w balanced => ?_
      exact Ensures.current (Ensures.pure balanced)

end Compiling

/-- How the compilation of a formula descends: what its recursion comes to on the formulas that are entered, and what
it counts.
-/
structure Formula.Descends (formula : Formula) : Prop where
  /-- A component is compiled by calls on formulas with fewer variables, one level deeper. -/
  calls
    : ∀ g, Compiling.Entered formula g
        → ∀ (frame : Frame) (call call' : CompileCall),
          (∀ h next, Compiling.Entered formula h → h.vars.size < g.vars.size → next.depth = frame.depth + 1
            → call h next = call' h next)
          → Compiling.compileStep call g frame = Compiling.compileStep call' g frame
  /-- Components and sides of a branching have fewer variables. -/
  smaller : ∀ g h, Compiling.Entered formula g → Compiling.Enters g h → h.vars.size < g.vars.size
  /-- Without a bound on the depth, the recursion has a solution. -/
  solvable
    : ∀ g, Compiling.Entered formula g
        → ∀ frame, Compiling.compileFully g frame = Compiling.compileStep Compiling.compileFully g frame
  /-- It has no other solution. -/
  unique
    : ∀ solution : CompileCall,
        (∀ g, Compiling.Entered formula g → ∀ frame, solution g frame = Compiling.compileStep solution g frame)
        → ∀ g, Compiling.Entered formula g → ∀ frame, solution g frame = Compiling.compileFully g frame
  /-- Every bound on the depth above the number of variables gives this solution. -/
  bounded
    : ∀ g, Compiling.Entered formula g
        → ∀ bound, g.vars.size < bound
        → ∀ frame, Compiling.compileWithin bound g frame = Compiling.compileFully g frame
  /-- Where there is something to branch on, every rule chooses a variable of a current clause from every cut set. -/
  chooses
    : ∀ g literals, Compiling.Entered formula g
        → Compiling.Reduces g literals
        → ∀ (rule : BranchingRule) (cut : SortedSet Var),
          ∃ v, rule.choose cut (g.assign literals) = some v
            ∧ 0 < (g.assign literals).occurrences v
            ∧ ∃ clause ∈ (g.assign literals).current, ∃ l ∈ clause, l.var = v
  /-- A compilation that is returned has branched on every cut set and has not gone deeper than there are variables. -/
  returned
    : ∀ (config : CompilerConfig) (oracle : Oracle) compilation last,
        formula.compileWith config oracle = .ok compilation last
        → compilation.statistics.decisions
            = compilation.statistics.cutSetsComputed + compilation.statistics.cutSetsReused
          ∧ compilation.statistics.maxDepth ≤ formula.occurring.size

/-- The compilation of every list of clauses over proper literals descends, with or without a solver, under all
options and with all sources of models.
-/
theorem compilation_descends (variableCount : Nat) (raw : Clauses)
    (proper : ∀ clause ∈ raw, ∀ l ∈ clause, Lit.Proper l)
    : ∃ formula, Formula.ofClauses variableCount raw = .ok formula ∧ formula.Descends := by
  obtain ⟨formula, loaded, normal, _⟩ := Formula.ofClauses_ok variableCount proper
  refine ⟨formula, loaded, ?_⟩
  constructor
  case calls =>
    intro g entered frame call call' same
    refine Compiling.compileStep_congr fun h next enters deeper => ?_
    exact same h next (entered.inner enters) (enters.size_lt (entered.neat normal)) deeper
  case smaller => exact fun g h entered enters => enters.size_lt (entered.neat normal)
  case solvable => exact fun g entered => Compiling.compileFully_eq (entered.neat normal)
  case unique => exact fun solution solves g entered => Compiling.eq_compileFully normal solves entered
  case bounded =>
    exact fun g entered bound above => Compiling.compileWithin_eq (entered.neat normal) above (Nat.lt_succ_self _)
  case chooses =>
    intro g literals entered reduces rule cut
    have wf := ((entered.neat normal).assign literals).wellFormed
    obtain ⟨v, chosen, occurs⟩ := rule.exists_choice wf reduces.nonempty reduces.unfinished cut
    exact ⟨v, chosen, (Residual.occurrences_pos_iff wf).mpr occurs, Clauses.mem_vars.mp occurs⟩
  case returned =>
    intro config oracle compilation last returned
    have ended := Compiling.formula_ensures normal config oracle #[]
    rw [show Compiling.formula formula oracle ⟨.start config none, #[]⟩ = .ok compilation last from returned] at ended
    exact ⟨ended.decided, ended.shallow⟩

/-- Three clauses without implied literals: both sides of a branching on the first variable are entered. -/
theorem descent_of_three_clauses
    : ∃ formula, Formula.ofClauses 3 [[1, 2], [-1, 3], [-3, -2]] = .ok formula
        ∧ formula.Descends
        ∧ ∀ l ∈ ([1, -1] : List Lit),
            Compiling.Enters (.ofClauses formula.clauses) ((Residual.ofClauses formula.clauses).assign [l]) := by
  obtain ⟨formula, loaded, descends⟩ :=
    compilation_descends 3 [[1, 2], [-1, 3], [-3, -2]] (by simp [Lit.Proper, Lit.var])
  refine ⟨formula, loaded, descends, ?_⟩
  obtain rfl : formula = ⟨3, [[1, 2], [-1, 3], [-3, -2]]⟩ := Except.ok.inj (loaded.symm.trans (by decide))
  have reduces : Compiling.Reduces (.ofClauses [[1, 2], [-1, 3], [-3, -2]]) [] :=
    ⟨by simp, by decide, by decide⟩
  have chosen : BranchingRule.firstCutVariable.choose .empty (.ofClauses [[1, 2], [-1, 3], [-3, -2]]) = some 1 := by
    decide
  intro l listed
  refine ⟨[], reduces, .side chosen ?_⟩
  simp only [List.mem_cons, List.not_mem_nil, or_false] at listed
  rcases listed with rfl | rfl
  · exact .inl (by decide)
  · exact .inr (by decide)

end KnowledgeCompiler
