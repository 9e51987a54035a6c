import KnowledgeCompiler.Compilation
import KnowledgeCompiler.Proofs.Branching
import KnowledgeCompiler.Proofs.Solver

/-! Compilations in lock step.

Two compilations go through the same steps if their residual formulas show the same clauses and their
solvers lead to the same implied literals. `Simulation` says what the relations between formulas, models
and solvers have to keep, and `compileWithin_agree` concludes that the nodes, the circuits, the caches
and the counts are the same.
-/

namespace KnowledgeCompiler.Compiling

open KnowledgeCompiler.Action

-----------------------------------------------------------------------------------------
-- The relations
-----------------------------------------------------------------------------------------

/-- States that differ at most in their solvers, which are related, and in the size from which
formulas are materialised.
-/
structure Alike (solvers : Option Solver → Option Solver → Prop) (s t : Compiler) : Prop where
  config : t.config = { s.config with materializeAbove := t.config.materializeAbove }
  circuit : s.circuit = t.circuit
  solver : solvers s.solver t.solver
  cache : s.cache = t.cache
  cuts : s.cuts = t.cuts
  statistics : s.statistics = t.statistics

/-- The results of two steps: equal values, and states that are alike. -/
def Equal (solvers : Option Solver → Option Solver → Prop) {α : Type} (a : α) (s : Compiler) (b : α)
    (t : Compiler) : Prop :=
  a = b ∧ Alike solvers s t

/-- What two runs know of the models of their formulas, with a relation for the models at hand. -/
def RelatedProspects (models : Option Model → Option Model → Prop) : Prospect → Prospect → Prop
  | .refuted, .refuted => True
  | .unknown, .unknown => models none none
  | .model m, .model n => models (some m) (some n)
  | _, _ => False

/-- Relations between solvers, residual formulas and models at hand that two compilations keep. -/
structure Simulation (solvers : Option Solver → Option Solver → Prop)
    (formulas : Residual → Residual → Prop)
    (models : Residual → Residual → Option Model → Option Model → Prop)
    : Prop where
  used : ∀ {s t}, solvers s t → s.isSome = t.isSome
  view : ∀ {g h}, formulas g h → Residual.SameView g h
  trail : ∀ {g h}, formulas g h → g.assignment.length = h.assignment.length
  ask
    : ∀ {g h s t},
        formulas g h
        → Alike solvers s t
        → Agree (askModel g) (askModel h) s t fun p s q t =>
            RelatedProspects (models g h) p q ∧ Alike solvers s t
  implied
    : ∀ {g h s t},
        formulas g h
        → Alike solvers s t
        → Agree (impliedLiterals g) (impliedLiterals h) s t fun found s found' t =>
            Equal solvers found s found' t
            ∧ ∀ literals, found = some literals
              → formulas (g.assign literals) (h.assign literals)
                ∧ ∀ m n, models g h m n → models (g.assign literals) (h.assign literals) m n
  branch
    : ∀ {g h v l},
        formulas g h
        → v ∈ g.vars
        → l = Lit.word v ∨ Lit.negate (Lit.word v) = .ok l
        → formulas (g.assign [l]) (h.assign [l])
  isolate
    : ∀ {g h m n component materialize materialize'},
        formulas g h
        → models g h m n
        → ¬ [] ∈ g.current
        → component ∈ g.components
        → formulas (isolate materialize g (SortedSet.unionAll g.components) m component)
            (isolate materialize' h (SortedSet.unionAll g.components) n component)

-----------------------------------------------------------------------------------------
-- Steps on the state
-----------------------------------------------------------------------------------------

variable {solvers : Option Solver → Option Solver → Prop} {s t : Compiler}

theorem Alike.with_counts (alike : Alike solvers s t) (change : Statistics → Statistics)
    : Alike solvers { s with statistics := change s.statistics }
        { t with statistics := change t.statistics } :=
  ⟨alike.config, alike.circuit, alike.solver, alike.cache, alike.cuts,
    congrArg change alike.statistics⟩

theorem count_agree {α : Type} {next next' : Unit → Compiling α} {change : Statistics → Statistics}
    {post : α → Compiler → α → Compiler → Prop} (alike : Alike solvers s t)
    (then_ : ∀ s t, Alike solvers s t → Agree (next ()) (next' ()) s t post)
    : Agree (count change >>= next) (count change >>= next') s t post :=
  Agree.update (then_ _ _ (alike.with_counts change))

theorem count_agree_last {change : Statistics → Statistics} {α : Type} {a b : α}
    (alike : Alike solvers s t) (same : a = b)
    : Agree (count change >>= fun _ => (pure a : Compiling α)) (count change >>= fun _ => pure b)
        s t (Equal solvers) :=
  count_agree alike fun _ _ alike => Agree.pure ⟨same, alike⟩

/-- Equal work on equal circuits has equal results. -/
theorem onCircuit_agree {α : Type} (build : Build α) (alike : Alike solvers s t)
    : Agree (onCircuit build) (onCircuit build) s t (Equal solvers) := by
  refine Agree.current (Agree.update (Agree.within ?_))
  rw [alike.circuit]
  refine (Agree.refl build t.circuit).mono (fun a c b d equal => ⟨equal.1, ?_⟩)
  exact ⟨alike.config, equal.2, alike.solver, alike.cache, alike.cuts, alike.statistics⟩

/-- Equal work on equal cut sets has equal results. -/
theorem onCutSets_agree {α : Type} (work : Action CompileError CutSets α)
    (alike : Alike solvers s t)
    : Agree (onCutSets work) (onCutSets work) s t (Equal solvers) := by
  refine Agree.current (Agree.within ?_)
  rw [alike.cuts]
  refine (Agree.refl work t.cuts).mono (fun a c b d equal => ⟨equal.1, ?_⟩)
  exact ⟨alike.config, alike.circuit, alike.solver, alike.cache, equal.2, alike.statistics⟩

theorem unsatisfiable_agree (alike : Alike solvers s t)
    : Agree unsatisfiable unsatisfiable s t (Equal solvers) :=
  count_agree alike fun _ _ alike => onCircuit_agree _ alike

/-- Reading the options; they are the same up to the size from which formulas are materialised. -/
theorem config_agree {α : Type} {next next' : CompilerConfig → Compiling α}
    {post : α → Compiler → α → Compiler → Prop} (alike : Alike solvers s t)
    (then_ : ∀ materializeAbove,
      Agree (next s.config) (next' { s.config with materializeAbove }) s t post)
    : Agree (config >>= next) (config >>= next') s t post := by
  have read := then_ t.config.materializeAbove
  rw [← alike.config] at read
  exact read

theorem reinstate_agree (entry : CacheEntry) (names : Option Renaming) (alike : Alike solvers s t)
    : Agree (reinstate entry names) (reinstate entry names) s t (Equal solvers) := by
  unfold reinstate
  split
  · exact Agree.pure ⟨rfl, alike⟩
  · rename_i related _
    refine config_agree alike (fun materializeAbove => ?_)
    split
    · exact onCircuit_agree _ alike
    · split
      · exact Agree.pure ⟨rfl, alike⟩
      · cases s.config.reuse <;> exact onCircuit_agree _ alike

/-- Compiling through the cache, for formulas with the same clauses. -/
theorem cached_agree {g h : Residual} {hit : Statistics → Statistics}
    {compile compile' : Compiling NodeId} (same : g.current = h.current)
    (compiles : ∀ s t, Alike solvers s t → Agree compile compile' s t (Equal solvers))
    (alike : Alike solvers s t)
    : Agree (cached hit g compile) (cached hit h compile') s t (Equal solvers) := by
  refine Agree.current ?_
  rw [alike.cache]
  cases t.cache with
  | none => exact compiles s t alike
  | some cache =>
      have keys : cache.scheme.keyOf g = cache.scheme.keyOf h := by
        simp only [CachingScheme.keyOf, same]
      simp only [keys]
      obtain ⟨key, names⟩ := cache.scheme.keyOf h
      have looked : Agree (lookup cache key) (lookup cache key) s t (Equal solvers) :=
        Agree.update (Agree.pure ⟨rfl, alike.config, alike.circuit, alike.solver, rfl, alike.cuts,
          alike.statistics⟩)
      refine Agree.bind looked (fun found s found' t equal => ?_)
      obtain ⟨rfl, alike⟩ := equal
      cases found with
      | some entry =>
          refine Agree.bind (reinstate_agree entry names alike) (fun a s b t equal => ?_)
          exact count_agree_last equal.2 equal.1
      | none =>
          refine Agree.bind (compiles s t alike) (fun node s node' t equal => ?_)
          obtain ⟨rfl, alike⟩ := equal
          refine Agree.update (Agree.pure ⟨rfl, ?_⟩)
          exact ⟨alike.config, alike.circuit, alike.solver, by rw [alike.cache], alike.cuts,
            alike.statistics⟩

-----------------------------------------------------------------------------------------
-- Steps on formulas with the same clauses
-----------------------------------------------------------------------------------------

theorem leaf?_agree {g h : Residual} (same : Residual.SameView g h) (alike : Alike solvers s t)
    : Agree (leaf? g) (leaf? h) s t (Equal solvers) := by
  unfold leaf?
  rw [same.clauseCount, same.isTwoCnf, same.hornRenaming?, same.current]
  refine config_agree alike (fun materializeAbove => ?_)
  split
  · exact Agree.pure ⟨rfl, alike⟩
  split
  · refine count_agree alike (fun s t alike => Agree.checked (fun formula _ => ?_))
    refine Agree.bind (onCircuit_agree _ alike) (fun a s b t equal => ?_)
    exact Agree.pure ⟨congrArg some equal.1, equal.2⟩
  split
  · refine Agree.checked (fun found _ => ?_)
    cases found with
    | none => exact Agree.pure ⟨rfl, alike⟩
    | some flipped =>
        refine count_agree alike (fun s t alike => Agree.checked (fun formula _ => ?_))
        refine Agree.bind (onCircuit_agree _ alike) (fun a s b t equal => ?_)
        exact Agree.pure ⟨congrArg some equal.1, equal.2⟩
  · exact Agree.pure ⟨rfl, alike⟩

theorem cutSet_congr {g h : Residual} (same : Residual.SameView g h)
    : (CutSets.cutSet g : Action CompileError CutSets _) = CutSets.cutSet h := by
  unfold CutSets.cutSet
  rw [same.current, same.occurrenceCounts]

theorem chooseCutSet_agree {g h : Residual} (same : Residual.SameView g h)
    (inherited : Option (SortedSet Var)) (alike : Alike solvers s t)
    : Agree (chooseCutSet g inherited) (chooseCutSet h inherited) s t (Equal solvers) := by
  have inherits : ∀ threshold, inheritedCutSet? threshold g = inheritedCutSet? threshold h := by
    intro threshold
    funext cut
    simp only [inheritedCutSet?, same.vars]
  unfold chooseCutSet
  simp only [inherits, cutSet_congr same]
  refine config_agree alike (fun materializeAbove => ?_)
  dsimp only
  cases inherited.bind (inheritedCutSet? s.config.cutSetThreshold h) with
  | some left => exact count_agree_last alike rfl
  | none => exact count_agree alike (fun s t alike => onCutSets_agree _ alike)

theorem choose_congr {g h : Residual} (same : Residual.SameView g h) (rule : BranchingRule)
    (cut : SortedSet Var)
    : rule.choose cut g = rule.choose cut h := by
  simp only [BranchingRule.choose, branchingCandidates, same.occurrences, same.vars,
    same.occurrenceCounts, same.current]

theorem join_agree (v : Var) (high low : NodeId) (alike : Alike solvers s t)
    : Agree (join v high low) (join v high low) s t (Equal solvers) := by
  unfold join
  generalize Lit.word v = positive
  refine Agree.bind (onCircuit_agree _ alike) (fun highFalse s highFalse' t equal => ?_)
  obtain ⟨rfl, alike⟩ := equal
  refine Agree.bind (onCircuit_agree _ alike) (fun lowFalse s lowFalse' t equal => ?_)
  obtain ⟨rfl, alike⟩ := equal
  cases highFalse <;> cases lowFalse <;> dsimp only
  · generalize Build.decision v high low = build
    exact onCircuit_agree build alike
  · refine Agree.bind (onCircuit_agree _ alike) (fun literal s literal' t equal => ?_)
    obtain ⟨rfl, alike⟩ := equal
    exact onCircuit_agree _ alike
  · refine Agree.checked (fun negative _ => ?_)
    refine Agree.bind (onCircuit_agree _ alike) (fun literal s literal' t equal => ?_)
    obtain ⟨rfl, alike⟩ := equal
    exact onCircuit_agree _ alike
  · exact Agree.pure ⟨rfl, alike⟩

/-- Components compiled in turn; induction on the components. -/
theorem compileEach_agree {compile compile' : SortedSet Var → Compiling NodeId}
    {components : List (SortedSet Var)}
    (compiles : ∀ component ∈ components, ∀ s t, Alike solvers s t
      → Agree (compile component) (compile' component) s t (Equal solvers))
    (done : List NodeId) (alike : Alike solvers s t)
    : Agree (compileEach compile components done) (compileEach compile' components done) s t
        (Equal solvers) := by
  induction components generalizing done s t with
  | nil => exact onCircuit_agree _ alike
  | cons component rest ih =>
      refine Agree.bind (compiles component (by simp) s t alike) (fun child s child' t equal => ?_)
      obtain ⟨rfl, alike⟩ := equal
      refine Agree.bind (onCircuit_agree _ alike) (fun isFalse s isFalse' t equal => ?_)
      obtain ⟨rfl, alike⟩ := equal
      cases isFalse with
      | true => exact Agree.pure ⟨rfl, alike⟩
      | false =>
          exact ih (fun component member => compiles component (by simp [member])) _ alike

-----------------------------------------------------------------------------------------
-- The recursion
-----------------------------------------------------------------------------------------

section Recursion

variable {formulas : Residual → Residual → Prop}
  {models : Residual → Residual → Option Model → Option Model → Prop}
  {call call' : CompileCall}

/-- Two ways to compile what implied literals leave that agree on related formulas and models. -/
def ReducedAgree (solvers : Option Solver → Option Solver → Prop)
    (formulas : Residual → Residual → Prop)
    (models : Residual → Residual → Option Model → Option Model → Prop) (reduced reduced' : ReducedCall)
    : Prop :=
  ∀ g h frame m n s t, formulas g h → ¬ [] ∈ g.current → (m.isSome = true → models g h m n)
    → m.isSome = n.isSome → Alike solvers s t
    → Agree (reduced g frame m) (reduced' h frame n) s t (Equal solvers)

/-- Two ways to compile a component that agree on related formulas. -/
def CallsAgree (solvers : Option Solver → Option Solver → Prop)
    (formulas : Residual → Residual → Prop) (call call' : CompileCall)
    : Prop :=
  ∀ g h frame s t, formulas g h → Alike solvers s t
    → Agree (call g frame) (call' h frame) s t (Equal solvers)

theorem split_agree (simulation : Simulation solvers formulas models)
    (calls : CallsAgree solvers formulas call call') {g h : Residual} (related : formulas g h)
    (nonempty : ¬ [] ∈ g.current) (frame : Frame) {m n : Option Model}
    (relatedModels : m.isSome = true → models g h m n) (alike : Alike solvers s t)
    (presence : m.isSome = n.isSome)
    : Agree (split call g g.components frame m) (split call' h g.components frame n) s t
        (Equal solvers) := by
  have known : ∀ s t, Alike solvers s t
      → Agree (consult g m) (consult h n) s t fun p s q t =>
          RelatedProspects (models g h) p q ∧ Alike solvers s t := by
    intro s t alike
    cases m with
    | none =>
        cases n with
        | none => exact simulation.ask related alike
        | some n => simp at presence
    | some m =>
        cases n with
        | none => simp at presence
        | some n => exact Agree.pure ⟨relatedModels rfl, alike⟩
  have compiles : ∀ (p q : Option Model) (frame : Frame) (s t : Compiler), models g h p q
      → Alike solvers s t
      → Agree
        (do
          let materialize := decide ((← config).materializeAbove < g.clauseCount)
          compileEach
            (fun component =>
              call (isolate materialize g (SortedSet.unionAll g.components) p component) frame)
            g.components [])
        (do
          let materialize := decide ((← config).materializeAbove < h.clauseCount)
          compileEach
            (fun component =>
              call' (isolate materialize h (SortedSet.unionAll g.components) q component) frame)
            g.components [])
        s t (Equal solvers) := by
    intro p q frame s t relatedModels alike
    refine config_agree alike (fun materializeAbove => compileEach_agree ?_ [] alike)
    intro component member s t alike
    exact calls _ _ frame s t (simulation.isolate related relatedModels nonempty member) alike
  unfold split
  refine count_agree alike (fun s t alike => Agree.note ?_)
  refine Agree.bind (known s t alike) (fun p s q t result => ?_)
  obtain ⟨prospects, alike⟩ := result
  cases p <;> cases q <;> try exact prospects.elim
  · exact unsatisfiable_agree alike
  · exact compiles none none _ s t prospects alike
  · exact compiles _ _ _ s t prospects alike

theorem branch_agree (simulation : Simulation solvers formulas models)
    (calls : CallsAgree solvers formulas call call') {g h : Residual} (related : formulas g h)
    (frame : Frame) (alike : Alike solvers s t)
    : Agree (branch call g frame) (branch call' h frame) s t (Equal solvers) := by
  have same := simulation.view related
  refine Agree.bind (chooseCutSet_agree same frame.cutSet alike)
    (fun cutSet s cutSet' t equal => ?_)
  obtain ⟨rfl, alike⟩ := equal
  refine config_agree alike (fun materializeAbove => ?_)
  simp only [← choose_congr same]
  cases choice : s.config.branching.choose cutSet g with
  | none => exact onCircuit_agree _ alike
  | some v =>
      have member := BranchingRule.choose_mem same.left choice
      refine count_agree alike (fun s t alike => Agree.note ?_)
      generalize word : Lit.word v = positive
      refine Agree.bind
        (calls _ _ _ _ _ (simulation.branch related member (.inl word.symm)) alike)
        (fun high s high' t equal => ?_)
      obtain ⟨rfl, alike⟩ := equal
      refine Agree.checked (fun negative negated => ?_)
      refine Agree.bind
        (calls _ _ _ _ _ (simulation.branch related member (.inr (word ▸ negated))) alike)
        (fun low s low' t equal => ?_)
      obtain ⟨rfl, alike⟩ := equal
      exact join_agree v high low alike

theorem compileReduced_agree (simulation : Simulation solvers formulas models)
    (calls : CallsAgree solvers formulas call call')
    : ReducedAgree solvers formulas models (compileReduced call) (compileReduced call') := by
  intro g h frame m n s t related nonempty relatedModels presence alike
  have same := simulation.view related
  refine cached_agree same.current (fun s t alike => ?_) alike
  refine Agree.bind (leaf?_agree same alike) (fun leaf s leaf' t equal => ?_)
  obtain ⟨rfl, alike⟩ := equal
  cases leaf with
  | some leaf => exact Agree.pure ⟨rfl, alike⟩
  | none =>
      dsimp only
      rw [← same.components]
      split
      · exact split_agree simulation calls related nonempty frame relatedModels alike presence
      · exact branch_agree simulation calls related frame alike

theorem compileImplied_agree (simulation : Simulation solvers formulas models)
    {reduced reduced' : ReducedCall} (inner : ReducedAgree solvers formulas models reduced reduced')
    {g h : Residual} (related : formulas g h)
    (frame : Frame) {m n : Option Model} (relatedModels : m.isSome = true → models g h m n)
    (presence : m.isSome = n.isSome) (alike : Alike solvers s t)
    : Agree (compileImplied reduced g frame m) (compileImplied reduced' h frame n) s t
        (Equal solvers) := by
  refine Agree.bind (simulation.implied related alike) (fun found s found' t result => ?_)
  obtain ⟨⟨rfl, alike⟩, kept⟩ := result
  cases found with
  | none => exact unsatisfiable_agree alike
  | some implied =>
      obtain ⟨left, keptModels⟩ := kept implied rfl
      have same := simulation.view left
      refine count_agree alike (fun s t alike => ?_)
      refine Agree.bind (onCircuit_agree _ alike) (fun conjuncts s conjuncts' t equal => ?_)
      obtain ⟨rfl, alike⟩ := equal
      dsimp only
      rw [← same.hasEmptyClause, ← same.isEmpty]
      split
      · exact unsatisfiable_agree alike
      rename_i nonempty
      split
      · exact onCircuit_agree _ alike
      refine Agree.bind
        (inner _ _ frame m n s t left
          (fun empty => nonempty (Residual.hasEmptyClause_iff.mpr empty))
          (fun atHand => keptModels m n (relatedModels atHand)) presence alike)
        (fun inner s inner' t equal => ?_)
      obtain ⟨rfl, alike⟩ := equal
      refine Agree.bind (onCircuit_agree _ alike) (fun isFalse s isFalse' t equal => ?_)
      obtain ⟨rfl, alike⟩ := equal
      split
      · exact Agree.pure ⟨rfl, alike⟩
      · exact onCircuit_agree _ alike

/-- What is known as a component is entered. -/
theorem prospect_agree (simulation : Simulation solvers formulas models) {g h : Residual}
    (related : formulas g h) (frame : Frame) (alike : Alike solvers s t)
    : Agree (prospect g frame) (prospect h frame) s t fun p s q t =>
        RelatedProspects (fun m n => m.isSome = true → models g h m n) p q ∧ Alike solvers s t := by
  unfold prospect
  split
  · exact Agree.pure ⟨Bool.noConfusion, alike⟩
  refine Agree.current ?_
  rw [simulation.used alike.solver]
  split
  · refine (simulation.ask related alike).mono (fun p s q t result => ⟨?_, result.2⟩)
    have prospects := result.1
    cases p <;> cases q <;> try exact prospects.elim
    · trivial
    · exact Bool.noConfusion
    · exact fun _ => prospects
  · rw [(simulation.view related).current]
    refine Agree.checked (fun found _ => ?_)
    cases found with
    | none => exact Agree.pure ⟨trivial, alike⟩
    | some literals => exact Agree.pure ⟨Bool.noConfusion, alike⟩

/-- One component in lock step, given that what its implied literals leave is. -/
theorem compileStepBy_agree (simulation : Simulation solvers formulas models) {reduced reduced' : ReducedCall}
    (inner : ReducedAgree solvers formulas models reduced reduced')
    : CallsAgree solvers formulas (compileStepBy reduced) (compileStepBy reduced') := by
  intro g h frame s t related alike
  have same := simulation.view related
  have opened : ∀ {m n : Option Model} {s t : Compiler} {hit : Statistics → Statistics},
      (m.isSome = true → models g h m n) → m.isSome = n.isSome → Alike solvers s t
      → Agree (cached hit g (compileImplied reduced g frame m))
          (cached hit h (compileImplied reduced' h frame n)) s t (Equal solvers) :=
    fun relatedModels presence alike =>
      cached_agree same.current
        (fun _ _ alike => compileImplied_agree simulation inner related frame relatedModels presence alike)
        alike
  unfold compileStepBy
  rw [← same.hasEmptyClause, ← same.isEmpty, same.clauseCount, simulation.trail related]
  refine count_agree alike (fun s t alike => Agree.note ?_)
  split
  · exact unsatisfiable_agree alike
  split
  · exact onCircuit_agree _ alike
  refine Agree.bind (prospect_agree simulation related frame alike) (fun p s q t result => ?_)
  obtain ⟨prospects, alike⟩ := result
  cases p <;> cases q <;> try exact prospects.elim
  · exact unsatisfiable_agree alike
  · exact opened prospects rfl alike
  · exact opened prospects rfl alike

/-- Two compilations in lock step compile related formulas to the same node and leave states that are
alike; induction on the bound of the depth.
-/
theorem compileWithin_agree (simulation : Simulation solvers formulas models) (fuel : Nat)
    : CallsAgree solvers formulas (compileWithin fuel) (compileWithin fuel) := by
  induction fuel with
  | zero => exact fun _ _ _ _ _ _ _ _ => rfl
  | succ fuel ih => exact compileStepBy_agree simulation (compileReduced_agree simulation ih)

end Recursion

-----------------------------------------------------------------------------------------
-- Whole compilations
-----------------------------------------------------------------------------------------

/-- Taking solvers into use makes states alike that are alike but for the solvers. -/
theorem prepareSolver_agree {formula : Formula} {oracle oracle' : Oracle} (room : oracle.limit = oracle'.limit)
    (unused : s.config.useSolver = false → solvers s.solver t.solver)
    (used : ∀ solver solver', Solver.ofOracle formula oracle = .ok solver
      → Solver.ofOracle formula oracle' = .ok solver' → solvers (some solver) (some solver'))
    (alike : Alike (fun _ _ => True) s t)
    : Agree (prepareSolver formula oracle) (prepareSolver formula oracle') s t
        fun _ s _ t => Alike solvers s t := by
  unfold prepareSolver
  refine config_agree alike (fun materializeAbove => ?_)
  dsimp only
  split
  · simp only [Solver.ofOracle_eq, ← room] at used ⊢
    split
    · exact fun _ => rfl
    · rename_i fits
      simp only [fits, if_false] at used
      exact fun _ => ⟨⟨alike.config, alike.circuit, used _ _ rfl rfl, alike.cache, alike.cuts,
        alike.statistics⟩, rfl⟩
  · rename_i without
    exact Agree.pure ⟨alike.config, alike.circuit, unused (by simpa using without), alike.cache,
      alike.cuts, alike.statistics⟩

/-- Whole compilations in lock step give equal results. -/
theorem formulaBy_agree {compile compile' : Residual → Compiling NodeId} {formula : Formula}
    {oracle oracle' : Oracle} (room : oracle.limit = oracle'.limit)
    (compiles : ∀ s t, Alike solvers s t
      → Agree (compile (.ofClauses formula.clauses)) (compile' (.ofClauses formula.clauses)) s t
          (Equal solvers))
    (unused : s.config.useSolver = false → solvers s.solver t.solver)
    (used : ∀ solver solver', Solver.ofOracle formula oracle = .ok solver
      → Solver.ofOracle formula oracle' = .ok solver' → solvers (some solver) (some solver'))
    (alike : Alike (fun _ _ => True) s t)
    : Agree (formulaBy compile formula oracle) (formulaBy compile' formula oracle') s t
        (Equal solvers) := by
  unfold formulaBy
  refine config_agree alike (fun materializeAbove => ?_)
  have valid : ∀ config : CompilerConfig,
      ({ config with materializeAbove } : CompilerConfig).validate = config.validate :=
    fun config => rfl
  rw [valid]
  cases s.config.validate with
  | error cause => exact fun _ => rfl
  | ok =>
      refine Agree.bind (prepareSolver_agree room unused used alike) (fun _ s _ t alike => ?_)
      refine Agree.bind (compiles s t alike) (fun root s root' t equal => ?_)
      obtain ⟨rfl, alike⟩ := equal
      refine Agree.bind (onCircuit_agree _ alike) (fun _ s _ t equal => ?_)
      have alike := equal.2
      have reported : Agree (report formula) (report formula) s t fun _ s _ t => Alike solvers s t := by
        refine Agree.current ?_
        rw [alike.circuit, alike.statistics, alike.cache, alike.cuts]
        exact Agree.note (Agree.note (Agree.note (Agree.pure alike)))
      refine Agree.bind reported (fun _ s _ t alike => ?_)
      refine Agree.current (Agree.pure ?_)
      refine ⟨?_, alike⟩
      rw [alike.circuit, alike.statistics]

/-- Whole compilations of a formula that is related to itself are in lock step. -/
theorem formula_agree {formulas : Residual → Residual → Prop}
    {models : Residual → Residual → Option Model → Option Model → Prop}
    (simulation : Simulation solvers formulas models) {formula : Formula} {oracle oracle' : Oracle}
    (room : oracle.limit = oracle'.limit)
    (start : formulas (.ofClauses formula.clauses) (.ofClauses formula.clauses))
    (unused : s.config.useSolver = false → solvers s.solver t.solver)
    (used : ∀ solver solver', Solver.ofOracle formula oracle = .ok solver
      → Solver.ofOracle formula oracle' = .ok solver' → solvers (some solver) (some solver'))
    (alike : Alike (fun _ _ => True) s t)
    : Agree (Compiling.formula formula oracle) (Compiling.formula formula oracle') s t
        (Equal solvers) :=
  formulaBy_agree room (fun s t alike => compileWithin_agree simulation _ _ _ _ s t start alike) unused used alike

/-- Two outcomes with the same result and the same events, or with the same failure. -/
def SameOutcome {ε σ α : Type} (left right : EStateM.Result (Failure ε) (Journaled σ) α) : Prop :=
  match left, right with
  | .ok a s, .ok b t => a = b ∧ s.journal = t.journal
  | .error cause _, .error cause' _ => cause = cause'
  | _, _ => False

theorem SameOutcome.of_agree {ε σ α : Type} {left right : Action ε σ α} {s t : σ}
    {post : α → σ → α → σ → Prop} (agree : Agree left right s t post)
    (equal : ∀ a s b t, post a s b t → a = b)
    : SameOutcome (left.run { state := s }) (right.run { state := t }) := by
  have same := agree #[]
  simp only [EStateM.run]
  unfold SameOutcome
  split at same
  · rename_i run run'
    rw [run, run']
    exact ⟨equal _ _ _ _ same.1, same.2⟩
  · rename_i run run'
    rw [run, run']
    exact same
  · exact same.elim

end KnowledgeCompiler.Compiling
