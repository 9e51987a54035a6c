import KnowledgeCompiler.Proofs.Leaf
import KnowledgeCompiler.Proofs.Compilation.Caching
import KnowledgeCompiler.Proofs.Compilation.Implied

/-! The node of a component has the models of the component.

Each stage of the compilation is shown to add a node with the models of its formula, provided that the
recursive call does so for formulas with fewer variables. With a solver, every component is in its place
within the whole formula; without one, only its own clauses matter.
-/

namespace KnowledgeCompiler.Compiling

open KnowledgeCompiler.Action Residual

variable {formula : Formula} {uses : Bool} {s : Compiler} {g : Residual}

-----------------------------------------------------------------------------------------
-- Components and models at hand
-----------------------------------------------------------------------------------------

/-- What holds of a component: it has tidy clauses, as many as there is room for, and where there is a
solver it is in its place.
-/
structure Sits (formula : Formula) (uses : Bool) (g : Residual) : Prop where
  wellFormed : g.WellFormed
  tidy : g.current.Tidy
  room : g.current.length ≤ Hypergraph.largestNodeCount
  placed : uses = true → g.Placed formula

/-- What is known of the models of a component is right. -/
def Foretells (formula : Formula) (uses : Bool) (g : Residual) : Prospect → Prop
  | .refuted => ∀ σ, ¬ Clauses.TrueIn σ g.current
  | .unknown => True
  | .model found => uses = true ∧ Solver.Shows formula g.assignment found

/-- A model at hand is one of the whole formula that extends the trail. -/
def AtHand (formula : Formula) (uses : Bool) (g : Residual) (model : Option Model) : Prop :=
  ∀ found, model = some found → uses = true ∧ Solver.Shows formula g.assignment found

theorem length_assignEach_le (clauses : Clauses) (literals : List Lit)
    : (clauses.assignEach literals).length ≤ clauses.length := by
  induction literals generalizing clauses with
  | nil => exact Nat.le_refl _
  | cons l rest ih =>
      refine Nat.le_trans (ih (clauses.assign l)) ?_
      rw [Clauses.assign, List.length_map]
      exact List.length_filter_le _ _

/-- Literals over the variables of a component are assigned. -/
theorem Sits.assign (sits : Sits formula uses g) {literals : List Lit}
    (inside : ∀ l ∈ literals, l.var ∈ g.vars)
    : Sits formula uses (g.assign literals) where
  wellFormed := sits.wellFormed.assign literals
  tidy := by
    rw [current_assign sits.wellFormed]
    exact sits.tidy.assignEach literals
  room := by
    rw [current_assign sits.wellFormed]
    exact Nat.le_trans (length_assignEach_le _ _) sits.room
  placed used := (sits.placed used).assign
    (fun l member => sits.tidy.proper_of_var (inside l member)) inside

/-- The solver after a question is as good as before. -/
theorem Valid.asked (valid : Valid formula uses s) (used : uses = true) {solver : Solver}
    (fits : solver.Fits formula)
    : Follows formula uses s { s with solver := some solver } :=
  ⟨.refl _, rfl, valid.regular, .inl ⟨used, solver, rfl, fits⟩, valid.backbone, valid.trusted,
    valid.dividing⟩

/-- Without a trail that reaches them, clauses have a model if the whole formula does. -/
theorem refuted_of_placed (placed : g.Placed formula)
    (none_ : ∀ σ, (∀ l ∈ g.assignment, Lit.TrueIn σ l) → ¬ Clauses.TrueIn σ formula.clauses)
    : ∀ σ, ¬ Clauses.TrueIn σ g.current := by
  intro σ model
  obtain ⟨τ, extends_, holds, _⟩ := placed.reduces.exists_model model
  exact none_ τ extends_ holds

theorem askModel_yields (normal : formula.Normal) (sits : Sits formula uses g)
    (valid : Valid formula uses s)
    : Yields (askModel g) s fun prospect t =>
        Follows formula uses s t ∧ Foretells formula uses g prospect
        ∧ (prospect = .unknown → uses = false) := by
  unfold askModel
  apply Yields.current
  rcases valid.solved with ⟨used, solver, held, fits⟩ | ⟨unused, held⟩
  · rw [held]
    dsimp only
    have placed := sits.placed used
    have asked : Yields (onSolver solver (Solver.model? g.assignment)) s fun found t =>
        Follows formula uses s t
        ∧ (found = none → ∀ σ, ¬ Clauses.TrueIn σ g.current)
        ∧ ∀ model, found = some model → Solver.Shows formula g.assignment model := by
      apply Yields.within
      intro journal
      obtain ⟨found, after, run, fits, none_, some_⟩ :=
        @Solver.model?_spec CompileError _ _ _ normal fits placed.asked journal
      exact ⟨found, ⟨after, journal⟩, run, valid.asked used fits,
        fun nothing => refuted_of_placed placed (none_ nothing), some_⟩
    refine Yields.bind asked fun found t result => ?_
    obtain ⟨follows, none_, some_⟩ := result
    cases found with
    | none => exact Yields.pure ⟨follows, none_ rfl, by simp⟩
    | some model => exact Yields.pure ⟨follows, ⟨used, some_ model rfl⟩, by simp⟩
  · rw [held]
    exact Yields.pure ⟨.refl valid, trivial, fun _ => unused⟩

theorem prospect_yields (normal : formula.Normal) (sits : Sits formula uses g)
    (valid : Valid formula uses s) (frame : Frame)
    : Yields (prospect g frame) s fun prospect t =>
        Follows formula uses s t ∧ Foretells formula uses g prospect := by
  unfold prospect
  split
  · exact Yields.pure ⟨.refl valid, trivial⟩
  · apply Yields.current
    split
    · exact (askModel_yields normal sits valid).mono fun _ _ result => ⟨result.1, result.2.1⟩
    · obtain ⟨found, done, result⟩ :=
        @Found.of_propagate _ [] [] _ (.refl g.current) sits.tidy
      apply Yields.checked done
      obtain ⟨none_, _⟩ := result.sound sits.tidy (by simp)
      cases found with
      | none => exact Yields.pure ⟨.refl valid, none_ rfl⟩
      | some _ => exact Yields.pure ⟨.refl valid, trivial⟩

theorem consult_yields (normal : formula.Normal) (sits : Sits formula uses g)
    (valid : Valid formula uses s) {model : Option Model} (atHand : AtHand formula uses g model)
    : Yields (consult g model) s fun prospect t =>
        Follows formula uses s t ∧ Foretells formula uses g prospect
        ∧ (prospect = .unknown → uses = false) := by
  cases model with
  | none => exact askModel_yields normal sits valid
  | some found => exact Yields.pure ⟨.refl valid, atHand found rfl, by simp⟩

-----------------------------------------------------------------------------------------
-- Implied literals
-----------------------------------------------------------------------------------------

theorem findImplied_yields (normal : formula.Normal) (sits : Sits formula uses g)
    (valid : Valid formula uses s)
    : Yields (findImplied g) s fun found t =>
        Follows formula uses s t
        ∧ Found g.current (s.config.probing.choose g.vars g) s.config.implied found := by
  rcases valid.solved with ⟨used, solver, held, fits⟩ | ⟨unused, held⟩
  · intro journal
    obtain ⟨found, after, run, fits, result⟩ :=
      findImplied_run held fits (sits.placed used) normal journal
    exact ⟨found, _, run, valid.asked used fits, result⟩
  · have unsolved := valid.backbone unused
    unfold findImplied
    apply yields_config
    apply Yields.current
    rw [held]
    cases kind : s.config.implied with
    | propagation =>
        obtain ⟨found, done, result⟩ :=
          @Found.of_propagate _ (s.config.probing.choose g.vars g) [] _ (.refl g.current) sits.tidy
        have run : Yields (liftM ((Propagator.ofClauses g.current).propagate []) : Compiling _) s
            fun found' t => found' = found ∧ s = t := by
          rw [done]
          exact Yields.pure ⟨rfl, rfl⟩
        refine run.mono fun found' t same => ?_
        obtain ⟨rfl, rfl⟩ := same
        exact ⟨.refl valid, result⟩
    | probing iterate =>
        obtain ⟨found, done, result⟩ := Found.of_probe (.refl g.current) sits.tidy
          (s.config.probing.choose_subset g) iterate
        apply Yields.checked done
        exact Yields.pure ⟨.refl valid, result⟩
    | backbone => exact absurd kind unsolved

/-- The implied literals are over distinct variables of the component and true in all of its models. -/
theorem impliedLiterals_yields (normal : formula.Normal) (sits : Sits formula uses g)
    (valid : Valid formula uses s)
    : Yields (impliedLiterals g) s fun found t =>
        Follows formula uses s t
        ∧ (found = none → ∀ σ, ¬ Clauses.TrueIn σ g.current)
        ∧ ∀ literals, found = some literals
          → (literals.map Lit.var).Nodup
            ∧ ∀ l ∈ literals, l.var ∈ g.vars ∧ Entailed g.current [] l := by
  refine Yields.bind (findImplied_yields normal sits valid) fun found t result => ?_
  obtain ⟨follows, result⟩ := result
  obtain ⟨none_, some_⟩ := result.sound sits.tidy (s.config.probing.choose_subset g)
  refine Yields.pure ⟨follows, fun nothing => none_ (Option.map_eq_none_iff.mp nothing), ?_⟩
  intro literals same
  obtain ⟨all, rfl, rfl⟩ := Option.map_eq_some_iff.mp same
  obtain ⟨distinct, entailed⟩ := some_ all rfl
  refine ⟨?_, fun l member => ?_⟩
  · have kept : ((inOrder g.current all).map Lit.var).Sublist
        ((sortBy (fun l k => decide (l.var ≤ k.var))
          (all.filter fun l => g.current.vars.contains l.var)).map Lit.var) :=
      (dropRepeats_sublist _).map Lit.var
    refine List.Nodup.sublist kept ?_
    refine ((sortBy_perm _ _).map Lit.var).nodup_iff.mpr ?_
    exact List.Nodup.sublist (List.filter_sublist.map Lit.var) distinct
  · obtain ⟨inside, occurs⟩ := mem_inOrder.mp member
    exact ⟨occurs, entailed l inside⟩

-----------------------------------------------------------------------------------------
-- Leaves
-----------------------------------------------------------------------------------------

theorem leaf?_yields (sits : Sits formula uses g) (valid : Valid formula uses s)
    : Yields (leaf? g) s fun leaf t =>
        Follows formula uses s t ∧ ∀ id, leaf = some id → t.circuit.Denotes id g.current := by
  have proper : ∀ clause ∈ g.current, ∀ l ∈ clause, Lit.Proper l := fun clause inside =>
    (sits.tidy clause inside).proper
  have built : ∀ {statistics : Statistics} {leaf : Build NodeId},
      (∀ {c : Circuit}, c.Regular → Yields leaf c (Build.BuiltLeaf c g.current))
      → Yields (do return some (← onCircuit leaf) : Compiling (Option NodeId))
          { s with statistics } fun leaf t =>
            Follows formula uses s t ∧ ∀ id, leaf = some id → t.circuit.Denotes id g.current := by
    intro statistics leaf spec
    have counted := valid.counted statistics
    refine Yields.bind (yields_onCircuit ((spec counted.valid.regular).mono fun id c built => ?_))
      fun id t result => Yields.pure result
    obtain ⟨grown, regular, denotes, _⟩ := built
    exact ⟨counted.trans (counted.valid.circuit grown regular),
      fun other same => Option.some.inj same ▸ denotes⟩
  unfold leaf?
  apply yields_config
  split
  · exact Yields.pure ⟨.refl valid, by simp⟩
  split
  · rename_i twoCnf
    have short : ∀ clause ∈ g.current, clause.length ≤ 2 := by
      simpa [isTwoCnf] using (Bool.and_eq_true_iff.mp twoCnf).2
    obtain ⟨leafFormula, made, same⟩ := TwoCnf.ofClauses_ok short
    apply yields_count
    apply Yields.checked made
    refine built fun regular => ?_
    rw [← same]
    exact Build.twoCnf_spec regular (same ▸ sits.tidy)
  split
  · obtain ⟨outcome, found, -, sound⟩ := hornRenaming?_spec proper
    apply Yields.checked found
    cases outcome with
    | none => exact Yields.pure ⟨.refl valid, by simp⟩
    | some flipped =>
        obtain ⟨occurring, horn⟩ := sound flipped rfl
        obtain ⟨leafFormula, made, same, flips⟩ := Horn.ofClauses_ok proper horn
        apply yields_count
        apply Yields.checked made
        refine built fun regular => ?_
        rw [← same]
        refine Build.horn_spec regular (same ▸ sits.tidy) fun v inside => ?_
        rw [same]
        exact occurring v (flips ▸ inside)
  · exact Yields.pure ⟨.refl valid, by simp⟩

-----------------------------------------------------------------------------------------
-- Splitting
-----------------------------------------------------------------------------------------

theorem conjunction_yields (valid : Valid formula uses s) {children : List NodeId}
    (present : ∀ child ∈ children, child < s.circuit.nodes.size)
    (apart : children.Pairwise s.circuit.Apart)
    : Yields (conjunction children) s fun id t =>
        Follows formula uses s t ∧ id < t.circuit.nodes.size
        ∧ (∀ σ, t.circuit.Satisfies σ id ↔ ∀ child ∈ children, s.circuit.Satisfies σ child)
        ∧ ∀ v, v ∈ t.circuit.varsOf id ↔ ∃ child ∈ children, v ∈ s.circuit.varsOf child := by
  unfold conjunction
  apply yields_onCircuit
  refine (Build.conjunction_spec valid.regular present fun a left b right differ =>
    apart.forall left right differ).mono fun id c built => ?_
  obtain ⟨satisfies, vars, _⟩ := built.meaning valid.regular.closed fun child member =>
    present child (Build.mem_children_conjunctionGate.mp member)
  obtain ⟨holds, mentions, _⟩ := Build.conjunctionGate_meaning s.circuit children
  exact ⟨valid.circuit built.1 built.2.1, Circuit.lt_of_gate? built.2.2,
    fun σ => (satisfies σ).trans (holds σ), fun v => (vars v).trans (mentions v)⟩

/-- The constant false also stands for other clauses without a model. -/
theorem denotes_of_isFalse {c : Circuit} (regular : c.Regular) {id : NodeId} {clauses others : Clauses}
    (denotes : c.Denotes id clauses) (false_ : c.isFalse id = true)
    (implied : ∀ σ, Clauses.TrueIn σ others → Clauses.TrueIn σ clauses)
    : c.Denotes id others where
  present := denotes.present
  satisfies σ := iff_of_false (Circuit.not_satisfies_of_isFalse false_) fun holds =>
    denotes.not_trueIn false_ σ (implied σ holds)
  vars inside := ((regular.mem_varsOf (Circuit.isFalse_iff.mp false_)).mp inside).elim

/-- The nodes of the components so far, seen from the components that are left. -/
structure Gathered (c : Circuit) (own : SortedSet Var → Clauses) (whole : Clauses)
    (rest : List (SortedSet Var)) (done : List NodeId) : Prop where
  present : ∀ id ∈ done, id < c.nodes.size
  apart : done.Pairwise c.Apart
  vars
    : ∀ id ∈ done, ∀ v, v ∈ c.varsOf id
        → v ∈ whole.vars ∧ ∀ component ∈ rest, ¬ v ∈ component
  models
    : ∀ σ, Clauses.TrueIn σ whole
        ↔ (∀ id ∈ done, c.Satisfies σ id)
          ∧ ∀ component ∈ rest, Clauses.TrueIn σ (own component)

/-- One more component is compiled. -/
theorem Gathered.step {c d : Circuit} {own : SortedSet Var → Clauses} {whole : Clauses}
    {component : SortedSet Var} {rest : List (SortedSet Var)} {done : List NodeId} {child : NodeId}
    (gathered : Gathered c own whole (component :: rest) done) (closed : c.Closed)
    (grown : c.Extends d) (denotes : d.Denotes child (own component))
    (within_ : ∀ v, v ∈ (own component).vars → v ∈ component ∧ v ∈ whole.vars)
    (apart : ∀ other ∈ rest, Apart component other)
    : Gathered d own whole rest (done ++ [child]) where
  present := List.forall_mem_append.mpr
    ⟨fun id member => grown.lt (gathered.present id member), by simpa using denotes.present⟩
  apart := by
    refine List.pairwise_append.mpr ⟨?_, List.pairwise_singleton _ _, ?_⟩
    · refine gathered.apart.imp_of_mem fun {a b} left right apart v => ?_
      rw [grown.varsOf (gathered.present a left), grown.varsOf (gathered.present b right)]
      exact apart v
    · intro id member other single v inside occurs
      obtain rfl := List.mem_singleton.mp single
      rw [grown.varsOf (gathered.present id member)] at inside
      exact (gathered.vars id member v inside).2 component (by simp) (within_ v (denotes.vars occurs)).1
  vars := by
    refine List.forall_mem_append.mpr ⟨fun id member v inside => ?_, ?_⟩
    · rw [grown.varsOf (gathered.present id member)] at inside
      obtain ⟨occurs, free⟩ := gathered.vars id member v inside
      exact ⟨occurs, fun other listed => free other (by simp [listed])⟩
    · intro id single v inside
      obtain rfl := List.mem_singleton.mp single
      obtain ⟨member, occurs⟩ := within_ v (denotes.vars inside)
      exact ⟨occurs, fun other listed => apart other listed v member⟩
  models σ := by
    rw [gathered.models, List.forall_mem_cons, List.forall_mem_append, ← denotes.satisfies]
    have same : (∀ id ∈ done, d.Satisfies σ id) ↔ ∀ id ∈ done, c.Satisfies σ id :=
      forall_congr' fun id => forall_congr' fun member =>
        grown.satisfies_iff closed (gathered.present id member)
    rw [same]
    simp only [List.mem_singleton, forall_eq]
    exact and_assoc.symm

/-- The components are compiled one after the other and conjoined; induction on those that are left. -/
theorem compileEach_yields {compile : SortedSet Var → Compiling NodeId}
    {own : SortedSet Var → Clauses} {whole : Clauses} {rest : List (SortedSet Var)}
    {done : List NodeId} (valid : Valid formula uses s)
    (gathered : Gathered s.circuit own whole rest done)
    (compiles : ∀ component ∈ rest, Compiles formula uses (compile component) (own component))
    (within_ : ∀ component ∈ rest, ∀ v, v ∈ (own component).vars → v ∈ component ∧ v ∈ whole.vars)
    (apart : rest.Pairwise Apart)
    : Yields (compileEach compile rest done) s fun id t =>
        Follows formula uses s t ∧ t.circuit.Denotes id whole := by
  induction rest generalizing s done with
  | nil =>
      refine (conjunction_yields valid gathered.present gathered.apart).mono fun id t result => ?_
      obtain ⟨follows, present, satisfies, vars⟩ := result
      refine ⟨follows, present, fun σ => ?_, fun {v} inside => ?_⟩
      · rw [satisfies, gathered.models]
        simp
      · obtain ⟨child, member, occurs⟩ := (vars v).mp inside
        exact (gathered.vars child member v occurs).1
  | cons component rest ih =>
      obtain ⟨first, compilesRest⟩ := List.forall_mem_cons.mp compiles
      obtain ⟨withinFirst, withinRest⟩ := List.forall_mem_cons.mp within_
      obtain ⟨apartFirst, apartRest⟩ := List.pairwise_cons.mp apart
      refine Yields.bind (first s valid) fun child t result => ?_
      obtain ⟨follows, denotes⟩ := result
      apply yields_isFalse
      split
      · rename_i false_
        refine Yields.pure ⟨follows, denotes_of_isFalse follows.valid.regular denotes false_ ?_⟩
        exact fun σ holds => ((gathered.models σ).mp holds).2 component (by simp)
      · have next := gathered.step valid.regular.closed follows.grown denotes withinFirst apartFirst
        exact (ih follows.valid next compilesRest withinRest apartRest).mono fun _ _ result =>
          ⟨follows.trans result.1, result.2⟩

/-- The recursive call works for components with fewer variables than a bound. -/
def Solves (formula : Formula) (uses : Bool) (call : CompileCall) (bound : Nat) : Prop :=
  ∀ {g} (frame : Frame), Sits formula uses g → g.vars.size < bound
    → Compiles formula uses (call g frame) g.current

theorem mem_current_restrict (nonempty : ¬ [] ∈ g.current) {vars : SortedSet Var} {clause : Clause}
    : clause ∈ (g.restrict vars).current ↔ clause ∈ g.current ∧ ∃ l ∈ clause, l.var ∈ vars := by
  rw [current_restrict, List.mem_filter]
  refine and_congr_right fun inside => ?_
  have some_ : clause ≠ [] := fun same => nonempty (same ▸ inside)
  simp [some_]

/-- One component of several is compiled in the place of the whole. -/
theorem Sits.isolate (sits : Sits formula uses g) (normal : formula.Normal)
    (nonempty : ¬ [] ∈ g.current) {prospect : Prospect} (foretells : Foretells formula uses g prospect)
    (unknown : prospect.model? = none → uses = false) (materialize : Bool)
    {component : SortedSet Var} (found : component ∈ g.components)
    : Sits formula uses
        (isolate materialize g (SortedSet.unionAll g.components) prospect.model? component) where
  wellFormed := (sits.wellFormed.divide materialize component).fix _
  tidy := by
    rw [current_isolate materialize nonempty]
    exact fun clause inside => sits.tidy clause ((mem_current_restrict nonempty).mp inside).1
  room := by
    rw [current_isolate materialize nonempty, current_restrict]
    exact Nat.le_trans (List.length_filter_le _ _) sits.room
  placed used := by
    cases prospect with
    | refuted | unknown => exact absurd (unknown rfl) (by simp [used])
    | model found => exact (sits.placed used).isolate normal foretells.2 nonempty materialize ‹_›

/-- Where there are several components, each of them misses a variable. -/
theorem size_component_lt (nonempty : ¬ [] ∈ g.current) (several : 1 < g.components.length)
    {component : SortedSet Var} (found : component ∈ g.components)
    : (g.restrict component).current.vars.size < g.vars.size := by
  have apart : g.components.Pairwise Apart := g.connects_components.apart
  have missing : ∃ v, v ∈ g.vars ∧ ¬ v ∈ component := by
    have inhabited : ∀ block ∈ g.components, ∃ v, v ∈ block ∧ v ∈ g.vars := by
      intro block listed
      obtain ⟨v, inside⟩ := component_inhabited listed
      exact ⟨v, inside, mem_vars_of_component listed inside⟩
    generalize g.components = blocks at several found apart inhabited
    match blocks, several with
    | first :: second :: rest, _ =>
        obtain ⟨apartFirst, _⟩ := List.pairwise_cons.mp apart
        rcases List.mem_cons.mp found with rfl | later
        · obtain ⟨v, inside, occurs⟩ := inhabited second (by simp)
          exact ⟨v, occurs, (apartFirst second (by simp)).symm v inside⟩
        · obtain ⟨v, inside, occurs⟩ := inhabited first (by simp)
          exact ⟨v, occurs, apartFirst component later v inside⟩
  obtain ⟨v, occurs, absent⟩ := missing
  refine SortedSet.size_lt (fun w inside => ?_) occurs fun inside => absent ?_
  · obtain ⟨clause, listed, l, member, rfl⟩ := Clauses.mem_vars.mp inside
    exact Clauses.var_mem_vars ((mem_current_restrict nonempty).mp listed).1 member
  · obtain ⟨clause, listed, l, member, rfl⟩ := Clauses.mem_vars.mp inside
    obtain ⟨origin, k, other, touches⟩ := (mem_current_restrict nonempty).mp listed
    exact within_component found origin other touches l member

theorem split_compiles {call : CompileCall} (normal : formula.Normal)
    (solves : Solves formula uses call g.vars.size) (sits : Sits formula uses g)
    (nonempty : ¬ [] ∈ g.current) (several : 1 < g.components.length) (frame : Frame)
    {model : Option Model} (atHand : AtHand formula uses g model)
    : Compiles formula uses (split call g g.components frame model) g.current := by
  intro s valid
  unfold split
  apply yields_count
  apply Yields.note
  have counted := valid.counted { s.statistics with splits := s.statistics.splits + 1 }
  refine Yields.bind (consult_yields normal sits counted.valid atHand) fun prospect t result => ?_
  obtain ⟨follows, foretells, unknown⟩ := result
  have follows := counted.trans follows
  have each : ∀ (frame : Frame) (materialize : Bool), (prospect.model? = none → uses = false)
      → Yields (compileEach
          (fun component => call
            (isolate materialize g (SortedSet.unionAll g.components) prospect.model? component) frame)
          g.components []) t fun id u =>
            Follows formula uses s u ∧ u.circuit.Denotes id g.current := by
    intro frame materialize unused
    have gathered : Gathered t.circuit (fun component => (g.restrict component).current) g.current
        g.components [] := by
      refine ⟨by simp, .nil, by simp, fun σ => ⟨fun holds => ⟨by simp, ?_⟩, fun parts => ?_⟩⟩
      · intro component _ clause inside
        exact holds clause ((mem_current_restrict nonempty).mp inside).1
      · intro clause inside
        have some_ : clause ≠ [] := fun same => nonempty (same ▸ inside)
        obtain ⟨l, member⟩ := List.exists_mem_of_ne_nil _ some_
        obtain ⟨component, found, all⟩ := exists_component inside member
        exact parts.2 component found clause
          ((mem_current_restrict nonempty).mpr ⟨inside, l, member, all l member⟩)
    refine (compileEach_yields follows.valid gathered ?_ ?_ ?_).mono fun _ _ result =>
      ⟨follows.trans result.1, result.2⟩
    · intro component found
      have isolated := sits.isolate normal nonempty foretells unused materialize found
      have current := current_isolate materialize nonempty (SortedSet.unionAll g.components)
        prospect.model? component
      rw [← current]
      refine solves frame isolated ?_
      rw [vars, current]
      exact size_component_lt nonempty several found
    · intro component found v inside
      obtain ⟨clause, listed, l, member, rfl⟩ := Clauses.mem_vars.mp inside
      obtain ⟨origin, k, other, touches⟩ := (mem_current_restrict nonempty).mp listed
      exact ⟨within_component found origin other touches l member,
        Clauses.var_mem_vars origin member⟩
    · exact g.connects_components.apart
  cases prospect with
  | refuted =>
      exact (unsatisfiable_compiles foretells).after follows
  | unknown =>
      apply yields_config
      exact each _ _ fun _ => unknown rfl
  | model found =>
      apply yields_config
      exact each _ _ (by simp [Prospect.model?])

-----------------------------------------------------------------------------------------
-- Branching
-----------------------------------------------------------------------------------------

theorem literal_yields (valid : Valid formula uses s) {l : Lit} (proper : l.Proper)
    : Yields (onCircuit (Build.literal l)) s fun id t =>
        Follows formula uses s t ∧ t.circuit.gate? id = some (.literal l) := by
  apply yields_onCircuit
  refine (Build.literal_spec valid.regular proper).mono fun id c built => ?_
  exact ⟨valid.circuit built.1 built.2.1, built.2.2⟩

/-- A node conjoined with a literal over another variable. -/
theorem conjoined_yields (valid : Valid formula uses s) {l : Lit} (proper : l.Proper)
    {node : NodeId} {clauses : Clauses} (denotes : s.circuit.Denotes node clauses)
    (fresh : ¬ l.var ∈ clauses.vars)
    : Yields (do let literal ← onCircuit (Build.literal l); conjunction [literal, node]) s fun id t =>
        Follows formula uses s t ∧ id < t.circuit.nodes.size
        ∧ (∀ σ, t.circuit.Satisfies σ id ↔ l.TrueIn σ ∧ Clauses.TrueIn σ clauses)
        ∧ ∀ v, v ∈ t.circuit.varsOf id → v = l.var ∨ v ∈ clauses.vars := by
  refine Yields.bind (literal_yields valid proper) fun literal t result => ?_
  obtain ⟨follows, found⟩ := result
  have grown := denotes.grow follows.grown valid.regular.closed
  have vars : ∀ v, v ∈ t.circuit.varsOf literal ↔ v = l.var := fun v =>
    follows.valid.regular.mem_varsOf found
  have present : ∀ child ∈ [literal, node], child < t.circuit.nodes.size := by
    simp [Circuit.lt_of_gate? found, grown.present]
  have apart : [literal, node].Pairwise t.circuit.Apart := by
    refine List.pairwise_pair.mpr fun v left right => fresh ?_
    rw [← (vars v).mp left]
    exact grown.vars right
  refine (conjunction_yields follows.valid present apart).mono fun id u result => ?_
  obtain ⟨later, there, satisfies, mentions⟩ := result
  refine ⟨follows.trans later, there, fun σ => ?_, fun v inside => ?_⟩
  · rw [satisfies]
    simp only [List.mem_cons, List.not_mem_nil, or_false, forall_eq_or_imp, forall_eq,
      grown.satisfies, Circuit.satisfies_iff found, Circuit.Holds]
  · obtain ⟨child, member, occurs⟩ := (mentions v).mp inside
    simp only [List.mem_cons, List.not_mem_nil, or_false] at member
    rcases member with rfl | rfl
    · exact .inl ((vars v).mp occurs)
    · exact .inr (grown.vars occurs)

/-- Where clauses force a literal, it is conjoined with a node for what they leave under it. -/
theorem conjoinedSide_yields (valid : Valid formula uses s) {l : Lit} (proper : l.Proper) {node : NodeId}
    {whole side : Clauses} (denotes : s.circuit.Denotes node side) (occurs : l.var ∈ whole.vars)
    (forced : ∀ σ, Clauses.TrueIn σ whole → l.TrueIn σ)
    (models : ∀ σ, l.TrueIn σ → (Clauses.TrueIn σ side ↔ Clauses.TrueIn σ whole))
    (vars : ∀ w, w ∈ side.vars → w ∈ whole.vars ∧ w ≠ l.var)
    : Yields (do let literal ← onCircuit (Build.literal l); conjunction [literal, node]) s fun id t =>
        Follows formula uses s t ∧ t.circuit.Denotes id whole := by
  refine (conjoined_yields valid proper denotes fun inside => (vars _ inside).2 rfl).mono ?_
  rintro id t ⟨follows, present, satisfies, mentions⟩
  refine ⟨follows, present, fun σ => ?_, fun {w} inside => ?_⟩
  · rw [satisfies]
    exact ⟨fun both => (models σ both.1).mp both.2, fun holds =>
      ⟨forced σ holds, (models σ (forced σ holds)).mpr holds⟩⟩
  · rcases mentions w inside with same | member
    · exact same ▸ occurs
    · exact (vars w member).1

/-- The two branches on a variable are joined to a node for the whole. -/
theorem join_yields (valid : Valid formula uses s) {v : Var} {high low : NodeId}
    {whole whenTrue whenFalse : Clauses} (tidy : whole.Tidy) (occurs : v ∈ whole.vars)
    (highDenotes : s.circuit.Denotes high whenTrue) (lowDenotes : s.circuit.Denotes low whenFalse)
    (highModels : ∀ σ, σ v = true → (Clauses.TrueIn σ whenTrue ↔ Clauses.TrueIn σ whole))
    (lowModels : ∀ σ, σ v = false → (Clauses.TrueIn σ whenFalse ↔ Clauses.TrueIn σ whole))
    (highVars : ∀ w, w ∈ whenTrue.vars → w ∈ whole.vars ∧ w ≠ v)
    (lowVars : ∀ w, w ∈ whenFalse.vars → w ∈ whole.vars ∧ w ≠ v)
    : Yields (join v high low) s fun id t =>
        Follows formula uses s t ∧ t.circuit.Denotes id whole := by
  obtain ⟨positive, small⟩ := tidy.vars_bound occurs
  have proper : Lit.Proper (v : Int) := ⟨by grind, by simpa [Lit.var] using small⟩
  have highFresh : ¬ v ∈ whenTrue.vars := fun inside => (highVars v inside).2 rfl
  have lowFresh : ¬ v ∈ whenFalse.vars := fun inside => (lowVars v inside).2 rfl
  have noHigh (falsum : s.circuit.isFalse high = true) (σ : Assignment) (value : σ v = true)
      : ¬ Clauses.TrueIn σ whole := fun holds =>
    highDenotes.not_trueIn falsum σ ((highModels σ value).mpr holds)
  have noLow (falsum : s.circuit.isFalse low = true) (σ : Assignment) (value : σ v = false)
      : ¬ Clauses.TrueIn σ whole := fun holds =>
    lowDenotes.not_trueIn falsum σ ((lowModels σ value).mpr holds)
  unfold join
  dsimp only
  rw [Lit.word_eq_self small]
  apply yields_isFalse
  apply yields_isFalse
  cases falseHigh : s.circuit.isFalse high with
  | true =>
      cases falseLow : s.circuit.isFalse low with
      | true =>
          refine Yields.pure ⟨.refl valid,
            denotes_of_isFalse valid.regular highDenotes falseHigh fun σ holds => ?_⟩
          cases value : σ v with
          | true => exact absurd holds (noHigh falseHigh σ value)
          | false => exact absurd holds (noLow falseLow σ value)
      | false =>
          have var : Lit.var (-(v : Int)) = v := Lit.var_neg _
          have holds_iff (σ : Assignment) : Lit.TrueIn σ (-(v : Int)) ↔ σ v = false := Lit.trueIn_neg_ofNat positive
          apply Yields.checked proper.negate
          refine conjoinedSide_yields valid proper.neg lowDenotes (var.symm ▸ occurs) (fun σ holds => ?_)
            (fun σ holds => lowModels σ ((holds_iff σ).mp holds)) (var.symm ▸ lowVars)
          rw [holds_iff, ← Bool.not_eq_true]
          exact fun value => noHigh falseHigh σ value holds
  | false =>
      cases falseLow : s.circuit.isFalse low with
      | true =>
          have holds_iff (σ : Assignment) : Lit.TrueIn σ (v : Int) ↔ σ v = true := Lit.trueIn_ofNat positive
          refine conjoinedSide_yields valid proper highDenotes occurs (fun σ holds => ?_)
            (fun σ holds => highModels σ ((holds_iff σ).mp holds)) highVars
          rw [holds_iff, ← Bool.not_eq_false]
          exact fun value => noLow falseLow σ value holds
      | false =>
          apply yields_onCircuit
          refine (Build.decision_spec valid.regular positive small highDenotes.present
            lowDenotes.present (fun inside => highFresh (highDenotes.vars inside))
            fun inside => lowFresh (lowDenotes.vars inside)).mono fun id c built => ?_
          obtain ⟨grown, regular, present, satisfies, vars⟩ := built
          refine ⟨valid.circuit grown regular, present, fun σ => ?_, fun {w} inside => ?_⟩
          · rw [satisfies, highDenotes.satisfies, lowDenotes.satisfies]
            cases value : σ v with
            | true => simp [highModels σ value]
            | false => simp [lowModels σ value]
          · rcases (vars w).mp inside with same | high | low
            · exact same ▸ occurs
            · exact (highVars w (highDenotes.vars high)).1
            · exact (lowVars w (lowDenotes.vars low)).1

theorem chooseCutSet_yields (sits : Sits formula uses g) (valid : Valid formula uses s)
    (inherited : Option (SortedSet Var))
    : Yields (chooseCutSet g inherited) s fun _ t => Follows formula uses s t := by
  unfold chooseCutSet
  apply yields_config
  dsimp only
  cases inherited.bind (inheritedCutSet? s.config.cutSetThreshold g) with
  | some left =>
      apply yields_count
      exact Yields.pure (valid.counted _)
  | none =>
      apply yields_count
      unfold onCutSets
      apply Yields.current
      apply Yields.within
      have proper : g.current.Proper := fun clause inside => (sits.tidy clause inside).proper
      refine (CutSets.cutSet_yields valid.dividing (CutSets.mergeable_of_proper proper) sits.room).mono
        fun _ cuts dividing => ?_
      exact ⟨.refl _, rfl, valid.regular, valid.solved, valid.backbone, valid.trusted, dividing⟩

theorem branch_compiles {call : CompileCall} (solves : Solves formula uses call g.vars.size)
    (sits : Sits formula uses g) (nonempty : ¬ [] ∈ g.current) (some_ : g.current ≠ [])
    (frame : Frame)
    : Compiles formula uses (branch call g frame) g.current := by
  intro s valid
  unfold branch
  refine Yields.bind (chooseCutSet_yields sits valid frame.cutSet) fun cutSet t follows => ?_
  apply yields_config
  obtain ⟨v, choice, occurs⟩ :=
    BranchingRule.exists_choice sits.wellFormed nonempty some_ t.config.branching cutSet
  obtain ⟨positive, small⟩ := sits.tidy.vars_bound occurs
  have proper : Lit.Proper (v : Int) := ⟨by grind, by simpa [Lit.var] using small⟩
  -- Assigning the variable either way leaves fewer variables and the models with this value.
  have side : ∀ (l : Lit), l.var = v → ∀ frame,
      Compiles formula uses (call (g.assign [l]) frame) (g.current.assign l) := by
    intro l same frame
    have current : (g.assign [l]).current = g.current.assign l := current_assign sits.wellFormed [l]
    rw [← current]
    refine solves frame (sits.assign (by simpa [same] using occurs)) ?_
    rw [vars, current]
    exact Clauses.size_vars_assign_lt (same.symm ▸ occurs)
  rw [choice]
  dsimp only
  rw [Lit.word_eq_self small]
  apply yields_count
  apply Yields.note
  have counted := follows.trans (follows.valid.counted
    { t.statistics with decisions := t.statistics.decisions + 1 })
  refine Yields.bind ((side v rfl _).after counted) fun high u result => ?_
  obtain ⟨toHigh, highDenotes⟩ := result
  apply Yields.checked proper.negate
  refine Yields.bind (side (-v) (Lit.var_neg _) _ u toHigh.valid) fun low w result => ?_
  obtain ⟨toLow, lowDenotes⟩ := result
  have highDenotes := highDenotes.grow toLow.grown toHigh.valid.regular.closed
  have together := toHigh.trans toLow
  refine (join_yields together.valid sits.tidy occurs highDenotes lowDenotes ?_ ?_ ?_ ?_).mono
    fun _ _ result => ⟨together.trans result.1, result.2⟩
  · exact fun σ value => Clauses.trueIn_assign proper.1 ((Lit.trueIn_ofNat positive).mpr value)
  · exact fun σ value => Clauses.trueIn_assign proper.neg.1
      ((Lit.trueIn_neg_ofNat positive).mpr value)
  · exact fun w inside => Clauses.mem_vars_assign inside
  · intro w inside
    obtain ⟨member, differ⟩ := Clauses.mem_vars_assign inside
    exact ⟨member, fun same => differ (same.trans (Lit.var_neg (v : Int)).symm)⟩

-----------------------------------------------------------------------------------------
-- Components
-----------------------------------------------------------------------------------------

/-- The nodes of literals over distinct variables. -/
structure LiteralNodes (c : Circuit) (literals : List Lit) (ids : List NodeId) : Prop where
  length : ids.length = literals.length
  apart : ids.Pairwise c.Apart
  each : ∀ id ∈ ids, ∃ l ∈ literals, c.gate? id = some (.literal l)
  all : ∀ l ∈ literals, ∃ id ∈ ids, c.gate? id = some (.literal l)

theorem LiteralNodes.grow {c d : Circuit} {literals : List Lit} {ids : List NodeId}
    (nodes : LiteralNodes c literals ids) (grown : c.Extends d)
    : LiteralNodes d literals ids where
  length := nodes.length
  apart := by
    refine nodes.apart.imp_of_mem fun {a b} left right apart v => ?_
    obtain ⟨_, _, first⟩ := nodes.each a left
    obtain ⟨_, _, second⟩ := nodes.each b right
    rw [grown.varsOf (Circuit.lt_of_gate? first), grown.varsOf (Circuit.lt_of_gate? second)]
    exact apart v
  each id member := by
    obtain ⟨l, listed, found⟩ := nodes.each id member
    exact ⟨l, listed, grown.gate? found⟩
  all l listed := by
    obtain ⟨id, member, found⟩ := nodes.all l listed
    exact ⟨id, member, grown.gate? found⟩

theorem LiteralNodes.satisfies {c : Circuit} {literals : List Lit} {ids : List NodeId}
    (nodes : LiteralNodes c literals ids) (σ : Assignment)
    : (∀ id ∈ ids, c.Satisfies σ id) ↔ ∀ l ∈ literals, l.TrueIn σ := by
  constructor
  · intro holds l listed
    obtain ⟨id, member, found⟩ := nodes.all l listed
    exact (Circuit.satisfies_iff found).mp (holds id member)
  · intro holds id member
    obtain ⟨l, listed, found⟩ := nodes.each id member
    exact (Circuit.satisfies_iff found).mpr (holds l listed)

theorem LiteralNodes.vars {c : Circuit} {literals : List Lit} {ids : List NodeId}
    (nodes : LiteralNodes c literals ids) (regular : c.Regular) {id : NodeId} (member : id ∈ ids)
    {v : Var} (inside : v ∈ c.varsOf id)
    : ∃ l ∈ literals, v = l.var := by
  obtain ⟨l, listed, found⟩ := nodes.each id member
  exact ⟨l, listed, (regular.mem_varsOf found).mp inside⟩

/-- The nodes of literals are added one by one; induction on the literals. -/
theorem literals_spec {c : Circuit} (regular : c.Regular) {literals : List Lit}
    (proper : ∀ l ∈ literals, l.Proper) (distinct : (literals.map Lit.var).Nodup)
    : Yields (literals.mapM Build.literal) c fun ids d =>
        c.Extends d ∧ d.Regular ∧ LiteralNodes d literals ids := by
  induction literals generalizing c with
  | nil => exact Yields.pure ⟨.refl c, regular, rfl, .nil, by simp, by simp⟩
  | cons l rest ih =>
      obtain ⟨first, properRest⟩ := List.forall_mem_cons.mp proper
      obtain ⟨fresh, distinctRest⟩ := List.nodup_cons.mp distinct
      rw [List.mapM_cons]
      refine Yields.bind (Build.literal_spec regular first) fun id c₁ built => ?_
      obtain ⟨grown₁, regular₁, found⟩ := built
      refine Yields.bind (ih regular₁ properRest distinctRest) fun ids d result => Yields.pure ?_
      obtain ⟨grown, regularD, nodes⟩ := result
      have found := grown.gate? found
      refine ⟨grown₁.trans grown, regularD, by simp [nodes.length],
        List.pairwise_cons.mpr ⟨?_, nodes.apart⟩,
        List.forall_mem_cons.mpr ⟨⟨l, by simp, found⟩, ?_⟩,
        List.forall_mem_cons.mpr ⟨⟨id, by simp, found⟩, ?_⟩⟩
      · intro other member v left right
        obtain ⟨k, listed, same'⟩ := nodes.vars regularD member right
        have same : v = l.var := (regularD.mem_varsOf found).mp left
        exact fresh (same ▸ same' ▸ List.mem_map_of_mem listed)
      · intro other member
        obtain ⟨k, listed, gate⟩ := nodes.each other member
        exact ⟨k, List.mem_cons_of_mem _ listed, gate⟩
      · intro k listed
        obtain ⟨other, member, gate⟩ := nodes.all k listed
        exact ⟨other, List.mem_cons_of_mem _ member, gate⟩

theorem literals_yields (valid : Valid formula uses s) {literals : List Lit}
    (proper : ∀ l ∈ literals, l.Proper) (distinct : (literals.map Lit.var).Nodup)
    : Yields (onCircuit (literals.mapM Build.literal)) s fun ids t =>
        Follows formula uses s t ∧ LiteralNodes t.circuit literals ids := by
  apply yields_onCircuit
  refine (literals_spec valid.regular proper distinct).mono fun ids c result => ?_
  exact ⟨valid.circuit result.1 result.2.1, result.2.2⟩

/-- The nodes of literals conjoined with a node over other variables, if there is one. -/
theorem conjoinedLiterals_yields (valid : Valid formula uses s) {literals : List Lit}
    {conjuncts others : List NodeId} {clauses : Clauses}
    (nodes : LiteralNodes s.circuit literals conjuncts) (apartOthers : others.Pairwise s.circuit.Apart)
    (denotes : ∀ node ∈ others, s.circuit.Denotes node clauses)
    (fresh : ∀ v, v ∈ clauses.vars → ∀ l ∈ literals, v ≠ l.var)
    : Yields (conjunction (conjuncts ++ others)) s fun id t =>
        Follows formula uses s t ∧ id < t.circuit.nodes.size
        ∧ (∀ σ, t.circuit.Satisfies σ id
          ↔ (∀ l ∈ literals, l.TrueIn σ) ∧ (others ≠ [] → Clauses.TrueIn σ clauses))
        ∧ ∀ v, v ∈ t.circuit.varsOf id → (∃ l ∈ literals, v = l.var) ∨ v ∈ clauses.vars := by
  have present : ∀ id ∈ conjuncts ++ others, id < s.circuit.nodes.size := by
    refine List.forall_mem_append.mpr ⟨fun id member => ?_, fun id member => (denotes id member).present⟩
    obtain ⟨l, _, found⟩ := nodes.each id member
    exact Circuit.lt_of_gate? found
  have apart : (conjuncts ++ others).Pairwise s.circuit.Apart := by
    refine List.pairwise_append.mpr ⟨nodes.apart, apartOthers, ?_⟩
    intro id member other listed v left right
    obtain ⟨l, known, same⟩ := nodes.vars valid.regular member left
    exact fresh v ((denotes other listed).vars right) l known same
  refine (conjunction_yields valid present apart).mono fun id t result => ?_
  obtain ⟨follows, there, satisfies, mentions⟩ := result
  refine ⟨follows, there, fun σ => ?_, fun v inside => ?_⟩
  · rw [satisfies, List.forall_mem_append, nodes.satisfies]
    refine and_congr_right fun _ => ⟨fun all some_ => ?_, fun holds node member => ?_⟩
    · obtain ⟨node, member⟩ := List.exists_mem_of_ne_nil _ some_
      exact ((denotes node member).satisfies σ).mp (all node member)
    · exact ((denotes node member).satisfies σ).mpr (holds (List.ne_nil_of_mem member))
  · obtain ⟨child, member, occurs⟩ := (mentions v).mp inside
    rcases List.mem_append.mp member with old | other
    · exact .inl (nodes.vars valid.regular old occurs)
    · exact .inr ((denotes child other).vars occurs)

/-- Implied literals are conjoined with what they leave of the clauses. -/
theorem trueIn_implied {σ : Assignment} {clauses : Clauses} {literals : List Lit}
    (nonzero : ∀ l ∈ literals, l ≠ 0) (implied : ∀ l ∈ literals, Entailed clauses [] l)
    : Clauses.TrueIn σ clauses
      ↔ (∀ l ∈ literals, l.TrueIn σ) ∧ Clauses.TrueIn σ (clauses.assignEach literals) := by
  constructor
  · intro holds
    have forced : ∀ l ∈ literals, l.TrueIn σ := fun l member =>
      implied l member σ (by simp) holds
    exact ⟨forced, (Clauses.trueIn_assignEach nonzero forced).mpr holds⟩
  · exact fun both => (Clauses.trueIn_assignEach nonzero both.1).mp both.2

theorem compileReduced_compiles {call : CompileCall} (normal : formula.Normal)
    (solves : Solves formula uses call g.vars.size) (sits : Sits formula uses g)
    (nonempty : ¬ [] ∈ g.current) (some_ : g.current ≠ []) (frame : Frame) {model : Option Model}
    (atHand : AtHand formula uses g model)
    : Compiles formula uses (compileReduced call g frame model) g.current := by
  refine cached_compiles sits.tidy ?_
  intro s valid
  refine Yields.bind (leaf?_yields sits valid) fun leaf t result => ?_
  obtain ⟨follows, denotes⟩ := result
  cases leaf with
  | some id => exact Yields.pure ⟨follows, denotes id rfl⟩
  | none =>
      dsimp only
      split
      · rename_i several
        exact (split_compiles normal solves sits nonempty several frame atHand).after follows
      · exact (branch_compiles solves sits nonempty some_ frame).after follows

/-- A model at hand stays one when implied literals are assigned. -/
theorem AtHand.assign {model : Option Model} (atHand : AtHand formula uses g model)
    (sits : Sits formula uses g) {literals : List Lit} (distinct : (literals.map Lit.var).Nodup)
    (implied : ∀ l ∈ literals, l.var ∈ g.vars ∧ Entailed g.current [] l)
    : AtHand formula uses (g.assign literals) model := by
  intro found same
  obtain ⟨used, shows_⟩ := atHand found same
  refine ⟨used, ?_⟩
  rw [assignment_assign sits.wellFormed
    (fun l member => value_of_mem_vars (implied l member).1) distinct]
  exact (sits.placed used).shows_append shows_ fun l member => (implied l member).2

section Implied

variable {literals : List Lit} (sits : Sits formula uses g)
  (implied : ∀ l ∈ literals, l.var ∈ g.vars ∧ Entailed g.current [] l)

include sits implied

/-- A formula is its implied literals and what is left when they are assigned. -/
theorem trueIn_current_iff_implied (σ : Assignment)
    : Clauses.TrueIn σ g.current
      ↔ (∀ l ∈ literals, l.TrueIn σ) ∧ Clauses.TrueIn σ (g.assign literals).current := by
  rw [current_assign sits.wellFormed]
  exact trueIn_implied (fun l member => (sits.tidy.proper_of_var (implied l member).1).1)
    fun l member => (implied l member).2

/-- The node for what is left is conjoined with the implied literals; without clauses they stand alone. -/
theorem conjoinedImplied_yields (valid : Valid formula uses s) {conjuncts others : List NodeId}
    (nodes : LiteralNodes s.circuit literals conjuncts) (apart : others.Pairwise s.circuit.Apart)
    (denotes : ∀ node ∈ others, s.circuit.Denotes node (g.assign literals).current)
    (alone : others = [] → (g.assign literals).current = [])
    : Yields (conjunction (conjuncts ++ others)) s fun id t =>
        Follows formula uses s t ∧ t.circuit.Denotes id g.current := by
  have left : ∀ v, v ∈ (g.assign literals).current.vars → v ∈ g.vars ∧ ∀ l ∈ literals, v ≠ l.var := by
    rw [current_assign sits.wellFormed]
    exact fun v inside => Clauses.mem_vars_assignEach inside
  refine (conjoinedLiterals_yields valid nodes apart denotes fun v inside => (left v inside).2).mono ?_
  rintro id t ⟨follows, present, satisfies, mentions⟩
  refine ⟨follows, present, fun σ => ?_, fun {v} inside => ?_⟩
  · rw [satisfies, trueIn_current_iff_implied sits implied]
    refine and_congr_right fun _ => ⟨fun holds => ?_, fun holds _ => holds⟩
    by_cases none_ : others = []
    · simp [alone none_, Clauses.TrueIn]
    · exact holds none_
  · rcases mentions v inside with ⟨l, listed, rfl⟩ | occurs
    · exact (implied l listed).1
    · exact (left v occurs).1

end Implied

theorem compileImplied_compiles {call : CompileCall} (normal : formula.Normal)
    (solves : Solves formula uses call g.vars.size) (sits : Sits formula uses g) (frame : Frame)
    {model : Option Model} (atHand : AtHand formula uses g model)
    : Compiles formula uses (compileImplied (compileReduced call) g frame model) g.current := by
  intro s valid
  refine Yields.bind (impliedLiterals_yields normal sits valid) fun found t result => ?_
  obtain ⟨follows, none_, some_⟩ := result
  cases found with
  | none => exact (unsatisfiable_compiles (none_ rfl)).after follows
  | some literals =>
      obtain ⟨distinct, implied⟩ := some_ literals rfl
      have proper : ∀ l ∈ literals, l.Proper := fun l member =>
        sits.tidy.proper_of_var (implied l member).1
      have reduced := sits.assign fun l member => (implied l member).1
      have left : ∀ σ, Clauses.TrueIn σ g.current → Clauses.TrueIn σ (g.assign literals).current := fun σ holds =>
        ((trueIn_current_iff_implied sits implied σ).mp holds).2
      refine yields_counted follows.valid fun t counted => ?_
      have follows := follows.trans counted
      refine Yields.bind (literals_yields follows.valid proper distinct) fun conjuncts u result => ?_
      obtain ⟨made, nodes⟩ := result
      have follows := follows.trans made
      dsimp only
      split
      · rename_i empty
        exact (unsatisfiable_compiles fun σ holds =>
          Clauses.not_trueIn_of_nil (hasEmptyClause_iff.mp empty) (left σ holds)).after follows
      · rename_i nonempty
        split
        · rename_i none_
          have conjoined := conjoinedImplied_yields sits implied follows.valid nodes .nil (by simp)
            fun _ => isEmpty_iff.mp none_
          rw [List.append_nil] at conjoined
          exact conjoined.mono fun id w result => ⟨follows.trans result.1, result.2⟩
        · rename_i some_
          have smaller : Solves formula uses call (g.assign literals).vars.size := by
            intro g' frame sits' below
            refine solves frame sits' (Nat.lt_of_lt_of_le below (SortedSet.size_le fun v inside => ?_))
            rw [vars, current_assign sits.wellFormed] at inside
            exact (Clauses.mem_vars_assignEach inside).1
          have inner := compileReduced_compiles normal smaller reduced
            (fun inside => nonempty (hasEmptyClause_iff.mpr inside))
            (fun same => some_ (isEmpty_iff.mpr same)) frame (atHand.assign sits distinct implied)
          refine Yields.bind (inner u follows.valid) fun node w result => ?_
          obtain ⟨later, denotes⟩ := result
          have together := follows.trans later
          apply yields_isFalse
          split
          · rename_i single
            refine Yields.pure ⟨together, ?_⟩
            rcases Bool.or_eq_true_iff.mp single with nothing | false_
            · have empty : literals = [] := by
                rw [← List.length_eq_zero_iff, ← nodes.length, List.isEmpty_iff.mp nothing]
                rfl
              subst empty
              exact denotes
            · exact denotes_of_isFalse together.valid.regular denotes false_ left
          · exact (conjoinedImplied_yields sits implied together.valid (nodes.grow later.grown)
              (List.pairwise_singleton _ node) (by simpa using denotes) (by simp)).mono
              fun id x result => ⟨together.trans result.1, result.2⟩

/-- A component is compiled when the call works for components with fewer variables. -/
theorem compileStep_compiles {call : CompileCall} (normal : formula.Normal)
    (solves : Solves formula uses call g.vars.size) (sits : Sits formula uses g) (frame : Frame)
    : Compiles formula uses (compileStep call g frame) g.current := by
  intro s valid
  refine yields_counted valid fun t follows => ?_
  apply Yields.note
  split
  · rename_i empty
    exact (unsatisfiable_compiles fun _ =>
      Clauses.not_trueIn_of_nil (hasEmptyClause_iff.mp empty)).after follows
  split
  · rename_i none_
    apply yields_onCircuit
    refine (Build.constant_spec follows.valid.regular true).mono fun id c built => ?_
    obtain ⟨satisfies, vars, _⟩ := built.meaning follows.valid.regular.closed
      (by simp [Gate.children])
    refine ⟨follows.trans (follows.valid.circuit built.1 built.2.1), Circuit.lt_of_gate? built.2.2,
      fun σ => ?_, fun {v} inside => ?_⟩
    · rw [satisfies, isEmpty_iff.mp none_]
      simp [Circuit.Holds, Clauses.TrueIn]
    · exact ((vars v).mp inside).elim
  · have implied : ∀ {model : Option Model}, AtHand formula uses g model
        → Compiles formula uses (compileOpen (compileReduced call) g frame model) g.current := fun atHand =>
      cached_compiles sits.tidy (compileImplied_compiles normal solves sits frame atHand)
    refine Yields.bind (prospect_yields normal sits follows.valid frame) fun prospect u result => ?_
    obtain ⟨later, foretells⟩ := result
    have follows := follows.trans later
    cases prospect with
    | refuted => exact (unsatisfiable_compiles foretells).after follows
    | unknown => exact (implied (by simp [AtHand])).after follows
    | model found =>
        refine (implied fun other same => ?_).after follows
        obtain rfl := Option.some.inj same
        exact foretells

/-- With fuel for its variables a component is compiled; induction on the fuel. -/
theorem compileWithin_solves (normal : formula.Normal) (fuel : Nat)
    : Solves formula uses (compileWithin fuel) fuel := by
  induction fuel with
  | zero => exact fun _ _ small => absurd small (Nat.not_lt_zero _)
  | succ fuel ih =>
      intro g frame sits small
      refine compileStep_compiles normal (fun frame' sits' below => ?_) sits frame
      exact ih frame' sits' (Nat.lt_of_lt_of_le below (Nat.le_of_lt_succ small))

/-- The node of a residual formula has its models and mentions no other variables than its. -/
theorem residual_compiles (normal : formula.Normal) (sits : Sits formula uses g)
    : Compiles formula uses (residual g) g.current :=
  compileWithin_solves normal (g.vars.size + 1) {} sits (Nat.lt_succ_self _)

end KnowledgeCompiler.Compiling
