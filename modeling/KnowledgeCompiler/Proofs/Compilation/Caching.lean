import KnowledgeCompiler.Compilation.State
import KnowledgeCompiler.Proofs.Circuit.Copying
import KnowledgeCompiler.Proofs.ComponentCache
import KnowledgeCompiler.Proofs.CutSet
import KnowledgeCompiler.Proofs.Solver

/-! What a compilation keeps: the circuit is regular, the solver fits the formula, and the node of every
cached component has the models of a formula with its key. A formula that is found in the cache gets a
node with its own models.
-/

namespace KnowledgeCompiler.Compiling

open KnowledgeCompiler.Action

-----------------------------------------------------------------------------------------
-- The invariant
-----------------------------------------------------------------------------------------

/-- The nodes of cached components stand for formulas with their keys. -/
def Trusted (c : Circuit) (cache : ComponentCache) : Prop :=
  ∀ key entry, cache.entries.peek? key = some entry
    → ∃ g : Residual, g.current.Tidy ∧ cache.scheme.keyOf g = (key, entry.names)
      ∧ c.Denotes entry.node g.current

theorem Trusted.grow {c d : Circuit} {cache : ComponentCache} (trusted : Trusted c cache)
    (grown : c.Extends d) (closed : c.Closed)
    : Trusted d cache := by
  intro key entry found
  obtain ⟨g, tidy, keyed, denotes⟩ := trusted key entry found
  exact ⟨g, tidy, keyed, denotes.grow grown closed⟩

/-- What holds of the state of a compilation, with a solver or without one. -/
structure Valid (formula : Formula) (uses : Bool) (s : Compiler) : Prop where
  regular : s.circuit.Regular
  solved
    : uses = true ∧ (∃ solver, s.solver = some solver ∧ solver.Fits formula)
      ∨ uses = false ∧ s.solver = none
  backbone : uses = false → s.config.implied ≠ .backbone
  trusted : ∀ {cache}, s.cache = some cache → Trusted s.circuit cache
  dividing : s.cuts.Dividing

/-- A later state of a compilation: the circuit has grown, and components are recognised as before. -/
structure Follows (formula : Formula) (uses : Bool) (s t : Compiler) : Prop where
  grown : s.circuit.Extends t.circuit
  scheme : t.cache.map (·.scheme) = s.cache.map (·.scheme)
  valid : Valid formula uses t

/-- An action that adds a node with the models of some clauses. -/
def Compiles (formula : Formula) (uses : Bool) (action : Compiling NodeId) (clauses : Clauses) : Prop :=
  ∀ s, Valid formula uses s → Yields action s fun id t =>
    Follows formula uses s t ∧ t.circuit.Denotes id clauses

variable {formula : Formula} {uses : Bool} {s t u : Compiler} {α β : Type} {clauses : Clauses}

theorem Follows.refl (valid : Valid formula uses s) : Follows formula uses s s :=
  ⟨.refl _, rfl, valid⟩

theorem Follows.trans (first : Follows formula uses s t) (second : Follows formula uses t u)
    : Follows formula uses s u :=
  ⟨first.grown.trans second.grown, second.scheme.trans first.scheme, second.valid⟩

/-- What a later action does follows the state before the first one. -/
theorem Compiles.after {action : Compiling NodeId} (compiles : Compiles formula uses action clauses)
    (first : Follows formula uses s t)
    : Yields action t fun id u => Follows formula uses s u ∧ u.circuit.Denotes id clauses :=
  (compiles t first.valid).mono fun _ _ result => ⟨first.trans result.1, result.2⟩

-----------------------------------------------------------------------------------------
-- Parts of the state
-----------------------------------------------------------------------------------------

theorem yields_onCircuit {build : Build α} {post : α → Compiler → Prop}
    (yields : Yields build s.circuit fun a c => post a { s with circuit := c })
    : Yields (onCircuit build) s post := by
  unfold onCircuit
  apply Yields.current
  apply Yields.update
  apply Yields.within
  exact yields

theorem yields_count {change : Statistics → Statistics} {next : Unit → Compiling β}
    {post : β → Compiler → Prop}
    (then_ : Yields (next ()) { s with statistics := change s.statistics } post)
    : Yields (count change >>= next) s post := then_

theorem yields_config {next : CompilerConfig → Compiling β} {post : β → Compiler → Prop}
    (then_ : Yields (next s.config) s post)
    : Yields (config >>= next) s post := then_

/-- Counting leaves the state valid. -/
theorem Valid.counted (valid : Valid formula uses s) (statistics : Statistics)
    : Follows formula uses s { s with statistics } :=
  ⟨.refl _, rfl, valid.regular, valid.solved, valid.backbone, valid.trusted, valid.dividing⟩

/-- What comes after counting can start from any later state. -/
theorem yields_counted {change : Statistics → Statistics} {next : Unit → Compiling β}
    {post : β → Compiler → Prop} (valid : Valid formula uses s)
    (then_ : ∀ t, Follows formula uses s t → Yields (next ()) t post)
    : Yields (count change >>= next) s post :=
  yields_count (then_ _ (valid.counted _))

/-- A grown circuit leaves the state valid. -/
theorem Valid.circuit (valid : Valid formula uses s) {c : Circuit} (grown : s.circuit.Extends c)
    (regular : c.Regular)
    : Follows formula uses s { s with circuit := c } where
  grown := grown
  scheme := rfl
  valid := {
    regular
    solved := valid.solved
    backbone := valid.backbone
    trusted := fun found => (valid.trusted found).grow grown valid.regular.closed
    dividing := valid.dividing
  }

theorem yields_isFalse {id : NodeId} {next : Bool → Compiling β} {post : β → Compiler → Prop}
    (then_ : Yields (next (s.circuit.isFalse id)) s post)
    : Yields (isFalse id >>= next) s post := then_

/-- The constant false stands for clauses without a model. -/
theorem unsatisfiable_compiles (none_ : ∀ σ, ¬ Clauses.TrueIn σ clauses)
    : Compiles formula uses unsatisfiable clauses := by
  intro s valid
  unfold unsatisfiable
  apply yields_count
  apply yields_onCircuit
  refine (Build.constant_spec valid.regular false).mono fun id c built => ?_
  obtain ⟨satisfies, vars, _⟩ := built.meaning valid.regular.closed (by simp [Gate.children])
  refine ⟨(valid.counted _).trans ((valid.counted _).valid.circuit built.1 built.2.1),
    Circuit.lt_of_gate? built.2.2, fun σ => ?_, fun {v} inside => ?_⟩
  · rw [satisfies]
    simpa [Circuit.Holds] using none_ σ
  · exact ((vars v).mp inside).elim

-----------------------------------------------------------------------------------------
-- Cached components
-----------------------------------------------------------------------------------------

/-- A cached node stands for a counterpart of its formula, as it is or under other names. -/
theorem reinstate_yields {entry : CacheEntry} {names : Option Renaming} {source target : Clauses}
    (valid : Valid formula uses s) (tidy : source.Tidy)
    (denotes : s.circuit.Denotes entry.node source)
    (counterparts : Counterparts source target (relate entry.names names))
    : Yields (reinstate entry names) s fun id t =>
        Follows formula uses s t ∧ t.circuit.Denotes id target := by
  unfold reinstate
  generalize relate entry.names names = related at counterparts
  cases counterparts with
  | same models vars =>
      exact Yields.pure ⟨.refl valid, denotes.present,
        fun σ => (denotes.satisfies σ).trans (models σ),
        fun inside => (vars _).mp (denotes.vars inside)⟩
  | @renamed related bounded injective covered images models =>
      obtain ⟨bijection, made, rfl⟩ := injective.ofRenaming?
      have coveredNode : ∀ v, v ∈ s.circuit.varsOf entry.node
          → (bijection.toGlobal.find? v).isSome = true := fun v inside =>
        covered v (denotes.vars inside)
      have inside : bijection.toLocal.Bounded := fun image =>
        tidy.vars_bound (images (bijection.toLocal_iff.mp image)).1
      have renamed : ∀ {c : Circuit} {id : NodeId}, s.circuit.Extends c → c.Regular
          → id < c.nodes.size
          → (∀ σ, c.Satisfies σ id ↔ s.circuit.Satisfies (bijection.toGlobal.pull σ) entry.node)
          → (∀ v, v ∈ c.varsOf id
            ↔ ∃ u ∈ s.circuit.varsOf entry.node, bijection.toGlobal.find? u = some v)
          → Follows formula uses s { s with circuit := c } ∧ c.Denotes id target := by
        intro c id grown regular present satisfies vars
        refine ⟨valid.circuit grown regular, present, fun σ => ?_, fun {v} inside => ?_⟩
        · rw [satisfies, denotes.satisfies, models]
        · obtain ⟨u, _, found⟩ := (vars v).mp inside
          exact (images found).2
      apply yields_config
      rw [made]
      dsimp only
      split
      · -- Variables with an image keep their names.
        rename_i identity
        have identical : ∀ {v w}, bijection.toGlobal.find? v = some w → v = w :=
          Renaming.isIdentity_iff.mp identity
        refine Yields.pure ⟨.refl valid, denotes.present, fun σ => ?_, fun {v} inside => ?_⟩
        · rw [denotes.satisfies, ← models]
          refine Clauses.trueIn_congr fun v inside => ?_
          obtain ⟨w, found⟩ := Option.isSome_iff_exists.mp (covered v inside)
          rw [Renaming.pull_of_find? found, identical found]
        · obtain ⟨w, found⟩ := Option.isSome_iff_exists.mp (covered v (denotes.vars inside))
          have kept := (images found).2
          rwa [← identical found] at kept
      · cases s.config.reuse with
        | mapping =>
            apply yields_onCircuit
            refine (Build.mapping_spec valid.regular denotes.present bounded inside coveredNode).mono
              fun id c built => ?_
            obtain ⟨grown, regular, present, satisfies, vars⟩ := built
            exact renamed grown regular present satisfies vars
        | copy =>
            apply yields_onCircuit
            refine (Build.copy_spec valid.regular denotes.present
              ⟨bounded, injective, coveredNode⟩).mono fun id c built => ?_
            obtain ⟨grown, regular, copied⟩ := built
            refine renamed grown regular copied.present (fun σ => ?_) fun v => ?_
            · rw [copied.satisfies, grown.satisfies_iff valid.regular.closed denotes.present]
            · rw [copied.vars, grown.varsOf denotes.present]

/-- Looking up finds what is stored and leaves it there. -/
theorem lookup_yields {cache : ComponentCache} {key : ComponentKey} (valid : Valid formula uses s)
    (held : s.cache = some cache)
    : Yields (lookup cache key) s fun found t =>
        found = cache.entries.peek? key ∧ Follows formula uses s t ∧ t.circuit = s.circuit := by
  obtain ⟨found, scheme, entries⟩ := cache.get_eq key
  unfold lookup
  apply Yields.update
  refine Yields.pure ⟨found, ⟨.refl _, ?_, valid.regular, valid.solved, valid.backbone, ?_,
    valid.dividing⟩, rfl⟩
  · rw [held]
    exact congrArg some scheme
  · intro cache' same key' entry listed
    obtain rfl := Option.some.inj same
    have before : cache.entries.peek? key' = some entry := by
      rw [Tally.peek?, ← entries]
      exact listed
    exact valid.trusted held key' entry before

/-- Storing a node that stands for a formula with the key. -/
theorem Valid.store {g : Residual} {scheme : CachingScheme} {node : NodeId}
    (valid : Valid formula uses s) (tidy : g.current.Tidy)
    (schemes : s.cache.map (·.scheme) = some scheme) (denotes : s.circuit.Denotes node g.current)
    : Follows formula uses s { s with
        cache := s.cache.map fun cache =>
          cache.add (scheme.keyOf g).1 { node, names := (scheme.keyOf g).2 } } := by
  refine ⟨.refl _, ?_, valid.regular, valid.solved, valid.backbone, ?_, valid.dividing⟩
  · cases s.cache <;> rfl
  · intro cache' same key entry listed
    obtain ⟨cache, held, rfl⟩ := Option.map_eq_some_iff.mp same
    rw [held, Option.map_some, Option.some.injEq] at schemes
    subst schemes
    obtain ⟨rfl, rfl⟩ | before := ComponentCache.peek?_add listed
    · exact ⟨g, tidy, rfl, denotes⟩
    · exact valid.trusted held key entry before

/-- A formula gets the node of a cached counterpart, or else the compiled one. -/
theorem cached_compiles {g : Residual} {hit : Statistics → Statistics} {compile : Compiling NodeId}
    (tidy : g.current.Tidy) (compiles : Compiles formula uses compile g.current)
    : Compiles formula uses (cached hit g compile) g.current := by
  intro s valid
  unfold cached
  apply Yields.current
  cases held : s.cache with
  | none => exact compiles s valid
  | some cache =>
      dsimp only
      refine Yields.bind (lookup_yields valid held) fun found t looked => ?_
      obtain ⟨rfl, follows, same⟩ := looked
      cases listed : cache.entries.peek? (cache.scheme.keyOf g).1 with
      | some entry =>
          obtain ⟨g₀, tidy₀, keyed, denotes⟩ := valid.trusted held _ entry listed
          have counterparts := cache.scheme.counterparts tidy.proper tidy₀.proper (by rw [keyed])
          rw [keyed] at counterparts
          rw [← same] at denotes
          refine Yields.bind (reinstate_yields follows.valid tidy₀ denotes counterparts) fun id u result => ?_
          obtain ⟨later, denotes⟩ := result
          apply yields_count
          exact Yields.pure ⟨(follows.trans later).trans (later.valid.counted _), denotes⟩
      | none =>
          refine Yields.bind (compiles.after follows) fun id u result => ?_
          obtain ⟨later, denotes⟩ := result
          have scheme : u.cache.map (·.scheme) = some cache.scheme := by
            rw [later.scheme, held]
            rfl
          apply Yields.update
          exact Yields.pure ⟨later.trans (later.valid.store tidy scheme denotes), denotes⟩

end KnowledgeCompiler.Compiling
