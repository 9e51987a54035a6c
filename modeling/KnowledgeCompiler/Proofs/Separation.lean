import KnowledgeCompiler.Compilation.State
import KnowledgeCompiler.Proofs.CutSet

/-! Cut sets over a sequence of calls.

Successful calls lead from one source of cut sets to the next. All of them keep the bisection procedure, and what they
keep for replay are places of the keys, so each answer along the way is usable, whether it is computed or replayed.
-/

namespace KnowledgeCompiler.CutSets

variable {ε : Type} {config : CutSetConfig} {bisect : Bisector} {s : Journaled CutSets}

/-- The sources of cut sets that calls for residual formulas lead to, one after the other. -/
inductive Served (ε : Type) (config : CutSetConfig) (bisect : Bisector) : Journaled CutSets → Prop
  | start (journal : Journal) : Served ε config bisect ⟨ofBisector config bisect, journal⟩
  | call {s t : Journaled CutSets} {cut : SortedSet Var} (g : Residual) (served : Served ε config bisect s)
      (ran : (cutSet g : Action ε CutSets (SortedSet Var)) s = .ok cut t)
      : Served ε config bisect t

/-- The source after any number of calls. -/
theorem Served.spec (served : Served ε config bisect s)
    (dividing : ∀ h imbalance, (bisect h imbalance).size = h.nodeCount)
    : s.state.config = config ∧ s.state.bisect = bisect ∧ s.state.Dividing ∧ s.state.Replayable := by
  induction served with
  | start journal => exact ⟨rfl, rfl, dividing, fun entry member => by cases member⟩
  | @call s t cut g _ ran ih =>
      obtain ⟨sameConfig, sameBisect, divides, replayable⟩ := ih
      have ended := cutSet_ensures (ε := ε) g divides replayable s.journal
      rw [show (⟨s.state, s.journal⟩ : Journaled CutSets) = s from rfl, ran] at ended
      have kept : t.state.bisect = bisect := ended.bisect.trans sameBisect
      exact ⟨ended.config.trans sameConfig, kept, fun h imbalance => by rw [kept, dividing], ended.replayable⟩

/-- After any calls, what is kept for replay are places of its keys. A call for a residual formula returns some of
its variables, at least one if it has any, and unless the answer is replayed, no other variable occurs in clauses
on different sides of the bisection. Where equivalent variables are merged, this asks that no clause of two literals
has the literal without a complement.
-/
theorem cut_sets_usable_and_separating
    : (∀ config, (ofConfig config).Dividing)
      ∧ ∀ (config : CutSetConfig) (bisect : Bisector),
        (∀ h imbalance, (bisect h imbalance).size = h.nodeCount)
        → ∀ s : Journaled CutSets, Served ε config bisect s
        → (∀ entry ∈ s.state.replays, ∀ position ∈ entry.2, position < entry.1.length)
          ∧ ∀ g : Residual, Mergeable config g.current → g.current.length ≤ Hypergraph.largestNodeCount
            → Action.Yields (cutSet g : Action ε CutSets (SortedSet Var)) s.state fun cut after =>
                Usable g.current cut
                ∧ ∀ v, v ∈ g.vars → after.hits = s.state.hits → Separated config bisect g.current cut := by
  refine ⟨dividing_ofConfig, fun config bisect dividing s served => ?_⟩
  obtain ⟨rfl, rfl, divides, replayable⟩ := served.spec dividing
  refine ⟨fun entry listed => (replayable entry listed).2, fun g mergeable room => ?_⟩
  refine ((cutSet_ensures g divides replayable).yields (cutSet_yields divides mergeable room)).mono ?_
  exact fun cut after ⟨_, serves⟩ => ⟨serves.usable, serves.separated⟩

/-- A call for two clauses after one for three clauses. -/
theorem cut_sets_of_two_formulas
    : let bisect : Bisector := fun h imbalance => h.bisect imbalance 4
      ∃ cut t,
        (cutSet (.ofClauses [[1, 2], [-1, 3], [4, 5]]) : Action CompileError CutSets (SortedSet Var))
            ⟨ofBisector {} bisect, #[]⟩ = .ok cut t
        ∧ Served CompileError {} bisect t
        ∧ Mergeable {} (Residual.ofClauses [[1, 2], [-2, 3]]).current
        ∧ Action.Yields (cutSet (.ofClauses [[1, 2], [-2, 3]]) : Action CompileError CutSets (SortedSet Var))
          t.state fun cut _ => Usable (Residual.ofClauses [[1, 2], [-2, 3]]).current cut := by
  intro bisect
  have dividing : ∀ h imbalance, (bisect h imbalance).size = h.nodeCount :=
    fun h imbalance => h.size_bisect imbalance 4
  have merges : Mergeable {} (Residual.ofClauses [[1, 2], [-1, 3], [4, 5]]).current := by
    intro _
    decide +kernel
  have merges' : Mergeable {} (Residual.ofClauses [[1, 2], [-2, 3]]).current := by
    intro _
    decide +kernel
  obtain ⟨-, each⟩ := cut_sets_usable_and_separating (ε := CompileError)
  have start : Served CompileError {} bisect ⟨ofBisector {} bisect, #[]⟩ := .start #[]
  obtain ⟨cut, t, ran, -⟩ := (each {} bisect dividing _ start).2 _ merges (by decide +kernel) #[]
  have served : Served CompileError {} bisect t := start.call _ ran
  refine ⟨cut, t, ran, served, merges', ?_⟩
  exact ((each {} bisect dividing t served).2 _ merges' (by decide +kernel)).mono fun _ _ holds => holds.1

/-- A clause of two literals with the literal without a complement: merging equivalent variables overflows. -/
theorem cutSet_overflows
    : Served CompileError {} (fun h imbalance => h.bisect imbalance 4) ⟨ofConfig {}, #[]⟩
      ∧ (Residual.ofClauses [[1, -2], [1, 2], [1, -2147483648]]).vars.toList = [1, 2, 2147483648]
      ∧ Action.outcome (cutSet (.ofClauses [[1, -2], [1, 2], [1, -2147483648]])
          : Action CompileError CutSets (SortedSet Var)) ⟨ofConfig {}, #[]⟩
        = .error (.fault .negationOverflow) := by
  refine ⟨.start #[], by decide +kernel, ?_⟩
  rfl

end KnowledgeCompiler.CutSets
