import KnowledgeCompiler.Proofs.Reduction

/-! Probing under a trail.

Probing with the whole formula under a trail goes through the same steps as probing with the clauses
that are left, and finds the same literals.
-/

namespace KnowledgeCompiler

/-- The values of a table are those of its entries. -/
theorem values_eq_map {κ β : Type} {order : κ → κ → Ordering} [Std.TransCmp order]
    (table : Std.TreeMap κ β order)
    : table.values = table.toList.map Prod.snd := by
  have folded : table.values = table.foldr (fun _ b values => b :: values) [] := rfl
  rw [folded, Std.TreeMap.foldr_eq_foldr_toList]
  induction table.toList with
  | nil => rfl
  | cons entry rest ih => simp [ih]

namespace Propagator.Probing

theorem known_learn (state : Probing) (literals : List Lit)
    : (state.learn literals).known.toList = state.known.toList ++ literals := by
  induction literals generalizing state with
  | nil => simp [learn]
  | cons l rest ih =>
      rw [learn, List.foldl_cons, ← learn, ih]
      simp

theorem changed_learn (state : Probing) (literals : List Lit)
    : (state.learn literals).changed = state.changed := by
  induction literals generalizing state with
  | nil => rfl
  | cons l rest ih => exact ih _

/-- The literal of a variable after learning literals over distinct variables; induction on the
literals.
-/
theorem forced_learn {literals : List Lit} (distinct : (literals.map Lit.var).Nodup)
    (state : Probing) (v : Var) (l : Lit)
    : (state.learn literals).forced[v]? = some l
      ↔ (l ∈ literals ∧ l.var = v)
        ∨ (∀ k ∈ literals, k.var ≠ v) ∧ state.forced[v]? = some l := by
  induction literals generalizing state with
  | nil => simp [learn]
  | cons k rest ih =>
      obtain ⟨apart, distinct⟩ := List.nodup_cons.mp distinct
      rw [learn, List.foldl_cons, ← learn, ih distinct]
      simp only [Std.TreeMap.getElem?_insert, Nat.compare_eq_eq, List.mem_cons, forall_eq_or_imp]
      by_cases same : k.var = v
      · subst same
        have absent : ∀ m ∈ rest, m.var ≠ k.var := fun m member equal =>
          apart (equal ▸ List.mem_map_of_mem member)
        simp only [if_true, Option.some.injEq]
        constructor
        · rintro (⟨member, vars⟩ | ⟨_, rfl⟩)
          · exact absurd vars (absent l member)
          · exact .inl ⟨.inl rfl, rfl⟩
        · rintro (⟨rfl | member, vars⟩ | ⟨⟨differ, _⟩, _⟩)
          · exact .inr ⟨absent, rfl⟩
          · exact absurd vars (absent l member)
          · exact absurd rfl differ
      · simp only [if_neg same]
        constructor
        · rintro (⟨member, vars⟩ | ⟨others, found⟩)
          · exact .inl ⟨.inr member, vars⟩
          · exact .inr ⟨⟨same, others⟩, found⟩
        · rintro (⟨rfl | member, vars⟩ | ⟨⟨_, others⟩, found⟩)
          · exact absurd vars same
          · exact .inl ⟨member, vars⟩
          · exact .inr ⟨others, found⟩

-----------------------------------------------------------------------------------------
-- Matching runs
-----------------------------------------------------------------------------------------

/-- The state of a run with the whole formula and that of a run with the reduced clauses: beside the
trail they know the same literals.
-/
structure Matches (trail : List Lit) (state reduced : Probing) : Prop where
  known : ∀ l, l ∈ state.known.toList ↔ l ∈ trail ∨ l ∈ reduced.known.toList
  fresh : ∀ l ∈ reduced.known.toList, ∀ k ∈ trail, k.var ≠ l.var
  proper : ∀ l ∈ reduced.known.toList, l.Proper
  forced : ∀ v : Var, state.forced[v]? = reduced.forced[v]?
  changed : state.changed = reduced.changed

variable {trail : List Lit} {state reduced : Probing}

theorem Matches.learn (same : Matches trail state reduced) {found found' : List Lit}
    (distinct : (found.map Lit.var).Nodup) (distinct' : (found'.map Lit.var).Nodup)
    (members : ∀ l, l ∈ found ↔ l ∈ found')
    (fit : ∀ l ∈ found', l.Proper ∧ ∀ k ∈ trail, k.var ≠ l.var)
    : Matches trail (state.learn found) (reduced.learn found') where
  known l := by
    simp only [known_learn, List.mem_append, same.known, members, or_assoc]
  fresh l member := by
    rcases List.mem_append.mp (known_learn reduced found' ▸ member) with old | new
    · exact same.fresh l old
    · exact (fit l new).2
  proper l member := by
    rcases List.mem_append.mp (known_learn reduced found' ▸ member) with old | new
    · exact same.proper l old
    · exact (fit l new).1
  forced v := by
    refine Option.ext (fun l => ?_)
    rw [forced_learn distinct, forced_learn distinct', same.forced]
    simp only [members]
  changed := by rw [changed_learn, changed_learn, same.changed]

/-- A literal over a variable outside the trail becomes known on both sides. -/
theorem Matches.push (same : Matches trail state reduced) {l : Lit} (proper : l.Proper)
    (fresh : ∀ k ∈ trail, k.var ≠ l.var) (v : Var)
    : Matches trail
        { known := state.known.push l, forced := state.forced.insert v l, changed := true }
        { known := reduced.known.push l, forced := reduced.forced.insert v l, changed := true } where
  known k := by
    simp only [Array.toList_push, List.mem_append, same.known, or_assoc]
  fresh k member := by
    rcases List.mem_append.mp (Array.toList_push ▸ member) with old | new
    · exact same.fresh k old
    · rw [List.mem_singleton.mp new]
      exact fresh
  proper k member := by
    rcases List.mem_append.mp (Array.toList_push ▸ member) with old | new
    · exact same.proper k old
    · rw [List.mem_singleton.mp new]
      exact proper
  forced w := by simp only [Std.TreeMap.getElem?_insert, same.forced]
  changed := rfl

end Propagator.Probing

namespace Propagator

open Probing

/-- Two runs that end in matching states, or both in a conflict, or both in the same fault. -/
def MatchingRuns (trail : List Lit) : Checked (Option Probing) → Checked (Option Probing) → Prop
  | .ok (some state), .ok (some reduced) => Matches trail state reduced
  | .ok none, .ok none => True
  | .error cause, .error cause' => cause = cause'
  | _, _ => False

/-- Runs that go on from matching states. -/
theorem MatchingRuns.bind {trail : List Lit} {run run' : Checked (Option Probing)}
    {next next' : Probing → Checked (Option Probing)} (first : MatchingRuns trail run run')
    (then_ : ∀ state reduced, Matches trail state reduced
      → MatchingRuns trail (next state) (next' reduced))
    : MatchingRuns trail
        (run >>= fun found => match found with
          | none => pure none
          | some state => next state)
        (run' >>= fun found => match found with
          | none => pure none
          | some state => next' state) := by
  cases run with
  | error cause =>
      cases run' with
      | error cause' => exact first
      | ok found' => exact first.elim
  | ok found =>
      cases run' with
      | error cause' => cases found <;> exact first.elim
      | ok found' =>
          cases found <;> cases found'
          · trivial
          · exact first.elim
          · exact first.elim
          · exact then_ _ _ first

/-- Matching runs have forced the same literals. -/
theorem MatchingRuns.values_eq {trail : List Lit} {run run' : Checked (Option Probing)}
    (runs : MatchingRuns trail run run')
    : (run >>= fun found => pure (found.map (·.forced))).map (Option.map Std.TreeMap.values)
      = (run' >>= fun found => pure (found.map (·.forced))).map (Option.map Std.TreeMap.values) := by
  cases run with
  | error cause =>
      cases run' with
      | error cause' => exact congrArg Except.error runs
      | ok found' => exact runs.elim
  | ok found =>
      cases run' with
      | error cause' => cases found <;> exact runs.elim
      | ok found' =>
          cases found <;> cases found'
          · rfl
          · exact runs.elim
          · exact runs.elim
          · have equal := (Std.TreeMap.Equiv.of_forall_constGet?_eq runs.forced).values_eq
            exact congrArg (fun values => Except.ok (some values)) equal

section Matching

variable {clauses reduced : Clauses} {trail : List Lit} {state state' : Probing}
  (reduces : Reduces clauses trail reduced) (tidy : clauses.Tidy)

include reduces tidy

theorem force_matches (same : Matches trail state state') {l : Lit} (proper : l.Proper)
    (fresh : ∀ k ∈ trail, k.var ≠ l.var) (v : Var)
    : MatchingRuns trail ((ofClauses clauses).force state v l)
        ((ofClauses reduced).force state' v l) := by
  have pushed := same.push proper fresh v
  rcases reduces.propagate_eq tidy.proper pushed.known pushed.fresh pushed.proper with
    ⟨found, found', done, done', distinct, distinct', members, fit⟩ | ⟨done, done'⟩
  · simp only [force, done, done']
    exact pushed.learn distinct distinct' members fit
  · simp only [force, done, done']
    trivial

theorem probeVariable_matches (same : Matches trail state state') {v : Var} (occurs : v ∈ reduced.vars)
    : MatchingRuns trail ((ofClauses clauses).probeVariable state v)
        ((ofClauses reduced).probeVariable state' v) := by
  obtain ⟨positive, small⟩ := (reduces.tidy tidy).vars_bound occurs
  have proper : Lit.Proper (v : Int) := ⟨by grind, by simpa [Lit.var] using small⟩
  have fresh : ∀ l : Lit, l.var = v → ∀ k ∈ trail, k.var ≠ l.var := by
    intro l same k known equal
    exact reduces.apart known (equal ▸ same ▸ occurs)
  have settled : (state.known.any fun l => l.var == v) = state'.known.any fun l => l.var == v := by
    rw [Bool.eq_iff_iff, ← Array.any_toList, ← Array.any_toList, List.any_eq_true, List.any_eq_true]
    constructor
    · rintro ⟨l, member, vars⟩
      rcases (same.known l).mp member with known | other
      · exact absurd rfl (fresh l (by simpa using vars) l known)
      · exact ⟨l, other, vars⟩
    · rintro ⟨l, member, vars⟩
      exact ⟨l, (same.known l).mpr (.inr member), vars⟩
  have above := same.push proper (fresh _ rfl) v
  have below := same.push proper.neg (fresh _ (Lit.var_neg _)) v
  unfold probeVariable
  rw [settled, Lit.word_eq_self small]
  split
  · exact same
  simp only [proper.negate]
  rcases reduces.propagate_eq tidy.proper above.known above.fresh above.proper with
    ⟨_, _, high, high', _⟩ | ⟨high, high'⟩ <;>
    rcases reduces.propagate_eq tidy.proper below.known below.fresh below.proper with
      ⟨_, _, low, low', _⟩ | ⟨low, low'⟩ <;>
    simp only [high, high', low, low', bind, Except.bind, pure, Except.pure]
  · exact same
  · exact force_matches reduces tidy same proper (fresh _ rfl) v
  · exact force_matches reduces tidy same proper.neg (fresh _ (Lit.var_neg _)) v
  · trivial

theorem probeRound_matches {vars : List Var} (occur : ∀ v ∈ vars, v ∈ reduced.vars)
    (same : Matches trail state state')
    : MatchingRuns trail ((ofClauses clauses).probeRound vars state)
        ((ofClauses reduced).probeRound vars state') := by
  induction vars generalizing state state' with
  | nil => exact same
  | cons v rest ih =>
      obtain ⟨first, later⟩ := List.forall_mem_cons.mp occur
      exact (probeVariable_matches reduces tidy same first).bind fun _ _ same => ih later same

theorem probeRounds_matches {vars : List Var} (occur : ∀ v ∈ vars, v ∈ reduced.vars) (fuel : Nat)
    (same : Matches trail state state')
    : MatchingRuns trail ((ofClauses clauses).probeRounds vars fuel state)
        ((ofClauses reduced).probeRounds vars fuel state') := by
  induction fuel generalizing state state' with
  | zero => exact rfl
  | succ fuel ih =>
      have fresh : Matches trail { state with changed := false } { state' with changed := false } :=
        ⟨same.known, same.fresh, same.proper, same.forced, rfl⟩
      refine (probeRound_matches reduces tidy occur fresh).bind fun next next' same => ?_
      rw [same.changed]
      split
      · exact ih same
      · exact same

/-- Probing with the whole formula under the trail and probing with the reduced clauses find the same
literals, or end in a conflict or a fault alike.
-/
theorem probe_values {vars : List Var} (occur : ∀ v ∈ vars, v ∈ reduced.vars) (iterate : Bool)
    : ((ofClauses clauses).probe trail vars iterate).map (Option.map Std.TreeMap.values)
      = ((ofClauses reduced).probe [] vars iterate).map (Option.map Std.TreeMap.values) := by
  have members : ∀ l, l ∈ trail ↔ l ∈ trail ∨ l ∈ ([] : List Lit) := by simp
  rcases reduces.propagate_eq tidy.proper members (by simp) (by simp) with
    ⟨found, found', done, done', distinct, distinct', members, fit⟩ | ⟨done, done'⟩
  · have nothing : Matches trail { known := trail.toArray } { known := #[] } :=
      ⟨by simp, by simp, by simp, by simp, rfl⟩
    have start := nothing.learn distinct distinct' members fit
    replace done : (ofClauses clauses).propagate trail = pure (some found) := done
    replace done' : (ofClauses reduced).propagate [] = pure (some found') := done'
    simp only [probe, done, done', pure_bind]
    split
    · exact (probeRounds_matches reduces tidy occur (vars.length + 1) start).values_eq
    · exact (probeRound_matches reduces tidy occur start).values_eq
  · replace done : (ofClauses clauses).propagate trail = pure none := done
    replace done' : (ofClauses reduced).propagate [] = pure none := done'
    simp only [probe, done, done', pure_bind]

end Matching

end Propagator

end KnowledgeCompiler
