import KnowledgeCompiler.Proofs.Probing
import KnowledgeCompiler.Proofs.Propagation.Fixpoint

/-! Probing is sound and comes to an end, and in rounds it leaves no failed literal.

All that becomes known in the course of probing is implied by the assumption. A round that finds a literal makes a
variable known, so rounds come to an end. A round that finds none leaves the state as it was, so in the end both
polarities of each probed variable have been tried with all that is known.
-/

namespace KnowledgeCompiler

variable {clauses : Clauses} {assumption : List Lit}

/-- What is implied by implied literals is implied. -/
theorem Entailed.trans {known : List Lit} {l : Lit} (entailed : Entailed clauses known l)
    (each : ∀ k ∈ known, Entailed clauses assumption k)
    : Entailed clauses assumption l :=
  fun σ extends_ model => entailed σ (fun k member => each k member σ extends_ model) model

/-- The values of a table, each under some key. -/
theorem mem_values {κ β : Type} {order : κ → κ → Ordering} [Std.TransCmp order] [Std.LawfulEqCmp order]
    {table : Std.TreeMap κ β order} {b : β}
    : b ∈ table.values ↔ ∃ k : κ, table[k]? = some b := by
  rw [values_eq_map, List.mem_map]
  constructor
  · rintro ⟨⟨k, _⟩, listed, rfl⟩
    exact ⟨k, Std.TreeMap.mem_toList_iff_getElem?_eq_some.mp listed⟩
  · rintro ⟨k, found⟩
    exact ⟨(k, b), Std.TreeMap.mem_toList_iff_getElem?_eq_some.mpr found, rfl⟩

namespace Propagator

-----------------------------------------------------------------------------------------
-- States
-----------------------------------------------------------------------------------------

namespace Probing

/-- Whether a literal of a variable is known. -/
def knows (state : Probing) (v : Var) : Bool := state.known.toList.any fun l => l.var == v

/-- The number of variables without a known literal. -/
def unknown (vars : List Var) (state : Probing) : Nat := vars.countP fun v => !state.knows v

/-- What is known is the assumption and what was forced, and the assumption implies all of it. -/
structure Sound (clauses : Clauses) (assumption : List Lit) (state : Probing) : Prop where
  proper : ∀ l ∈ state.known.toList, l.Proper
  entailed : ∀ l ∈ state.known.toList, Entailed clauses assumption l
  known : ∀ l, l ∈ state.known.toList ↔ l ∈ assumption ∨ state.forced[l.var]? = some l
  forced : ∀ (v : Var) (l : Lit), state.forced[v]? = some l → l.var = v

/-- A variable has a value, or neither polarity of it leads to a conflict with what is known. -/
def Stable (clauses : Clauses) (state : Probing) (v : Var) : Prop :=
  state.knows v = true
  ∨ ∀ l : Lit, l.var = v → ∃ found, (ofClauses clauses).propagate (state.known.toList ++ [l]) = .ok (some found)

/-- One state comes after another when variables have been tried. If it counts as changed, then it was changed before
or one of the variables has become known. Otherwise nothing has happened, and all of them are stable.
-/
structure Advance (clauses : Clauses) (assumption : List Lit) (tried : List Var) (state next : Probing) : Prop where
  sound : Sound clauses assumption next
  kept : ∀ l ∈ state.known.toList, l ∈ next.known.toList
  progress : next.changed = true → state.changed = true ∨ ∃ v ∈ tried, state.knows v = false ∧ next.knows v = true
  idle : next.changed = false → next = state
  stable : next.changed = false → ∀ v ∈ tried, Stable clauses next v

variable {tried later vars : List Var} {state next last : Probing}

theorem knows_iff {v : Var} : state.knows v = true ↔ ∃ l ∈ state.known.toList, l.var = v := by
  rw [knows, List.any_eq_true]
  simp only [beq_iff_eq]

theorem knows_of_subset (kept : ∀ l ∈ state.known.toList, l ∈ next.known.toList) {v : Var}
    (known : state.knows v = true)
    : next.knows v = true := by
  obtain ⟨l, member, same⟩ := knows_iff.mp known
  exact knows_iff.mpr ⟨l, kept l member, same⟩

namespace Advance

theorem refl (sound : Sound clauses assumption state) (stable : ∀ v ∈ tried, Stable clauses state v)
    : Advance clauses assumption tried state state :=
  ⟨sound, fun _ => id, .inl, fun _ => rfl, fun _ => stable⟩

theorem trans (first : Advance clauses assumption tried state next)
    (second : Advance clauses assumption later next last)
    : Advance clauses assumption (tried ++ later) state last where
  sound := second.sound
  kept l member := second.kept l (first.kept l member)
  progress changed := by
    rcases second.progress changed with before | ⟨v, member, unknown, known⟩
    · rcases first.progress before with earlier | ⟨v, member, unknown, known⟩
      · exact .inl earlier
      · exact .inr ⟨v, List.mem_append_left _ member, unknown, knows_of_subset second.kept known⟩
    · refine .inr ⟨v, List.mem_append_right _ member, ?_, known⟩
      by_contra earlier
      rw [knows_of_subset first.kept (by simpa using earlier)] at unknown
      exact Bool.noConfusion unknown
  idle unchanged := by
    have same := second.idle unchanged
    rw [same, first.idle (same ▸ unchanged)]
  stable unchanged := by
    refine List.forall_mem_append.mpr ⟨?_, second.stable unchanged⟩
    have same := second.idle unchanged
    exact same ▸ first.stable (same ▸ unchanged)

/-- A changed state after an unchanged one knows more variables; induction on the variables. -/
theorem unknown_lt (advance : Advance clauses assumption vars state next) (unchanged : state.changed = false)
    (changed : next.changed = true)
    : next.unknown vars < state.unknown vars := by
  obtain ⟨v, member, open_, known⟩ := (advance.progress changed).resolve_left (by simp [unchanged])
  have fewer : ∀ others : List Var, next.unknown others ≤ state.unknown others := by
    intro others
    refine List.countP_mono_left (fun w _ still => ?_)
    by_contra earlier
    rw [knows_of_subset advance.kept (by simpa using earlier)] at still
    exact Bool.noConfusion still
  obtain ⟨before, after, rfl⟩ := List.append_of_mem member
  have left := fewer before
  have right := fewer after
  simp only [unknown, List.countP_append, List.countP_cons, open_, known] at left right ⊢
  simp only [Bool.not_false, Bool.not_true, if_true, Bool.false_eq_true, if_false]
  omega

end Advance

namespace Sound

/-- At first only the assumption is known. -/
theorem start (proper : ∀ l ∈ assumption, l.Proper) : Sound clauses assumption { known := assumption.toArray } where
  proper := proper
  entailed l member σ extends_ _ := extends_ l member
  known := by simp
  forced := by simp

/-- An implied literal over a variable without a value becomes known. -/
theorem push (sound : Sound clauses assumption state) {l : Lit} (proper : l.Proper)
    (entailed : Entailed clauses assumption l) (fresh : ∀ k ∈ state.known.toList, k.var ≠ l.var) (changed : Bool)
    : Sound clauses assumption { known := state.known.push l, forced := state.forced.insert l.var l, changed } where
  proper := by
    rw [Array.toList_push]
    exact List.forall_mem_append.mpr ⟨sound.proper, by simpa using proper⟩
  entailed := by
    rw [Array.toList_push]
    exact List.forall_mem_append.mpr ⟨sound.entailed, by simpa using entailed⟩
  known k := by
    simp only [Array.toList_push, List.mem_append, List.mem_singleton, Std.TreeMap.getElem?_insert, Nat.compare_eq_eq]
    by_cases same : l.var = k.var
    · have unknown : ¬ k ∈ state.known.toList := fun member => fresh k member same.symm
      have beyond : ¬ k ∈ assumption := fun member => unknown ((sound.known k).mpr (.inl member))
      simp [same, unknown, beyond, eq_comm]
    · have differ : k ≠ l := fun equal => same (equal ▸ rfl)
      simp only [same, if_false, sound.known, differ, or_false]
  forced v k found := by
    simp only [Std.TreeMap.getElem?_insert, Nat.compare_eq_eq] at found
    split at found
    · rename_i same
      exact Option.some.inj found ▸ same
    · exact sound.forced v k found

/-- Several implied literals become known; induction on the literals. -/
theorem learn (sound : Sound clauses assumption state) {found : List Lit} (proper : ∀ l ∈ found, l.Proper)
    (entailed : ∀ l ∈ found, Entailed clauses assumption l) (distinct : (found.map Lit.var).Nodup)
    (fresh : ∀ l ∈ found, ∀ k ∈ state.known.toList, k.var ≠ l.var)
    : Sound clauses assumption (state.learn found) := by
  induction found generalizing state with
  | nil => exact sound
  | cons l rest ih =>
      obtain ⟨apart, distinct⟩ := List.nodup_cons.mp distinct
      obtain ⟨first, proper⟩ := List.forall_mem_cons.mp proper
      obtain ⟨here, entailed⟩ := List.forall_mem_cons.mp entailed
      obtain ⟨free, fresh⟩ := List.forall_mem_cons.mp fresh
      refine ih (sound.push first here free state.changed) proper entailed distinct fun k member => ?_
      rw [Array.toList_push]
      refine List.forall_mem_append.mpr ⟨fresh k member, fun other new => ?_⟩
      rw [List.mem_singleton.mp new]
      exact fun same => apart (same ▸ List.mem_map_of_mem member)

end Sound

end Probing

open Probing

-----------------------------------------------------------------------------------------
-- Runs
-----------------------------------------------------------------------------------------

/-- A run ends in a state of which a condition holds, or shows that no model extends the assumption. -/
inductive Outcome (clauses : Clauses) (assumption : List Lit) (post : Probing → Prop)
    : Checked (Option Probing) → Prop where
  | found {state : Probing} (holds : post state) : Outcome clauses assumption post (.ok (some state))
  | conflict (unsatisfiable : ∀ σ, (∀ l ∈ assumption, Lit.TrueIn σ l) → ¬ Clauses.TrueIn σ clauses)
    : Outcome clauses assumption post (.ok none)

theorem Outcome.bind {post post' : Probing → Prop} {run : Checked (Option Probing)}
    {next : Probing → Checked (Option Probing)} (first : Outcome clauses assumption post run)
    (then_ : ∀ state, post state → Outcome clauses assumption post' (next state))
    : Outcome clauses assumption post' (run >>= fun found => match found with
        | none => pure none
        | some state => next state) := by
  cases first with
  | found holds => exact then_ _ holds
  | conflict unsatisfiable => exact .conflict unsatisfiable

theorem Outcome.mono {post post' : Probing → Prop} {run : Checked (Option Probing)}
    (outcome : Outcome clauses assumption post run) (weaken : ∀ state, post state → post' state)
    : Outcome clauses assumption post' run := by
  cases outcome with
  | found holds => exact .found (weaken _ holds)
  | conflict unsatisfiable => exact .conflict unsatisfiable

/-- The literals that a run has forced. -/
theorem Outcome.forced {post : Probing → Prop} {run : Checked (Option Probing)}
    (outcome : Outcome clauses assumption post run)
    : (∃ last, (run >>= fun final => pure (final.map Probing.forced)) = .ok (some last.forced) ∧ post last)
      ∨ (run >>= fun final => pure (final.map Probing.forced)) = .ok none
        ∧ ∀ σ, (∀ l ∈ assumption, Lit.TrueIn σ l) → ¬ Clauses.TrueIn σ clauses := by
  cases outcome with
  | found holds => exact .inl ⟨_, rfl, holds⟩
  | conflict unsatisfiable => exact .inr ⟨rfl, unsatisfiable⟩

variable {vars : List Var} {state : Probing}

section Runs

variable (proper : clauses.Proper)

include proper

/-- Propagation finds implied literals over distinct variables without a value, or no model extends the literals. -/
theorem propagate_closes {literals : List Lit} (properLiterals : ∀ l ∈ literals, l.Proper)
    : (∃ found, (ofClauses clauses).propagate literals = .ok (some found)
        ∧ Closure clauses literals found
        ∧ ∀ l ∈ found, l.Proper)
      ∨ (ofClauses clauses).propagate literals = .ok none
        ∧ ∀ σ, (∀ l ∈ literals, Lit.TrueIn σ l) → ¬ Clauses.TrueIn σ clauses := by
  rcases propagate_spec proper properLiterals with ⟨found, done, unrefuted, distinct, meaning⟩ | ⟨done, refuted⟩
  · refine .inl ⟨found, done, .of_derived proper.nonzero unrefuted distinct meaning, fun l member => ?_⟩
    exact ((meaning l).mp member).1.proper proper properLiterals
  · refine .inr ⟨done, fun σ => refuted.not_trueIn proper.nonzero fun l member => (properLiterals l member).1⟩

/-- Of fewer literals, propagation succeeds as well. -/
theorem propagate_of_subset {literals others : List Lit} (properLiterals : ∀ l ∈ literals, l.Proper)
    (subset : others ⊆ literals)
    (done : ∃ found, (ofClauses clauses).propagate literals = .ok (some found))
    : ∃ found, (ofClauses clauses).propagate others = .ok (some found) := by
  obtain ⟨found, done⟩ := done
  rcases propagate_spec proper fun l member => properLiterals l (subset member) with
    ⟨found', done', _⟩ | ⟨-, refuted⟩
  · exact ⟨found', done'⟩
  · rcases propagate_spec proper properLiterals with ⟨_, _, unrefuted, _⟩ | ⟨failed, -⟩
    · exact absurd (refuted.mono subset) unrefuted
    · exact absurd (done.symm.trans failed) (by simp)

/-- Learning what follows from what is known. -/
theorem learn_outcome (sound : Sound clauses assumption state)
    : (∃ found, (ofClauses clauses).propagate state.known.toList = .ok (some found)
        ∧ Sound clauses assumption (state.learn found))
      ∨ (ofClauses clauses).propagate state.known.toList = .ok none
        ∧ ∀ σ, (∀ l ∈ assumption, Lit.TrueIn σ l) → ¬ Clauses.TrueIn σ clauses := by
  rcases propagate_closes proper sound.proper with ⟨found, done, closed, properFound⟩ | ⟨done, unsatisfiable⟩
  · refine .inl ⟨found, done, sound.learn properFound ?_ closed.distinct fun l member k known => ?_⟩
    · exact fun l member => (closed.entailed l member).trans sound.entailed
    · exact (closed.fresh l member k known).symm
  · refine .inr ⟨done, fun σ extends_ model => unsatisfiable σ (fun l member => ?_) model⟩
    exact sound.entailed l member σ extends_ model

theorem force_outcome (sound : Sound clauses assumption state) {l : Lit} (properLiteral : l.Proper)
    (entailed : Entailed clauses assumption l) (open_ : state.knows l.var = false)
    : Outcome clauses assumption (Advance clauses assumption [l.var] state)
        ((ofClauses clauses).force state l.var l) := by
  have fresh : ∀ k ∈ state.known.toList, k.var ≠ l.var := by
    intro k member same
    rw [knows_iff.mpr ⟨k, member, same⟩] at open_
    exact Bool.noConfusion open_
  have pushed := sound.push properLiteral entailed fresh true
  unfold force
  rcases learn_outcome proper pushed with ⟨found, done, learned⟩ | ⟨done, unsatisfiable⟩
  · simp only [done]
    have changed : ¬ (Probing.learn ⟨state.known.push l, state.forced.insert l.var l, true⟩ found).changed = false := by
      simp [changed_learn]
    refine .found ⟨learned, fun k known => by simp [known_learn, known], fun _ => .inr ⟨l.var, by simp, open_, ?_⟩,
      fun unchanged => absurd unchanged changed, fun unchanged => absurd unchanged changed⟩
    exact knows_iff.mpr ⟨l, by simp [known_learn], rfl⟩
  · simp only [done]
    exact .conflict unsatisfiable

theorem probeVariable_outcome (sound : Sound clauses assumption state) {v : Var} (positive : 0 < v)
    (small : v < 2147483648)
    : Outcome clauses assumption (Advance clauses assumption [v] state)
        ((ofClauses clauses).probeVariable state v) := by
  have properLiteral : Lit.Proper (v : Int) := ⟨by grind, by simpa [Lit.var] using small⟩
  have settled : (state.known.any fun l => l.var == v) = state.knows v := by
    rw [knows, Array.any_toList]
  unfold probeVariable
  rw [settled, Lit.word_eq_self small]
  split
  · rename_i known
    exact .found (.refl sound (by simp [Stable, known]))
  rename_i unknown
  have open_ : state.knows v = false := by simpa using unknown
  simp only [properLiteral.negate]
  -- A failed literal is false in every model, since what is known is true there.
  have attempt : ∀ l : Lit, l.Proper
      → (∃ found, (ofClauses clauses).propagate (state.known.push l).toList = .ok (some found))
        ∨ (ofClauses clauses).propagate (state.known.push l).toList = .ok none ∧ Entailed clauses assumption (-l) := by
    intro l proper'
    have assumed : ∀ k ∈ (state.known.push l).toList, k.Proper := by
      rw [Array.toList_push]
      exact List.forall_mem_append.mpr ⟨sound.proper, by simpa using proper'⟩
    rcases propagate_closes proper assumed with ⟨found, done, -, -⟩ | ⟨done, unsatisfiable⟩
    · exact .inl ⟨found, done⟩
    · refine .inr ⟨done, fun σ extends_ model => (Lit.trueIn_neg proper'.1).mpr fun holds => unsatisfiable σ ?_ model⟩
      rw [Array.toList_push]
      exact List.forall_mem_append.mpr
        ⟨fun k member => sound.entailed k member σ extends_ model, by simpa using holds⟩
  rcases attempt _ properLiteral with ⟨found, high⟩ | ⟨high, below⟩ <;>
    rcases attempt _ properLiteral.neg with ⟨found', low⟩ | ⟨low, above⟩ <;>
    simp only [high, low, bind, Except.bind]
  · refine .found (.refl sound fun w member => .inr fun l same => ?_)
    obtain rfl := List.mem_singleton.mp member
    simp only [Array.toList_push] at high low
    rcases @Lit.eq_or_eq_neg l w same with rfl | rfl
    · exact ⟨found, high⟩
    · exact ⟨found', low⟩
  · rw [Int.neg_neg] at above
    exact force_outcome proper sound properLiteral above open_
  · have forced := @force_outcome _ _ _ proper sound _ properLiteral.neg below
    rw [Lit.var_neg] at forced
    exact forced open_
  · refine .conflict fun σ extends_ model => ?_
    exact (Lit.trueIn_neg properLiteral.neg.1).mp (above σ extends_ model) (below σ extends_ model)

theorem probeRound_outcome (sound : Sound clauses assumption state) (range : ∀ v ∈ vars, 0 < v ∧ v < 2147483648)
    : Outcome clauses assumption (Advance clauses assumption vars state)
        ((ofClauses clauses).probeRound vars state) := by
  induction vars generalizing state with
  | nil => exact .found (.refl sound (by simp))
  | cons v rest ih =>
      obtain ⟨⟨positive, small⟩, range⟩ := List.forall_mem_cons.mp range
      refine (probeVariable_outcome proper sound positive small).bind fun next advance => ?_
      exact (ih advance.sound range).mono fun last => advance.trans

/-- What probing leads to: all that was known is still known, and after rounds the variables are stable. -/
structure Reaches (clauses : Clauses) (assumption : List Lit) (vars : List Var) (iterate : Bool) (state last : Probing)
    : Prop where
  sound : Sound clauses assumption last
  kept : ∀ l ∈ state.known.toList, l ∈ last.known.toList
  stable : iterate = true → ∀ v ∈ vars, Stable clauses last v

/-- Rounds come to an end, since every round but the last makes a variable known; induction on the fuel. -/
theorem probeRounds_outcome (sound : Sound clauses assumption state) (range : ∀ v ∈ vars, 0 < v ∧ v < 2147483648)
    {fuel : Nat} (enough : state.unknown vars < fuel)
    : Outcome clauses assumption (Reaches clauses assumption vars true state)
        ((ofClauses clauses).probeRounds vars fuel state) := by
  induction fuel generalizing state with
  | zero => omega
  | succ fuel ih =>
      have fresh : Sound clauses assumption { state with changed := false } :=
        ⟨sound.proper, sound.entailed, sound.known, sound.forced⟩
      refine (probeRound_outcome proper fresh range).bind fun next advance => ?_
      split
      · rename_i changed
        have fewer : next.unknown vars < state.unknown vars := advance.unknown_lt rfl changed
        refine (ih advance.sound (by omega)).mono fun last reaches => ?_
        exact ⟨reaches.sound, fun l member => reaches.kept l (advance.kept l member), reaches.stable⟩
      · rename_i unchanged
        exact .found ⟨advance.sound, advance.kept, fun _ => advance.stable (by simpa using unchanged)⟩

/-- Probing ends in a state that goes on from the closure of the assumption, or there is no model to extend the
assumption.
-/
theorem probe_reaches (properAssumption : ∀ l ∈ assumption, l.Proper) (range : ∀ v ∈ vars, 0 < v ∧ v < 2147483648)
    (iterate : Bool)
    : (∃ (implied : List Lit) (last : Probing),
        (ofClauses clauses).propagate assumption = .ok (some implied)
        ∧ Closure clauses assumption implied
        ∧ (ofClauses clauses).probe assumption vars iterate = .ok (some last.forced)
        ∧ Reaches clauses assumption vars iterate (Probing.learn { known := assumption.toArray } implied) last)
      ∨ (ofClauses clauses).probe assumption vars iterate = .ok none
        ∧ ∀ σ, (∀ l ∈ assumption, Lit.TrueIn σ l) → ¬ Clauses.TrueIn σ clauses := by
  rcases propagate_closes proper properAssumption with ⟨implied, done, closed, properImplied⟩ | ⟨done, unsatisfiable⟩
  · let start : Probing := Probing.learn { known := assumption.toArray } implied
    have sound : Sound clauses assumption start := by
      refine (Sound.start properAssumption).learn properImplied closed.entailed closed.distinct ?_
      exact fun l member k known => (closed.fresh l member k known).symm
    have outcome : Outcome clauses assumption (Reaches clauses assumption vars iterate start)
        (if iterate then (ofClauses clauses).probeRounds vars (vars.length + 1) start
          else (ofClauses clauses).probeRound vars start) := by
      cases iterate with
      | true => exact probeRounds_outcome proper sound range (Nat.lt_succ_of_le List.countP_le_length)
      | false =>
          refine (probeRound_outcome proper sound range).mono fun last advance => ?_
          exact ⟨advance.sound, advance.kept, by simp⟩
    have whole : (ofClauses clauses).probe assumption vars iterate
        = (if iterate then (ofClauses clauses).probeRounds vars (vars.length + 1) start
            else (ofClauses clauses).probeRound vars start) >>= fun final => pure (final.map Probing.forced) := by
      replace done : (ofClauses clauses).propagate assumption = pure (some implied) := done
      simp only [probe, done, pure_bind]
      split <;> rfl
    rw [whole]
    rcases outcome.forced with ⟨last, ends, reaches⟩ | conflict
    · exact .inl ⟨implied, last, done, closed, ends, reaches⟩
    · exact .inr conflict
  · replace done : (ofClauses clauses).propagate assumption = pure none := done
    refine .inr ⟨?_, unsatisfiable⟩
    simp only [probe, done, pure_bind]
    rfl

/-- What probing finds: implied literals under their variables, which hold all that unit propagation finds. After
rounds, no polarity of a probed variable without a value leads to a conflict with the assumption and what was found.
-/
structure Probed (clauses : Clauses) (assumption : List Lit) (vars : List Var) (iterate : Bool)
    (forced : Std.TreeMap Var Lit) : Prop where
  entailed : ∀ (v : Var) (l : Lit), forced[v]? = some l → l.var = v ∧ Entailed clauses assumption l
  closed : ∃ implied, (ofClauses clauses).propagate assumption = .ok (some implied)
    ∧ ∀ l ∈ implied, forced[l.var]? = some l
  unfailed : iterate = true → ∀ v ∈ vars, (∀ l ∈ assumption, l.var ≠ v) → forced[v]? = none → ∀ l : Lit, l.var = v →
    ∃ found, (ofClauses clauses).propagate (assumption ++ forced.values ++ [l]) = .ok (some found)

theorem Reaches.probed {last : Probing} {implied : List Lit} {iterate : Bool}
    (reaches : Reaches clauses assumption vars iterate (Probing.learn { known := assumption.toArray } implied) last)
    (range : ∀ v ∈ vars, 0 < v ∧ v < 2147483648) (closed : Closure clauses assumption implied)
    (done : (ofClauses clauses).propagate assumption = .ok (some implied))
    : Probed clauses assumption vars iterate last.forced := by
  obtain ⟨sound, kept, stable⟩ := reaches
  refine ⟨fun v l found => ?_, ⟨implied, done, fun l member => ?_⟩, fun rounds v member unassigned free l same => ?_⟩
  · obtain rfl := sound.forced v l found
    exact ⟨rfl, sound.entailed l ((sound.known l).mpr (.inr found))⟩
  · have known := (sound.known l).mp (kept l (by simp [known_learn, member]))
    exact known.resolve_left fun assumed => closed.fresh l member l assumed rfl
  · subst same
    have open_ : ¬ last.knows l.var = true := by
      intro known
      obtain ⟨k, present, same⟩ := knows_iff.mp known
      rcases (sound.known k).mp present with assumed | forced
      · exact unassigned k assumed same
      · rw [same, free] at forced
        exact absurd forced (by simp)
    have properLiterals : ∀ k ∈ last.known.toList ++ [l], k.Proper := by
      obtain ⟨positive, small⟩ := range l.var member
      refine List.forall_mem_append.mpr ⟨sound.proper, List.forall_mem_singleton.mpr ⟨fun zero => ?_, small⟩⟩
      simp [zero, Lit.var] at positive
    refine propagate_of_subset proper properLiterals ?_ ((stable rounds l.var member).resolve_left open_ l rfl)
    refine List.append_subset.mpr ⟨List.append_subset.mpr ⟨fun k assumed => ?_, fun k found => ?_⟩, by simp⟩
    · exact List.mem_append_left _ ((sound.known k).mpr (.inl assumed))
    · obtain ⟨v, forced⟩ := mem_values.mp found
      obtain rfl := sound.forced v k forced
      exact List.mem_append_left _ ((sound.known k).mpr (.inr forced))

end Runs

/-- Without an assumption, probing tidy clauses for variables that occur finds literals over distinct variables that are
true in every model. It finds none only if there is no model.
-/
theorem probe_outcome (tidy : clauses.Tidy) (occur : ∀ v ∈ vars, v ∈ clauses.vars) (iterate : Bool)
    : ∃ found, (ofClauses clauses).probe [] vars iterate = .ok found
      ∧ (found = none → ∀ σ, ¬ Clauses.TrueIn σ clauses)
      ∧ ∀ forced, found = some forced
        → (forced.values.map Lit.var).Nodup
          ∧ ∀ l ∈ forced.values, ∀ σ, Clauses.TrueIn σ clauses → Lit.TrueIn σ l := by
  have range : ∀ v ∈ vars, 0 < v ∧ v < 2147483648 := fun v member => tidy.vars_bound (occur v member)
  have noAssumption : ∀ l ∈ ([] : List Lit), l.Proper := by simp
  rcases probe_reaches tidy.proper noAssumption range iterate with
    ⟨_, last, _, _, ends, reaches⟩ | ⟨ends, unsatisfiable⟩
  · refine ⟨some last.forced, ends, by simp, fun forced same => ?_⟩
    obtain rfl := Option.some.inj same
    have sound := reaches.sound
    refine ⟨?_, fun l found σ => ?_⟩
    · have keys : last.forced.values.map Lit.var = last.forced.keys := by
        rw [values_eq_map, List.map_map, ← Std.TreeMap.map_fst_toList_eq_keys]
        refine List.map_congr_left fun entry listed => ?_
        exact sound.forced entry.1 entry.2 (Std.TreeMap.mem_toList_iff_getElem?_eq_some.mp listed)
      rw [keys]
      exact Std.TreeMap.nodup_keys
    · obtain ⟨v, forced⟩ := mem_values.mp found
      obtain rfl := sound.forced v l forced
      exact sound.entailed l ((sound.known l).mpr (.inr forced)) σ (by simp)
  · exact ⟨none, ends, fun _ σ => unsatisfiable σ (by simp), by simp⟩

/-- Probing comes to an end. Without a result, no model extends the assumption. With one, it has found implied
literals, among them all that unit propagation finds; and after rounds no polarity of a probed variable without a
value leads to a conflict any more.
-/
theorem probing_saturates (proper : clauses.Proper) (properAssumption : ∀ l ∈ assumption, l.Proper)
    (range : ∀ v ∈ vars, 0 < v ∧ v < 2147483648) (iterate : Bool)
    : ∃ outcome, (ofClauses clauses).probe assumption vars iterate = .ok outcome
      ∧ (outcome = none → ∀ σ, (∀ l ∈ assumption, Lit.TrueIn σ l) → ¬ Clauses.TrueIn σ clauses)
      ∧ ∀ forced, outcome = some forced → Probed clauses assumption vars iterate forced := by
  rcases probe_reaches proper properAssumption range iterate with
    ⟨implied, last, done, closed, ends, reaches⟩ | ⟨ends, unsatisfiable⟩
  · refine ⟨some last.forced, ends, by simp, fun forced same => ?_⟩
    exact Option.some.inj same ▸ reaches.probed proper range closed done
  · exact ⟨none, ends, fun _ => unsatisfiable, by simp⟩

/-- The first round finds no failed literal of variable `3`, but it makes variable `1` true, after which the second
round finds one. Variable `5` stays open.
-/
theorem probing_saturates_second_round
    : let clauses : Clauses := [[1, 2], [1, -2], [-1, 3, 4], [-1, 3, -4], [5, 6], [7, -8, 9]]
      ∃ forced, (ofClauses clauses).probe [8, -9] [3, 1, 5] true = .ok (some forced)
        ∧ Probed clauses [8, -9] [3, 1, 5] true forced
        ∧ forced.values = [1, 3, 7] := by
  intro clauses
  have proper : ∀ clause ∈ clauses, ∀ l ∈ clause, Lit.Proper l := by decide
  obtain ⟨outcome, ends, -, probed⟩ :=
    @probing_saturates clauses [8, -9] [3, 1, 5] proper (by decide) (by decide) true
  have values : ((ofClauses clauses).probe [8, -9] [3, 1, 5] true).map (Option.map Std.TreeMap.values)
      = .ok (some [1, 3, 7]) := by
    decide +kernel
  rw [ends] at values
  obtain ⟨forced, rfl, listed⟩ := Option.map_eq_some_iff.mp (Except.ok.inj values)
  exact ⟨forced, ends, probed forced rfl, listed⟩

end Propagator

end KnowledgeCompiler
