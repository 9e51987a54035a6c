import Mathlib.Logic.Relation
import KnowledgeCompiler.Proofs.Marking
import KnowledgeCompiler.Proofs.Occurrences

/-! Connected components of clauses.

A search claims a position together with all positions that share a variable with it, so the claimed
positions are closed under sharing variables whenever a component is complete. Components are what is
claimed between two such moments, and so they have no variable in common. All that a component claims is
chained to its first position by shared variables.
-/

namespace KnowledgeCompiler.Clauses

variable {clauses : Clauses} {old kin : Nat → Prop} {done : List Nat} {state : Exploration}

/-- A variable occurs at a position. -/
def OccursAt (clauses : Clauses) (v : Var) (position : Nat) : Prop :=
  ∃ clause, clauses[position]? = some clause ∧ ∃ l ∈ clause, l.var = v

theorem OccursAt.lt {v : Var} {position : Nat} (occurs : clauses.OccursAt v position)
    : position < clauses.length := by
  obtain ⟨clause, found, _⟩ := occurs
  exact (List.getElem?_eq_some_iff.mp found).1

/-- Two positions with a common variable. -/
def Related (clauses : Clauses) (p q : Nat) : Prop :=
  ∃ v, clauses.OccursAt v p ∧ clauses.OccursAt v q

instance : Std.Symm clauses.Related := ⟨fun _ _ ⟨v, here, there⟩ => ⟨v, there, here⟩⟩

/-- Positions that a chain of positions with common variables leads to. -/
abbrev Chained (clauses : Clauses) : Nat → Nat → Prop := Relation.ReflTransGen clauses.Related

/-- A chain of clauses links two variables: the first clause has the one and the last clause the other, and
consecutive clauses have a common variable.
-/
def Linked (clauses : Clauses) (v w : Var) : Prop :=
  ∃ p q, clauses.OccursAt v p ∧ clauses.OccursAt w q ∧ clauses.Chained p q

section Linked

variable {u v w : Var}

theorem mem_vars_iff : v ∈ clauses.vars ↔ ∃ p, clauses.OccursAt v p := by
  rw [mem_vars]
  constructor
  · rintro ⟨clause, inside, l, member, same⟩
    obtain ⟨p, found⟩ := List.getElem?_of_mem inside
    exact ⟨p, clause, found, l, member, same⟩
  · rintro ⟨p, clause, found, l, member, same⟩
    exact ⟨clause, List.mem_of_getElem? found, l, member, same⟩

/-- The variables of one clause are linked. -/
theorem Linked.within {p : Nat} (left : clauses.OccursAt v p) (right : clauses.OccursAt w p)
    : clauses.Linked v w :=
  ⟨p, p, left, right, .refl⟩

theorem Linked.refl (occurs : v ∈ clauses.vars) : clauses.Linked v v := by
  obtain ⟨p, here⟩ := mem_vars_iff.mp occurs
  exact .within here here

theorem Linked.symm (linked : clauses.Linked v w) : clauses.Linked w v := by
  obtain ⟨p, q, left, right, chain⟩ := linked
  exact ⟨q, p, right, left, Std.Symm.symm _ _ chain⟩

theorem Linked.trans (first : clauses.Linked u v) (second : clauses.Linked v w)
    : clauses.Linked u w := by
  obtain ⟨p, q, left, middle, chain⟩ := first
  obtain ⟨p', q', middle', right, chain'⟩ := second
  exact ⟨p, q', left, right, (chain.tail ⟨v, middle, middle'⟩).trans chain'⟩

theorem Linked.left (linked : clauses.Linked v w) : v ∈ clauses.vars := by
  obtain ⟨p, -, here, -⟩ := linked
  exact mem_vars_iff.mpr ⟨p, here⟩

theorem Linked.right (linked : clauses.Linked v w) : w ∈ clauses.vars :=
  linked.symm.left

/-- Being linked is an equivalence, where each variable is linked with itself. -/
theorem linked_equivalence (clauses : Clauses) : Equivalence fun v w => v = w ∨ clauses.Linked v w where
  refl _ := .inl rfl
  symm := by
    rintro v w (rfl | linked)
    · exact .inl rfl
    · exact .inr linked.symm
  trans := by
    rintro u v w (rfl | first) (rfl | second)
    · exact .inl rfl
    · exact .inr second
    · exact .inr first
    · exact .inr (first.trans second)

/-- What is the same for the variables of each clause is the same for linked variables; induction on the chain. -/
theorem Linked.map_eq {α : Type} {f : Var → α}
    (within : ∀ {p v w}, clauses.OccursAt v p → clauses.OccursAt w p → f v = f w) (linked : clauses.Linked v w)
    : f v = f w := by
  obtain ⟨p, q, first, last, chain⟩ := linked
  induction chain generalizing w with
  | refl => exact within first last
  | tail _ related ih =>
      obtain ⟨u, here, there⟩ := related
      exact (ih here).trans (within there last)

end Linked

/-- The marks and the stack of a search. -/
def Exploration.marks (state : Exploration) : Array Bool × List Nat := (state.claimed, state.pending)

/-- Claiming positions is marking them. -/
theorem marks_foldl_claim (positions : List Nat) (state : Exploration)
    : (positions.foldl Exploration.claim state).marks = positions.foldl markOnto state.marks
      ∧ (positions.foldl Exploration.claim state).unreached = state.unreached
      ∧ (positions.foldl Exploration.claim state).members = state.members := by
  induction positions generalizing state with
  | nil => exact ⟨rfl, rfl, rfl⟩
  | cons position rest ih =>
      obtain ⟨marks, unreached, members⟩ := ih (state.claim position)
      have step : (state.claim position).marks = markOnto state.marks position
          ∧ (state.claim position).unreached = state.unreached
          ∧ (state.claim position).members = state.members := by
        unfold Exploration.claim markOnto Exploration.marks
        split <;> exact ⟨rfl, rfl, rfl⟩
      simp only [List.foldl_cons, marks, unreached, members, step, and_self]

-----------------------------------------------------------------------------------------
-- One component
-----------------------------------------------------------------------------------------

/-- The table of the variables that are not reached yet lists where they occur, and what has a reached variable is
claimed.
-/
structure Exploration.Indexed (clauses : Clauses) (state : Exploration) : Prop where
  size : state.claimed.size = clauses.length
  reached
    : ∀ {v p}, state.unreached[v]? = none → clauses.OccursAt v p → Marked state.claimed p
  unreached
    : ∀ {v positions p}, state.unreached[v]? = some positions → (p ∈ positions ↔ clauses.OccursAt v p)

/-- What has been reached or claimed stays so. -/
structure Exploration.Grows (before after : Exploration) : Prop where
  reached : ∀ {v : Var}, before.unreached[v]? = none → after.unreached[v]? = none
  claimed : ∀ {p : Nat}, Marked before.claimed p → Marked after.claimed p

theorem Exploration.Grows.trans {a b c : Exploration} (first : a.Grows b) (second : b.Grows c)
    : a.Grows c :=
  ⟨second.reached ∘ first.reached, second.claimed ∘ first.claimed⟩

/-- Claiming a position reaches no variable. -/
theorem Exploration.Indexed.claim (indexed : state.Indexed clauses) (position : Nat)
    : MarksOnto [position] state.marks (state.claim position).marks
      ∧ (state.claim position).Indexed clauses
      ∧ state.Grows (state.claim position) := by
  obtain ⟨marks, unreached, -⟩ := marks_foldl_claim [position] state
  simp only [List.foldl_cons, List.foldl_nil] at marks unreached
  have onto : MarksOnto [position] state.marks (state.claim position).marks := by
    rw [marks]
    exact marksOnto_markOnto state.marks position
  have kept {p : Nat} (before : Marked state.claimed p) : Marked (state.claim position).claimed p :=
    onto.marked.mpr (.inl before)
  refine ⟨onto, ⟨onto.size.trans indexed.size, ?_, ?_⟩, ⟨fun absent => unreached ▸ absent, kept⟩⟩
  · rw [unreached]
    exact fun absent occurs => kept (indexed.reached absent occurs)
  · rw [unreached]
    exact indexed.unreached

/-- Reaching a variable claims positions where it occurs. -/
theorem Exploration.Indexed.reach (indexed : state.Indexed clauses) (v : Var)
    : ∃ positions, (∀ p ∈ positions, clauses.OccursAt v p)
      ∧ MarksOnto positions state.marks (state.reach v).marks
      ∧ (state.reach v).Indexed clauses
      ∧ (state.reach v).unreached[v]? = none
      ∧ state.Grows (state.reach v)
      ∧ (state.reach v).members = state.members := by
  unfold Exploration.reach
  cases found : state.unreached[v]? with
  | none => exact ⟨[], by simp, .refl _, indexed, found, ⟨id, id⟩, rfl⟩
  | some positions =>
      dsimp only
      obtain ⟨marks, unreached, members⟩ :=
        marks_foldl_claim positions { state with unreached := state.unreached.erase v }
      have onto : MarksOnto positions state.marks
          (positions.foldl Exploration.claim { state with unreached := state.unreached.erase v }).marks := by
        rw [marks]
        exact marksOnto_foldl positions state.marks
      generalize positions.foldl Exploration.claim { state with unreached := state.unreached.erase v }
        = after at unreached members onto ⊢
      have look (u : Var)
          : after.unreached[u]? = if u = v then none else state.unreached[u]? := by
        rw [unreached]
        simp only [Std.TreeMap.getElem?_erase, Nat.compare_eq_eq, eq_comm (a := v)]
      have claims {p : Nat} (member : p ∈ positions) : Marked after.claimed p := by
        refine onto.marked.mpr (.inr ⟨member, ?_⟩)
        show p < state.claimed.size
        rw [indexed.size]
        exact ((indexed.unreached found).mp member).lt
      refine ⟨positions, fun p => (indexed.unreached found).mp, onto, ⟨?_, ?_, ?_⟩, ?_, ⟨?_, ?_⟩, members⟩
      · exact onto.size.trans indexed.size
      · intro u p absent occurs
        rw [look] at absent
        split at absent
        · rename_i same
          exact claims ((indexed.unreached found).mpr (same ▸ occurs))
        · exact onto.marked.mpr (.inl (indexed.reached absent occurs))
      · intro u others p present
        rw [look] at present
        split at present
        · cases present
        · exact indexed.unreached present
      · rw [look, if_pos rfl]
      · intro u absent
        rw [look]
        split
        · rfl
        · exact absent
      · exact fun before => onto.marked.mpr (.inl before)

/-- A search for one component, from positions that were claimed before to those that have been
visited since and those that wait, which are of one kin.
-/
structure Exploring (clauses : Clauses) (old kin : Nat → Prop) (done : List Nat) (state : Exploration)
    : Prop extends state.Indexed clauses where
  claimed : ∀ {p}, Marked state.claimed p ↔ old p ∨ p ∈ done ∨ p ∈ state.pending
  fresh : ∀ {p}, p ∈ done ∨ p ∈ state.pending → ¬ old p
  kin : ∀ {p}, p ∈ done ∨ p ∈ state.pending → kin p
  members : state.members = done.map fun p => clauses.toArray.getD p []

/-- Reaching a variable of the kin adds its positions to what waits. -/
theorem Exploring.reach (exploring : Exploring clauses old kin done state) (v : Var)
    (of_kin : ∀ {p}, clauses.OccursAt v p → kin p)
    : Exploring clauses old kin done (state.reach v)
      ∧ (state.reach v).unreached[v]? = none
      ∧ state.Grows (state.reach v)
      ∧ ahead (state.reach v).marks = ahead state.marks := by
  obtain ⟨positions, occurs, onto, indexed, here, grown, members⟩ := exploring.toIndexed.reach v
  have waiting {p : Nat} : p ∈ (state.reach v).pending
      ↔ p ∈ state.pending ∨ p ∈ positions ∧ p < state.claimed.size ∧ ¬ Marked state.claimed p :=
    onto.waiting
  refine ⟨⟨indexed, ?_, ?_, ?_, members.trans exploring.members⟩, here, grown, onto.ahead⟩
  · intro p
    have marked : Marked (state.reach v).claimed p
        ↔ Marked state.claimed p ∨ p ∈ positions ∧ p < state.claimed.size := onto.marked
    rw [marked, waiting, exploring.claimed]
    tauto
  · rintro p (visited | waits)
    · exact exploring.fresh (.inl visited)
    · rcases waiting.mp waits with earlier | ⟨-, -, unmarked⟩
      · exact exploring.fresh (.inr earlier)
      · exact fun known => unmarked (exploring.claimed.mpr (.inl known))
  · rintro p (visited | waits)
    · exact exploring.kin (.inl visited)
    · rcases waiting.mp waits with earlier | ⟨member, -, -⟩
      · exact exploring.kin (.inr earlier)
      · exact of_kin (occurs p member)

/-- Reaching the variables of a clause in turn; induction on the literals. -/
theorem Exploring.reachAll (exploring : Exploring clauses old kin done state) (clause : Clause)
    (of_kin : ∀ l ∈ clause, ∀ {p}, clauses.OccursAt l.var p → kin p)
    : Exploring clauses old kin done (clause.foldl (fun state l => state.reach l.var) state)
      ∧ (∀ l ∈ clause,
          (clause.foldl (fun state l => state.reach l.var) state).unreached[l.var]? = none)
      ∧ state.Grows (clause.foldl (fun state l => state.reach l.var) state)
      ∧ ahead (clause.foldl (fun state l => state.reach l.var) state).marks = ahead state.marks := by
  induction clause generalizing state with
  | nil => exact ⟨exploring, by simp, ⟨id, id⟩, rfl⟩
  | cons l rest ih =>
      obtain ⟨first, later⟩ := List.forall_mem_cons.mp of_kin
      obtain ⟨next, here, grown, measure⟩ := exploring.reach l.var first
      obtain ⟨last, others, grown', measure'⟩ := ih next later
      refine ⟨last, List.forall_mem_cons.mpr ⟨grown'.reached here, others⟩, grown.trans grown', ?_⟩
      exact measure'.trans measure

/-- A search whose visited clauses have no unreached variable. -/
structure Explored (clauses : Clauses) (old kin : Nat → Prop) (done : List Nat) (state : Exploration)
    : Prop extends Exploring clauses old kin done state where
  visited : ∀ p ∈ done, ∀ {v}, clauses.OccursAt v p → state.unreached[v]? = none

/-- Visiting the next position. -/
theorem Explored.visit {position : Nat} {pending : List Nat}
    (explored : Explored clauses old kin done state) (next : state.pending = position :: pending)
    (of_kin : ∀ {p q}, kin p → clauses.Related p q → kin q)
    : let clause := clauses.toArray.getD position []
      let after := clause.foldl (fun state l => state.reach l.var)
        { state with pending, members := clause :: state.members }
      Explored clauses old kin (position :: done) after ∧ state.Grows after
        ∧ ahead after.marks + 1 = ahead state.marks := by
  intro clause after
  have moved : ∀ {p}, p ∈ position :: done ∨ p ∈ pending → p ∈ done ∨ p ∈ state.pending := by
    intro p either
    rw [next, List.mem_cons]
    rw [List.mem_cons] at either
    tauto
  have begun : Exploring clauses old kin (position :: done)
      { state with pending, members := clause :: state.members } := by
    refine ⟨⟨explored.size, explored.reached, explored.unreached⟩, ?_,
      fun either => explored.fresh (moved either), fun either => explored.kin (moved either), ?_⟩
    · intro p
      rw [explored.claimed, next, List.mem_cons, List.mem_cons]
      tauto
    · rw [List.map_cons]
      exact congrArg _ explored.members
  have here : ∀ l ∈ clause, clauses.OccursAt l.var position := by
    intro l member
    cases found : clauses[position]? with
    | none => simp [clause, found] at member
    | some source =>
        have same : clause = source := by simp [clause, found]
        exact ⟨source, found, l, same ▸ member, rfl⟩
  have waited : kin position := explored.kin (.inr (next ▸ List.mem_cons_self))
  obtain ⟨exploring, reached, grown, measure⟩ := begun.reachAll clause
    fun l member p occurs => of_kin waited ⟨l.var, here l member, occurs⟩
  refine ⟨⟨exploring, ?_⟩, ⟨grown.reached, grown.claimed⟩, ?_⟩
  · refine List.forall_mem_cons.mpr ⟨fun {v} occurs => ?_, fun p member v occurs => ?_⟩
    · obtain ⟨source, found, l, inside, rfl⟩ := occurs
      have same : clause = source := by simp [clause, found]
      exact reached l (same ▸ inside)
    · exact grown.reached (explored.visited p member occurs)
  · rw [measure]
    simp only [ahead, Exploration.marks, next, List.length_cons]
    omega

/-- The search goes on until nothing waits; induction on the fuel, of which each visit takes as much as it
brings the search forward.
-/
theorem Explored.explore (explored : Explored clauses old kin done state)
    (of_kin : ∀ {p q}, kin p → clauses.Related p q → kin q) (fuel : Nat)
    (enough : ahead state.marks ≤ fuel)
    : ∃ all, Explored clauses old kin all (Clauses.explore clauses.toArray fuel state)
      ∧ (Clauses.explore clauses.toArray fuel state).pending = []
      ∧ state.Grows (Clauses.explore clauses.toArray fuel state)
      ∧ all.length + ahead (Clauses.explore clauses.toArray fuel state).marks
        = done.length + ahead state.marks := by
  induction fuel generalizing done state with
  | zero =>
      have empty : state.pending = [] := by
        simp only [ahead, Exploration.marks] at enough
        exact List.length_eq_zero_iff.mp (by omega)
      exact ⟨done, explored, empty, ⟨id, id⟩, rfl⟩
  | succ fuel ih =>
      rw [Clauses.explore]
      cases next : state.pending with
      | nil => exact ⟨done, explored, next, ⟨id, id⟩, rfl⟩
      | cons position pending =>
          obtain ⟨after, grown, measure⟩ := explored.visit next of_kin
          obtain ⟨all, ended, empty, grown', count⟩ := ih after (by omega)
          refine ⟨all, ended, empty, grown.trans grown', ?_⟩
          rw [List.length_cons] at count
          dsimp only at count ⊢
          omega

-----------------------------------------------------------------------------------------
-- All components
-----------------------------------------------------------------------------------------

/-- Between components: nothing waits, the claimed positions are closed under sharing variables, and
each of them belongs to one of the groups found so far. The groups have no more members than there are
claimed positions, so none is there twice.
-/
structure Grouped (clauses : Clauses) (groups : List (List Nat)) (state : Exploration)
    : Prop extends state.Indexed clauses where
  idle : state.pending = []
  closed : ∀ {p q}, Marked state.claimed p → clauses.Related p q → Marked state.claimed q
  claimed : ∀ {p}, Marked state.claimed p ↔ ∃ group ∈ groups, p ∈ group
  apart : groups.Pairwise fun a b => ∀ p ∈ a, ∀ q ∈ b, ¬ clauses.Related p q
  inhabited : ∀ group ∈ groups, group ≠ []
  chained : ∀ group ∈ groups, ∀ p ∈ group, ∀ q ∈ group, clauses.Chained p q
  count : groups.flatten.length + state.claimed.count false = clauses.length

theorem Grouped.inside {groups : List (List Nat)} (grouped : Grouped clauses groups state)
    : ∀ group ∈ groups, ∀ p ∈ group, p < clauses.length := by
  intro group known p member
  rw [← grouped.size]
  exact (grouped.claimed.mpr ⟨group, known, member⟩).lt

/-- The clauses at some positions. -/
def select (clauses : Clauses) (positions : List Nat) : Clauses :=
  positions.map fun p => clauses.toArray.getD p []

/-- The search for a component starts with one claimed position. -/
theorem Grouped.start {groups : List (List Nat)} {start : Nat} (grouped : Grouped clauses groups state)
    (inside : start < clauses.length) (unclaimed : ¬ Marked state.claimed start)
    : Explored clauses (Marked state.claimed) (clauses.Chained start) []
        { state.claim start with members := [] }
      ∧ state.Grows { state.claim start with members := [] }
      ∧ Marked (state.claim start).claimed start
      ∧ ahead ({ state.claim start with members := [] } : Exploration).marks
        = state.claimed.count false := by
  obtain ⟨onto, indexed, grown⟩ := grouped.toIndexed.claim start
  have claimed : ∀ {p}, Marked (state.claim start).claimed p ↔ Marked state.claimed p ∨ p = start := by
    intro p
    refine onto.marked.trans (or_congr_right ?_)
    rw [List.mem_singleton]
    refine ⟨And.left, fun same => ⟨same, ?_⟩⟩
    show p < state.claimed.size
    rwa [grouped.size, same]
  have waiting : ∀ {p}, p ∈ (state.claim start).pending ↔ p = start := by
    intro p
    refine onto.waiting.trans ?_
    show p ∈ state.pending ∨ p ∈ [start] ∧ p < state.claimed.size ∧ ¬ Marked state.claimed p ↔ _
    rw [grouped.idle, grouped.size, List.mem_singleton]
    constructor
    · rintro (none | ⟨same, _⟩)
      · cases none
      · exact same
    · rintro rfl
      exact .inr ⟨rfl, inside, unclaimed⟩
  refine ⟨⟨⟨⟨indexed.size, indexed.reached, indexed.unreached⟩, ?_, ?_, ?_, rfl⟩, by simp⟩,
    ⟨grown.reached, grown.claimed⟩, claimed.mpr (.inr rfl), ?_⟩
  · intro p
    rw [claimed, waiting]
    simp
  · rintro p (none | same)
    · cases none
    · rwa [waiting.mp same]
  · rintro p (none | same)
    · cases none
    · rw [waiting.mp same]
  · calc
      ahead (state.claim start).marks
      _ = ahead state.marks := onto.ahead
      _ = state.claimed.count false := by simp [ahead, Exploration.marks, grouped.idle]

/-- A further start adds the group of its component, unless it is claimed already. -/
theorem Grouped.exploreFrom {groups : List (List Nat)} {start : Nat}
    (grouped : Grouped clauses groups state) (inside : start < clauses.length)
    : ∃ more after,
      Clauses.exploreFrom clauses.toArray (state, groups.map clauses.select) start
        = (after, more.map clauses.select)
      ∧ Grouped clauses more after
      ∧ Marked after.claimed start
      ∧ state.Grows after := by
  unfold Clauses.exploreFrom
  dsimp only
  split
  · rename_i known
    rw [getD_eq_true_iff, grouped.size] at known
    exact ⟨groups, state, rfl, grouped, known.resolve_left (Nat.not_le_of_lt inside), id, id⟩
  · rename_i unknown
    rw [getD_eq_true_iff, not_or] at unknown
    obtain ⟨explored, grown, first, unseen⟩ := grouped.start inside unknown.2
    have enough : state.claimed.count false ≤ clauses.toArray.size := by
      have bound : state.claimed.count false ≤ state.claimed.size := Array.count_le_size
      rwa [grouped.size] at bound
    obtain ⟨all, ended, empty, grown', count⟩ :=
      explored.explore (fun chain related => chain.tail related) clauses.toArray.size (unseen ▸ enough)
    have whole := grown.trans grown'
    have claimed : ∀ {p}, Marked (Clauses.explore clauses.toArray clauses.toArray.size
        { state.claim start with members := [] }).claimed p ↔ Marked state.claimed p ∨ p ∈ all := by
      intro p
      rw [ended.claimed, empty]
      simp
    refine ⟨all.reverse :: groups, _, ?_,
      ⟨ended.toIndexed, empty, ?_, ?_, ?_, ?_, ?_, ?_⟩,
      grown'.claimed first, whole⟩
    · rw [ended.members, List.map_cons, select, List.map_reverse]
    · rintro p q marked ⟨v, left, right⟩
      rcases claimed.mp marked with old | visited
      · exact whole.claimed (grouped.closed old ⟨v, left, right⟩)
      · exact ended.reached (ended.visited p visited left) right
    · intro p
      rw [claimed, grouped.claimed]
      simp only [List.mem_cons, exists_eq_or_imp, List.mem_reverse]
      exact or_comm
    · refine List.pairwise_cons.mpr ⟨fun group known p visited q member related => ?_, grouped.apart⟩
      -- The group was closed before the component, so it would hold the new position as well.
      have earlier := grouped.closed (grouped.claimed.mpr ⟨group, known, member⟩)
        (Std.Symm.symm p q related)
      exact ended.fresh (.inl (List.mem_reverse.mp visited)) earlier
    · refine List.forall_mem_cons.mpr ⟨fun none => ?_, grouped.inhabited⟩
      rcases claimed.mp (grown'.claimed first) with old | visited
      · exact unknown.2 old
      · rw [List.reverse_eq_nil_iff.mp none] at visited
        cases visited
    · refine List.forall_mem_cons.mpr ⟨fun p left q right => ?_, grouped.chained⟩
      have back := Std.Symm.symm _ _ (ended.kin (.inl (List.mem_reverse.mp left)))
      exact back.trans (ended.kin (.inl (List.mem_reverse.mp right)))
    · rw [unseen] at count
      have before := grouped.count
      simp only [ahead, Exploration.marks, empty, List.length_nil, Nat.add_zero, Nat.zero_add] at count
      rw [List.flatten_cons, List.length_append, List.length_reverse]
      dsimp only
      omega

/-- Starting everywhere groups all positions; induction on the starts. -/
theorem Grouped.foldl_exploreFrom {groups : List (List Nat)} (grouped : Grouped clauses groups state)
    (starts : List Nat) (inside : ∀ p ∈ starts, p < clauses.length)
    : ∃ more after,
      starts.foldl (Clauses.exploreFrom clauses.toArray) (state, groups.map clauses.select)
        = (after, more.map clauses.select)
      ∧ Grouped clauses more after
      ∧ (∀ p ∈ starts, Marked after.claimed p)
      ∧ state.Grows after := by
  induction starts generalizing state groups with
  | nil => exact ⟨groups, state, rfl, grouped, by simp, id, id⟩
  | cons start rest ih =>
      obtain ⟨here, later⟩ := List.forall_mem_cons.mp inside
      obtain ⟨more, middle, step, grouped', marked, grown⟩ := grouped.exploreFrom here
      obtain ⟨all, after, run, grouped'', others, grown'⟩ := ih grouped' later
      refine ⟨all, after, ?_, grouped'', ?_, grown.trans grown'⟩
      · rw [List.foldl_cons, step, run]
      · exact List.forall_mem_cons.mpr ⟨grown'.claimed marked, others⟩

theorem mem_select {positions : List Nat} (inside : ∀ p ∈ positions, p < clauses.length) {clause : Clause}
    : clause ∈ clauses.select positions ↔ ∃ p ∈ positions, clauses[p]? = some clause := by
  rw [select, List.mem_map]
  refine exists_congr fun p => and_congr_right fun member => ?_
  have found := List.getElem?_eq_getElem (inside p member)
  simp [found]

/-- Before the first component nothing is claimed. -/
theorem grouped_nowhere (clauses : Clauses)
    : Grouped clauses []
        { claimed := Array.replicate clauses.toArray.size false
          unreached := clauses.positionsBy Lit.var, pending := [], members := [] } where
  size := by simp
  reached := by
    intro v p absent occurs
    have listed : p ∈ (clauses.positionsBy Lit.var).getD v [] :=
      mem_getD_positionsBy.mpr occurs
    rw [Std.TreeMap.getD_eq_getD_getElem?, absent] at listed
    cases listed
  unreached := by
    intro v positions p present
    have listed : p ∈ (clauses.positionsBy Lit.var).getD v [] ↔ clauses.OccursAt v p :=
      mem_getD_positionsBy
    rwa [Std.TreeMap.getD_eq_getD_getElem?, present] at listed
  idle := rfl
  closed := by
    intro p q marked
    simp [Marked, Array.getElem?_replicate] at marked
  claimed := by simp [Marked, Array.getElem?_replicate]
  apart := .nil
  inhabited := by simp
  chained := by simp
  count := by simp

/-- The components are the clauses at groups of positions, and each position is in one group once. -/
theorem exists_groups (clauses : Clauses)
    : ∃ groups after,
      clauses.components
        = groups.reverse.map (fun group => (clauses.select group, (clauses.select group).vars))
      ∧ Grouped clauses groups after
      ∧ groups.flatten.Perm (List.range clauses.length) := by
  obtain ⟨groups, after, run, grouped, marked, -⟩ :=
    (grouped_nowhere clauses).foldl_exploreFrom (List.range clauses.length) (by simp)
  refine ⟨groups, after, ?_, grouped, ?_⟩
  · have starts : List.range clauses.toArray.size = List.range clauses.length := by simp
    rw [components, starts]
    refine (congrArg (fun found : Exploration × List Clauses =>
      found.2.reverse.map fun component => (component, component.vars)) run).trans ?_
    rw [← List.map_reverse, List.map_map]
    rfl
  · have all : List.range clauses.length ⊆ groups.flatten := by
      intro p member
      obtain ⟨group, known, inside⟩ := grouped.claimed.mp (marked p member)
      exact List.mem_flatten.mpr ⟨group, known, inside⟩
    have few : groups.flatten.length ≤ (List.range clauses.length).length := by
      rw [List.length_range, ← grouped.count]
      exact Nat.le_add_right _ _
    exact ((List.subperm_of_subset List.nodup_range all).perm_of_length_le few).symm

/-- Each clause is in one component once. -/
theorem components_perm (clauses : Clauses) : (clauses.components.map Prod.fst).flatten.Perm clauses := by
  obtain ⟨groups, after, found, -, permuted⟩ := clauses.exists_groups
  have shape : (clauses.components.map Prod.fst).flatten = clauses.select groups.reverse.flatten := by
    rw [found, List.map_map, select, List.map_flatten]
    rfl
  have whole : clauses.select (List.range clauses.length) = clauses := by
    refine List.ext_getElem (by simp [select]) fun p _ inside => ?_
    simp [select, inside]
  calc
    (clauses.components.map Prod.fst).flatten
    _ = clauses.select groups.reverse.flatten := shape
    List.Perm _ (clauses.select groups.flatten) := (groups.reverse_perm.flatten).map _
    List.Perm _ (clauses.select (List.range clauses.length)) := permuted.map _
    _ = clauses := whole

/-- The components have the clauses among them, no component is empty, and no two of them have a common
variable.
-/
theorem components_spec (clauses : Clauses)
    : (∀ clause, clause ∈ clauses ↔ ∃ part ∈ clauses.components, clause ∈ part.1)
      ∧ (∀ part ∈ clauses.components, part.1 ≠ [] ∧ part.2 = part.1.vars)
      ∧ clauses.components.Pairwise fun a b => ∀ v, v ∈ a.1.vars → ¬ v ∈ b.1.vars := by
  obtain ⟨groups, after, found, grouped, -⟩ := clauses.exists_groups
  refine ⟨fun clause => ?_, fun part member => ?_, ?_⟩
  · rw [← clauses.components_perm.mem_iff, List.mem_flatten]
    simp only [List.mem_map, exists_exists_and_eq_and]
  · rw [found] at member
    obtain ⟨group, known, rfl⟩ := List.mem_map.mp member
    have inhabited := grouped.inhabited group (List.mem_reverse.mp known)
    exact ⟨by simpa [Clauses.select] using inhabited, rfl⟩
  · rw [found, List.pairwise_map, List.pairwise_reverse]
    refine grouped.apart.imp_of_mem fun {a b} left right apart v second first => ?_
    obtain ⟨clause, listed, l, member, rfl⟩ := mem_vars.mp first
    obtain ⟨other, listed', k, member', same⟩ := mem_vars.mp second
    obtain ⟨p, inA, at_⟩ := (mem_select (grouped.inside a left)).mp listed
    obtain ⟨q, inB, at'⟩ := (mem_select (grouped.inside b right)).mp listed'
    exact apart p inA q inB ⟨l.var, ⟨clause, at_, l, member, rfl⟩, ⟨other, at', k, member', same⟩⟩

/-- The variables of a component are linked. -/
theorem linked_of_component {part : Clauses × SortedSet Var} (found : part ∈ clauses.components) {v w : Var}
    (left : v ∈ part.1.vars) (right : w ∈ part.1.vars)
    : clauses.Linked v w := by
  obtain ⟨groups, after, shape, grouped, -⟩ := clauses.exists_groups
  rw [shape] at found
  obtain ⟨group, known, rfl⟩ := List.mem_map.mp found
  have known := List.mem_reverse.mp known
  obtain ⟨clause, listed, l, member, rfl⟩ := mem_vars.mp left
  obtain ⟨other, listed', k, member', rfl⟩ := mem_vars.mp right
  obtain ⟨p, first, at_⟩ := (mem_select (grouped.inside group known)).mp listed
  obtain ⟨q, last, at'⟩ := (mem_select (grouped.inside group known)).mp listed'
  exact ⟨p, q, ⟨clause, at_, l, member, rfl⟩, ⟨other, at', k, member', rfl⟩,
    grouped.chained group known p first q last⟩

end KnowledgeCompiler.Clauses
