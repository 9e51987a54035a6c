import KnowledgeCompiler.Residual
import KnowledgeCompiler.Proofs.Conditioning
import KnowledgeCompiler.Proofs.Occurrences

/-! Residual formulas through their two views, the current clauses and the assignment.

Every operation acts on the current clauses as a function of these clauses, whatever clauses, values
and changes lie behind them. All observations but the values themselves are functions of the two views.
-/

namespace KnowledgeCompiler.Residual

/-- The parts of a residual formula belong together: the index is that of the clauses, the active
positions exist, and every value has its literal in the trail.
-/
structure WellFormed (g : Residual) : Prop where
  indexed : g.positions = Clauses.positionsBy Lit.var g.clauses.toList
  inRange : ∀ position, position ∈ g.active → position < g.clauses.size
  recorded : ∀ v, g.values.contains v = true → ∃ l ∈ g.assignment, l.var = v

-----------------------------------------------------------------------------------------
-- Views
-----------------------------------------------------------------------------------------

theorem mem_current {g : Residual} {clause : Clause}
    : clause ∈ g.current ↔ ∃ position, position ∈ g.active ∧ g.residualClause position = clause := by
  simp [current]

/-- A variable of the current clauses has no value. -/
theorem value_of_mem_vars {g : Residual} {v : Var} (member : v ∈ g.vars)
    : g.values.contains v = false := by
  obtain ⟨clause, inside, l, found, rfl⟩ := Clauses.mem_vars.mp member
  obtain ⟨position, _, rfl⟩ := mem_current.mp inside
  simpa [residualClause] using (List.mem_filter.mp found).2

theorem clauseCount_eq (g : Residual) : g.clauseCount = g.current.length := by
  simp [clauseCount, current, SortedSet.size]

theorem isEmpty_iff {g : Residual} : g.isEmpty = true ↔ g.current = [] := by
  simp [isEmpty, current, SortedSet.isEmpty]

theorem hasEmptyClause_iff {g : Residual} : g.hasEmptyClause = true ↔ [] ∈ g.current := by
  simp only [hasEmptyClause, List.any_eq_true, List.all_eq_true, mem_current, residualClause,
    List.filter_eq_nil_iff, SortedSet.mem_toList]
  simp

-----------------------------------------------------------------------------------------
-- The beginning
-----------------------------------------------------------------------------------------

@[simp]
theorem toList_active_ofClauses (clauses : Clauses)
    : (ofClauses clauses).active.toList = List.range clauses.length :=
  SortedSet.toList_ofList List.pairwise_lt_range

theorem WellFormed.ofClauses (clauses : Clauses) : (ofClauses clauses).WellFormed where
  indexed := rfl
  inRange position member := by
    rw [← SortedSet.mem_toList, toList_active_ofClauses, List.mem_range] at member
    simpa [Residual.ofClauses] using member
  recorded v valued := by simp [Residual.ofClauses] at valued

/-- A new residual formula shows its clauses. -/
theorem current_ofClauses (clauses : Clauses) : (ofClauses clauses).current = clauses := by
  rw [current, toList_active_ofClauses]
  refine List.ext_getElem (by simp) (fun position left right => ?_)
  simp [residualClause, ofClauses, List.getElem?_eq_getElem right]

@[simp]
theorem assignment_ofClauses (clauses : Clauses) : (ofClauses clauses).assignment = [] := rfl

-----------------------------------------------------------------------------------------
-- Deactivating clauses
-----------------------------------------------------------------------------------------

/-- Two residual formulas that differ in their active clauses and changes only. -/
structure SameBesideActive (g h : Residual) : Prop where
  clauses : g.clauses = h.clauses
  positions : g.positions = h.positions
  values : g.values = h.values
  trail : g.trail = h.trail

theorem SameBesideActive.refl (g : Residual) : SameBesideActive g g := ⟨rfl, rfl, rfl, rfl⟩

theorem SameBesideActive.residualClause {g h : Residual} (same : SameBesideActive g h)
    (position : Nat)
    : g.residualClause position = h.residualClause position := by
  simp only [Residual.residualClause, same.clauses, same.values]

/-- Deactivating positions under a test that depends on the clauses only takes away those that pass
it; induction on the positions.
-/
theorem foldl_deactivate (test : Clause → Bool) (positions : List Nat) (g : Residual)
    : let h := positions.foldl
        (fun g position =>
          if test (g.clauses.getD position []) && g.active.contains position then
            g.deactivate position
          else g)
        g
      SameBesideActive h g
      ∧ ∀ position, position ∈ h.active
          ↔ position ∈ g.active
            ∧ ¬ (position ∈ positions ∧ test (g.clauses.getD position []) = true) := by
  induction positions generalizing g with
  | nil => simp [SameBesideActive.refl]
  | cons first rest ih =>
      simp only [List.foldl_cons]
      split
      · rename_i passes
        obtain ⟨same, members⟩ := ih (g.deactivate first)
        refine ⟨⟨same.clauses, same.positions, same.values, same.trail⟩, fun position => ?_⟩
        rw [members position]
        simp only [deactivate, SortedSet.mem_erase, List.mem_cons]
        grind
      · rename_i fails
        obtain ⟨same, members⟩ := ih g
        refine ⟨same, fun position => ?_⟩
        rw [members position, List.mem_cons]
        grind [SortedSet.contains_iff]

theorem mem_active_restrict {g : Residual} {vars : SortedSet Var} {position : Nat}
    : position ∈ (g.restrict vars).active
      ↔ position ∈ g.active
        ∧ (g.residualClause position = []
          ∨ ∃ l ∈ g.residualClause position, l.var ∈ vars) := by
  have folded : ∀ (positions : List Nat) (g : Residual),
      position ∈ (positions.foldl deactivate g).active
      ↔ position ∈ g.active ∧ ¬ position ∈ positions := by
    intro positions
    induction positions with
    | nil => simp
    | cons first rest ih =>
        intro g
        rw [List.foldl_cons, ih]
        simp only [deactivate, SortedSet.mem_erase, List.mem_cons]
        grind
  rw [restrict, folded]
  simp only [List.mem_filter, SortedSet.mem_toList]
  constructor
  · rintro ⟨active, outside⟩
    refine ⟨active, ?_⟩
    by_contra neither
    simp only [not_or, not_exists, not_and] at neither
    refine outside ⟨active, ?_⟩
    simpa using neither
  · rintro ⟨active, inside⟩
    refine ⟨active, ?_⟩
    rintro ⟨_, outside⟩
    simp only [Bool.and_eq_true, Bool.not_eq_true', List.isEmpty_eq_false_iff,
      List.any_eq_false, SortedSet.contains_iff] at outside
    rcases inside with empty | ⟨l, member, inVars⟩
    · exact outside.1 empty
    · exact outside.2 l member inVars

theorem sameBesideActive_restrict (g : Residual) (vars : SortedSet Var)
    : SameBesideActive (g.restrict vars) g := by
  have folded : ∀ (positions : List Nat) (g : Residual),
      SameBesideActive (positions.foldl deactivate g) g := by
    intro positions
    induction positions with
    | nil => exact SameBesideActive.refl
    | cons first rest ih =>
        intro g
        obtain ⟨clauses, positions, values, trail⟩ := ih (g.deactivate first)
        exact ⟨clauses, positions, values, trail⟩
  exact folded _ g

/-- The active positions that pass a test are a sublist of the active positions. -/
theorem toList_active_filter {g h : Residual} {keep : Nat → Bool}
    (members : ∀ position, position ∈ h.active ↔ position ∈ g.active ∧ keep position = true)
    : h.active.toList = g.active.toList.filter keep := by
  have equal : h.active = g.active.filter keep := SortedSet.ext_mem (by simpa using members)
  rw [equal]
  rfl

-----------------------------------------------------------------------------------------
-- Assigning
-----------------------------------------------------------------------------------------

theorem contains_insert_value (values : Std.TreeMap Var Bool) (v w : Var) (value : Bool)
    : (values.insert v value).contains w = (decide (v = w) || values.contains w) := by
  rw [Std.TreeMap.contains_insert, Bool.eq_iff_iff]
  simp

/-- Assigning a literal over a variable without a value. -/
theorem assignLiteral_free {g : Residual} (wf : g.WellFormed) {l : Lit}
    (free : g.values.contains l.var = false)
    : (g.assignLiteral l).clauses = g.clauses
      ∧ (g.assignLiteral l).positions = g.positions
      ∧ (g.assignLiteral l).values = g.values.insert l.var l.isPositive
      ∧ (g.assignLiteral l).assignment = g.assignment ++ [l]
      ∧ (g.assignLiteral l).active.toList
        = g.active.toList.filter fun position => !(g.clauses.getD position []).contains l := by
  unfold assignLiteral
  rw [if_neg (by simp [free])]
  obtain ⟨same, members⟩ := foldl_deactivate (·.contains l) (g.positions.getD l.var [])
    { g with
      values := g.values.insert l.var l.isPositive
      trail := g.trail.push l
      changes := .assigned l.var :: g.changes }
  refine ⟨same.clauses, same.positions, same.values, ?_, ?_⟩
  · rw [assignment, same.trail]
    simp [assignment]
  · refine toList_active_filter (fun position => ?_)
    rw [members]
    refine and_congr_right (fun active => ?_)
    -- A position whose clause holds the literal is listed for the literal's variable.
    have listed : (g.clauses.getD position []).contains l = true
        → position ∈ g.positions.getD l.var [] := by
      intro holds
      have below := wf.inRange position active
      rw [wf.indexed, Clauses.mem_getD_positionsBy]
      refine ⟨g.clauses.getD position [], by simp [below], l, by simpa using holds, rfl⟩
    grind

/-- The current clauses after a literal has been assigned. A literal whose variable has a value
changes nothing, and its variable is not among the current ones.
-/
theorem current_assignLiteral {g : Residual} (wf : g.WellFormed) (l : Lit)
    : (g.assignLiteral l).current = g.current.assign l := by
  cases valued : g.values.contains l.var with
  | true =>
      have absent : ¬ l.var ∈ g.vars := fun member => by
        simp [value_of_mem_vars member] at valued
      rw [Clauses.assign_eq_self absent, assignLiteral, if_pos valued]
  | false =>
      obtain ⟨clauses, _, values, _, active⟩ := assignLiteral_free wf valued
      rw [current, active, current, Clauses.assign, List.filter_map, List.map_map]
      have tests : g.active.toList.filter
            ((fun clause : Clause => !clause.contains l) ∘ g.residualClause)
          = g.active.toList.filter fun position => !(g.clauses.getD position []).contains l := by
        refine List.filter_congr (fun position _ => ?_)
        simp [residualClause, valued]
      rw [tests]
      refine List.map_congr_left (fun position member => ?_)
      have lacks : ¬ l ∈ g.clauses.getD position [] := by
        simpa using (List.mem_filter.mp member).2
      simp only [residualClause, clauses, values, Function.comp, List.filter_filter]
      refine List.filter_congr (fun k inside => ?_)
      have other : l.var = k.var ↔ k = -l := by
        constructor
        · intro same
          rcases Lit.eq_or_eq_neg same with equal | opposite
          · exact absurd (equal ▸ inside) lacks
          · rw [opposite, Int.neg_neg]
        · rintro rfl
          exact (Lit.var_neg l).symm
      rw [contains_insert_value, Bool.eq_iff_iff]
      simp only [Bool.not_or, Bool.and_eq_true, Bool.not_eq_true', decide_eq_false_iff_not, other,
        bne_iff_ne, ne_eq]

theorem WellFormed.assignLiteral {g : Residual} (wf : g.WellFormed) (l : Lit)
    : (g.assignLiteral l).WellFormed := by
  cases valued : g.values.contains l.var with
  | true =>
      rw [Residual.assignLiteral, if_pos valued]
      exact wf
  | false =>
      obtain ⟨clauses, positions, values, trail, active⟩ := assignLiteral_free wf valued
      refine ⟨by rw [positions, clauses, wf.indexed], fun position member => ?_, fun v known => ?_⟩
      · rw [← SortedSet.mem_toList, active] at member
        rw [clauses]
        exact wf.inRange position (List.mem_of_mem_filter member)
      · rw [trail]
        rw [values, contains_insert_value] at known
        by_cases same : l.var = v
        · exact ⟨l, by simp, same⟩
        · obtain ⟨k, member, found⟩ := wf.recorded v (by simpa [same] using known)
          exact ⟨k, by simp [member], found⟩

theorem WellFormed.assign {g : Residual} (wf : g.WellFormed) (literals : List Lit)
    : (g.assign literals).WellFormed := by
  induction literals generalizing g with
  | nil => exact wf
  | cons l rest ih => exact ih (wf.assignLiteral l)

/-- The current clauses after several literals have been assigned; induction on the literals. -/
theorem current_assign {g : Residual} (wf : g.WellFormed) (literals : List Lit)
    : (g.assign literals).current = g.current.assignEach literals := by
  induction literals generalizing g with
  | nil => rfl
  | cons l rest ih =>
      rw [assign, List.foldl_cons, Clauses.assignEach, List.foldl_cons, ← current_assignLiteral wf]
      exact ih (wf.assignLiteral l)

/-- Literals over distinct variables without values are appended to the assignment; induction on the
literals.
-/
theorem assignment_assign {g : Residual} (wf : g.WellFormed) {literals : List Lit}
    (free : ∀ l ∈ literals, g.values.contains l.var = false)
    (distinct : (literals.map Lit.var).Nodup)
    : (g.assign literals).assignment = g.assignment ++ literals := by
  induction literals generalizing g with
  | nil => simp [assign]
  | cons l rest ih =>
      obtain ⟨_, _, values, trail, _⟩ := assignLiteral_free wf (free l (by simp))
      obtain ⟨fresh, distinct⟩ := List.nodup_cons.mp distinct
      have stillFree : ∀ k ∈ rest, (g.assignLiteral l).values.contains k.var = false := by
        intro k member
        have differ : l.var ≠ k.var := fun same => fresh (same ▸ List.mem_map_of_mem member)
        simp [values, differ, free k (by simp [member])]
      rw [assign, List.foldl_cons, ← assign, ih (wf.assignLiteral l) stillFree distinct, trail]
      simp

-----------------------------------------------------------------------------------------
-- Fixing and splitting
-----------------------------------------------------------------------------------------

/-- Fixing a literal leaves everything but the trail as it is. -/
theorem fixLiteral_fields (g : Residual) (l : Lit)
    : (g.fixLiteral l).clauses = g.clauses
      ∧ (g.fixLiteral l).positions = g.positions
      ∧ (g.fixLiteral l).values = g.values
      ∧ (g.fixLiteral l).active = g.active := by
  unfold fixLiteral
  split <;> exact ⟨rfl, rfl, rfl, rfl⟩

/-- A fixed literal joins the assignment unless its variable is in it. -/
theorem assignment_fixLiteral {g : Residual} (wf : g.WellFormed) (l : Lit)
    : (g.fixLiteral l).assignment
      = if g.assignment.any fun k => k.var == l.var then g.assignment else g.assignment ++ [l] := by
  have known : (g.values.contains l.var || g.trail.any fun k => k.var == l.var)
      = g.assignment.any fun k => k.var == l.var := by
    rw [assignment, Array.any_toList, Bool.or_eq_right_iff_imp]
    intro valued
    obtain ⟨k, member, same⟩ := wf.recorded l.var valued
    rw [← Array.any_toList, List.any_eq_true]
    exact ⟨k, member, by simpa using same⟩
  unfold fixLiteral
  rw [known]
  split
  · rfl
  · simp [assignment]

theorem WellFormed.fixLiteral {g : Residual} (wf : g.WellFormed) (l : Lit)
    : (g.fixLiteral l).WellFormed := by
  obtain ⟨clauses, positions, values, active⟩ := fixLiteral_fields g l
  refine ⟨by rw [clauses, positions, wf.indexed], ?_, fun v valued => ?_⟩
  · rw [clauses, active]
    exact wf.inRange
  · rw [values] at valued
    obtain ⟨k, member, same⟩ := wf.recorded v valued
    refine ⟨k, ?_, same⟩
    rw [assignment_fixLiteral wf]
    split
    · exact member
    · exact List.mem_append_left _ member

theorem WellFormed.fix {g : Residual} (wf : g.WellFormed) (literals : List Lit)
    : (g.fix literals).WellFormed := by
  induction literals generalizing g with
  | nil => exact wf
  | cons l rest ih => exact ih (wf.fixLiteral l)

/-- Fixing literals leaves the current clauses as they are; induction on the literals. -/
theorem current_fix (g : Residual) (literals : List Lit) : (g.fix literals).current = g.current := by
  induction literals generalizing g with
  | nil => rfl
  | cons l rest ih =>
      obtain ⟨clauses, _, values, active⟩ := fixLiteral_fields g l
      rw [fix, List.foldl_cons, ← fix, ih, current, current, active]
      refine List.map_congr_left (fun position _ => ?_)
      simp only [residualClause, clauses, values]

/-- Literals over distinct variables outside the assignment are appended to it; induction on the
literals.
-/
theorem assignment_fix {g : Residual} (wf : g.WellFormed) {literals : List Lit}
    (fresh : ∀ l ∈ literals, ∀ k ∈ g.assignment, k.var ≠ l.var)
    (distinct : (literals.map Lit.var).Nodup)
    : (g.fix literals).assignment = g.assignment ++ literals := by
  induction literals generalizing g with
  | nil => simp [fix]
  | cons l rest ih =>
      obtain ⟨apart, distinct⟩ := List.nodup_cons.mp distinct
      have absent : (g.assignment.any fun k => k.var == l.var) = false := by
        simpa using fresh l (by simp)
      have joined : (g.fixLiteral l).assignment = g.assignment ++ [l] := by
        rw [assignment_fixLiteral wf, if_neg (by simp [absent])]
      have stillFresh : ∀ m ∈ rest, ∀ k ∈ (g.fixLiteral l).assignment, k.var ≠ m.var := by
        intro m member k known
        rw [joined, List.mem_append, List.mem_singleton] at known
        rcases known with known | rfl
        · exact fresh m (by simp [member]) k known
        · exact fun same => apart (same ▸ List.mem_map_of_mem member)
      rw [fix, List.foldl_cons, ← fix, ih (wf.fixLiteral l) stillFresh distinct, joined]
      simp

theorem WellFormed.restrict {g : Residual} (wf : g.WellFormed) (vars : SortedSet Var)
    : (g.restrict vars).WellFormed := by
  obtain ⟨clauses, positions, values, trail⟩ := sameBesideActive_restrict g vars
  refine ⟨by rw [positions, clauses, wf.indexed], fun position member => ?_, fun v valued => ?_⟩
  · rw [clauses]
    exact wf.inRange position (mem_active_restrict.mp member).1
  · rw [values] at valued
    rw [assignment, trail]
    exact wf.recorded v valued

theorem assignment_restrict (g : Residual) (vars : SortedSet Var)
    : (g.restrict vars).assignment = g.assignment := by
  rw [assignment, (sameBesideActive_restrict g vars).trail, assignment]

/-- A restricted formula shows the clauses with a literal over the variables, and the empty ones. -/
theorem current_restrict (g : Residual) (vars : SortedSet Var)
    : (g.restrict vars).current
      = g.current.filter fun clause =>
          clause.isEmpty || clause.any fun l => vars.contains l.var := by
  have active : (g.restrict vars).active.toList
      = g.active.toList.filter fun position => (g.residualClause position).isEmpty
        || (g.residualClause position).any fun l => vars.contains l.var :=
    toList_active_filter fun position => by rw [mem_active_restrict]; simp
  rw [current, active, current, List.filter_map]
  refine List.map_congr_left (fun position _ => ?_)
  exact (sameBesideActive_restrict g vars).residualClause position

theorem WellFormed.part (g : Residual) (vars : SortedSet Var) : (g.part vars).WellFormed := by
  obtain ⟨indexed, inRange, _⟩ := WellFormed.ofClauses
    (g.current.filter fun clause => clause.any fun l => vars.contains l.var)
  refine ⟨indexed, inRange, fun v valued => ?_⟩
  simp [Residual.part, Residual.ofClauses] at valued

theorem assignment_part (g : Residual) (vars : SortedSet Var)
    : (g.part vars).assignment = g.assignment := rfl

/-- A part shows the clauses with a literal over the variables. -/
theorem current_part (g : Residual) (vars : SortedSet Var)
    : (g.part vars).current
      = g.current.filter fun clause => clause.any fun l => vars.contains l.var :=
  current_ofClauses _

/-- Without empty clauses, a part and a restriction show the same clauses. -/
theorem current_part_eq_restrict {g : Residual} (nonempty : ¬ [] ∈ g.current)
    (vars : SortedSet Var)
    : (g.part vars).current = (g.restrict vars).current := by
  rw [current_part, current_restrict]
  refine List.filter_congr (fun clause inside => ?_)
  have : clause.isEmpty = false := by
    rw [List.isEmpty_eq_false_iff]
    rintro rfl
    exact nonempty inside
  simp [this]

-----------------------------------------------------------------------------------------
-- Occurrences
-----------------------------------------------------------------------------------------

theorem toList_active {g : Residual} (wf : g.WellFormed)
    : g.active.toList = (List.range g.clauses.size).filter g.active.contains := by
  refine SortedSet.ascending_ext g.active.ascending
    (List.pairwise_lt_range.filter _) (fun position => ?_)
  simp only [SortedSet.mem_toList, List.mem_filter, List.mem_range, SortedSet.contains_iff]
  exact ⟨fun member => ⟨wf.inRange position member, member⟩, And.right⟩

/-- The occurrences of a variable are those in the current clauses. Both sides are sums over the
positions.
-/
theorem occurrences_eq {g : Residual} (wf : g.WellFormed) (v : Var)
    : g.occurrences v = g.current.flatten.countP fun l => l.var = v := by
  cases valued : g.values.contains v with
  | true =>
      rw [occurrences, if_pos valued, eq_comm, List.countP_eq_zero]
      intro l member
      simp only [decide_eq_true_eq]
      rintro rfl
      obtain ⟨clause, inside, found⟩ := List.mem_flatten.mp member
      have free : g.values.contains l.var = false :=
        value_of_mem_vars (Clauses.var_mem_vars inside found)
      simp [free] at valued
  | false =>
      have entries : g.clauses.toList.zipIdx
          = (List.range g.clauses.size).map fun p => (g.clauses.getD p [], p) := by
        refine List.ext_getElem (by simp) (fun position left right => ?_)
        have below : position < g.clauses.size := by simpa using left
        simp [below]
      have counts : ∀ position, (g.residualClause position).countP (fun l => l.var = v)
          = (g.clauses.getD position []).countP fun l => l.var = v := by
        intro position
        rw [residualClause, List.countP_filter]
        refine List.countP_congr (fun l _ => ?_)
        by_cases same : l.var = v
        · simp [same, valued]
        · simp [same]
      rw [occurrences, if_neg (by simp [valued]), wf.indexed, Clauses.getD_positionsBy, entries,
        Clauses.positionsIn, List.flatMap_map, List.countP_flatMap, current, toList_active wf,
        List.countP_flatten, List.map_map]
      -- Positions that are not active contribute nothing to the left-hand side.
      generalize List.range g.clauses.size = positions
      induction positions with
      | nil => rfl
      | cons position rest ih =>
          rw [List.map_cons, List.sum_cons, ih, List.filter_cons]
          have listed : ∀ items : List Lit, (items.map fun _ => position).countP g.active.contains
              = if g.active.contains position then items.length else 0 := by
            intro items
            rw [List.map_const', List.countP_replicate]
          simp only [Function.comp_apply, listed]
          cases active : g.active.contains position with
          | true => simp [counts, List.countP_eq_length_filter]
          | false => simp

-----------------------------------------------------------------------------------------
-- Formulas with the same current clauses
-----------------------------------------------------------------------------------------

/-- Two residual formulas that show the same clauses. -/
structure SameView (g h : Residual) : Prop where
  left : g.WellFormed
  right : h.WellFormed
  current : g.current = h.current

namespace SameView

variable {g h : Residual}

theorem clauseCount (same : SameView g h) : g.clauseCount = h.clauseCount := by
  rw [clauseCount_eq, clauseCount_eq, same.current]

theorem isEmpty (same : SameView g h) : g.isEmpty = h.isEmpty := by
  rw [Bool.eq_iff_iff, isEmpty_iff, isEmpty_iff, same.current]

theorem hasEmptyClause (same : SameView g h) : g.hasEmptyClause = h.hasEmptyClause := by
  rw [Bool.eq_iff_iff, hasEmptyClause_iff, hasEmptyClause_iff, same.current]

theorem vars (same : SameView g h) : g.vars = h.vars := by
  rw [Residual.vars, same.current, Residual.vars]

theorem occurrences (same : SameView g h) (v : Var) : g.occurrences v = h.occurrences v := by
  rw [occurrences_eq same.left, occurrences_eq same.right, same.current]

theorem occurrenceCounts (same : SameView g h) : g.occurrenceCounts = h.occurrenceCounts := by
  rw [Residual.occurrenceCounts, same.current, Residual.occurrenceCounts]

theorem isTwoCnf (same : SameView g h) : g.isTwoCnf = h.isTwoCnf := by
  rw [Residual.isTwoCnf, same.current, Residual.isTwoCnf]

theorem hornRenaming? (same : SameView g h) : g.hornRenaming? = h.hornRenaming? := by
  rw [Residual.hornRenaming?, same.current, Residual.hornRenaming?]

theorem components (same : SameView g h) : g.components = h.components := by
  have links : g.links = h.links := by
    rw [Residual.links, Residual.places, same.vars, same.current, Residual.links, Residual.places]
  rw [Residual.components, links, same.vars, Residual.components]

theorem assign (same : SameView g h) (literals : List Lit)
    : SameView (g.assign literals) (h.assign literals) := by
  refine ⟨same.left.assign literals, same.right.assign literals, ?_⟩
  rw [current_assign same.left, current_assign same.right, same.current]

theorem fix (same : SameView g h) (literals literals' : List Lit)
    : SameView (g.fix literals) (h.fix literals') := by
  refine ⟨same.left.fix literals, same.right.fix literals', ?_⟩
  rw [current_fix, current_fix, same.current]

end SameView

end KnowledgeCompiler.Residual
