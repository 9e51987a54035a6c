import KnowledgeCompiler.Proofs.Residual

/-! Scopes restore what they found.

Each record in the list of changes undoes just the change that it was made for, so undoing all records since a moment
leads back to the state of that moment. A session nests scopes in any way and closes them from the inside out.
-/

namespace KnowledgeCompiler

namespace Residual

variable {g h k : Residual}

-----------------------------------------------------------------------------------------
-- The same state
-----------------------------------------------------------------------------------------

/-- Two residual formulas that agree in all their parts. Their tables of values may differ in shape, but not in
what they hold.
-/
structure SameState (g h : Residual) : Prop where
  clauses : g.clauses = h.clauses
  positions : g.positions = h.positions
  active : g.active = h.active
  values : ∀ v : Var, g.values[v]? = h.values[v]?
  trail : g.trail = h.trail
  changes : g.changes = h.changes

namespace SameState

theorem refl (g : Residual) : SameState g g := ⟨rfl, rfl, rfl, fun _ => rfl, rfl, rfl⟩

theorem trans (left : SameState g h) (right : SameState h k) : SameState g k where
  clauses := left.clauses.trans right.clauses
  positions := left.positions.trans right.positions
  active := left.active.trans right.active
  values v := (left.values v).trans (right.values v)
  trail := left.trail.trans right.trail
  changes := left.changes.trans right.changes

theorem mark (same : SameState g h) : g.mark = h.mark := congrArg List.length same.changes

/-- Undoing the last change, which is the same on both sides. -/
theorem undo (same : SameState g h) : SameState g.undo h.undo := by
  obtain ⟨clauses, positions, active, values, trail, changes⟩ := same
  unfold Residual.undo
  rw [changes]
  cases h.changes with
  | nil => exact ⟨clauses, positions, active, values, trail, changes⟩
  | cons change rest =>
      cases change with
      | deactivated position => exact ⟨clauses, positions, by simp only [active], values, trail, rfl⟩
      | assigned v =>
          refine ⟨clauses, positions, active, fun w => ?_, by simp only [trail], rfl⟩
          simp only [Std.TreeMap.getElem?_erase, values]
      | fixed => exact ⟨clauses, positions, active, values, by simp only [trail], rfl⟩

/-- Undoing several changes; induction on their number. -/
theorem undoEach (same : SameState g h) (count : Nat)
    : SameState (Nat.repeat Residual.undo count g) (Nat.repeat Residual.undo count h) := by
  induction count with
  | zero => exact same
  | succ count ih => exact ih.undo

theorem rollback (same : SameState g h) (moment : Nat) : SameState (g.rollback moment) (h.rollback moment) := by
  rw [Residual.rollback, same.changes]
  exact same.undoEach _

end SameState

-----------------------------------------------------------------------------------------
-- Changes that can be taken back
-----------------------------------------------------------------------------------------

/-- The changes made since `g` have been recorded, and undoing them leads back to `g`. -/
structure Retraces (g h : Residual) : Prop where
  grown : g.mark ≤ h.mark
  restored : (h.rollback g.mark).SameState g

/-- Undoing in two goes. -/
theorem rollback_rollback {first second : Nat} (between : first ≤ second) (below : second ≤ g.mark)
    (reached : (g.rollback second).mark = second)
    : (g.rollback second).rollback first = g.rollback first := by
  have added : ∀ more count : Nat,
      Nat.repeat undo (more + count) g = Nat.repeat undo more (Nat.repeat undo count g) := by
    intro more count
    induction more with
    | zero => rw [Nat.zero_add]; rfl
    | succ more ih => rw [Nat.add_right_comm, Nat.repeat, ih, Nat.repeat]
  have total : g.changes.length - first = (second - first) + (g.changes.length - second) := by
    simp only [Residual.mark] at below
    omega
  rw [rollback, show (g.rollback second).changes.length = second from reached, rollback, rollback, total, added]

namespace Retraces

theorem refl (g : Residual) : Retraces g g where
  grown := Nat.le_refl _
  restored := by
    rw [Residual.rollback, Residual.mark, Nat.sub_self]
    exact .refl g

theorem trans (first : Retraces g h) (second : Retraces h k) : Retraces g k where
  grown := Nat.le_trans first.grown second.grown
  restored := by
    rw [← rollback_rollback first.grown second.grown second.restored.mark]
    exact (second.restored.rollback g.mark).trans first.restored

/-- A change with one record, which undoes it. -/
theorem of_undo (recorded : h.mark = g.mark + 1) (undone : h.undo.SameState g) : Retraces g h where
  grown := by omega
  restored := by
    rw [Residual.rollback, show h.changes.length = g.mark + 1 from recorded, Nat.add_sub_cancel_left]
    exact undone

/-- Changes in turn; induction on the list of them. -/
theorem foldl {α : Type} {change : Residual → α → Residual} (each : ∀ g a, Retraces g (change g a)) (items : List α)
    (g : Residual)
    : Retraces g (items.foldl change g) := by
  induction items generalizing g with
  | nil => exact .refl g
  | cons a rest ih => exact (each g a).trans (ih (change g a))

end Retraces

theorem retraces_deactivate {position : Nat} (active : position ∈ g.active) : Retraces g (g.deactivate position) := by
  refine .of_undo rfl ⟨rfl, rfl, SortedSet.ext_mem fun other => ?_, fun _ => rfl, rfl, rfl⟩
  simp only [deactivate, undo, SortedSet.mem_insert, SortedSet.mem_erase]
  grind

theorem retraces_assignLiteral (g : Residual) (l : Lit) : Retraces g (g.assignLiteral l) := by
  unfold assignLiteral
  split
  · exact .refl g
  rename_i free
  have valued : Retraces g
      { g with
        values := g.values.insert l.var l.isPositive
        trail := g.trail.push l
        changes := .assigned l.var :: g.changes } := by
    refine .of_undo rfl ⟨rfl, rfl, rfl, fun v => ?_, by simp [undo], rfl⟩
    simp only [undo, Std.TreeMap.getElem?_erase, Std.TreeMap.getElem?_insert, Nat.compare_eq_eq]
    split
    · rename_i same
      rw [← same, Std.TreeMap.getElem?_eq_none (by simpa using free)]
    · rfl
  refine valued.trans (.foldl (fun g position => ?_) _ _)
  split
  · rename_i active
    exact retraces_deactivate (SortedSet.contains_iff.mp (Bool.and_eq_true_iff.mp active).2)
  · exact .refl g

theorem retraces_fixLiteral (g : Residual) (l : Lit) : Retraces g (g.fixLiteral l) := by
  unfold fixLiteral
  split
  · exact .refl g
  · exact .of_undo rfl ⟨rfl, rfl, rfl, fun _ => rfl, by simp [undo], rfl⟩

/-- A restriction makes active clauses inactive, each of them once; induction on their positions. -/
theorem retraces_restrict (g : Residual) (vars : SortedSet Var) : Retraces g (g.restrict vars) := by
  have folded : ∀ (positions : List Nat) (g : Residual), positions.Nodup → (∀ position ∈ positions, position ∈ g.active)
      → Retraces g (positions.foldl deactivate g) := by
    intro positions
    induction positions with
    | nil => exact fun g _ _ => .refl g
    | cons first rest ih =>
        intro g distinct active
        obtain ⟨fresh, distinct⟩ := List.nodup_cons.mp distinct
        obtain ⟨here, later⟩ := List.forall_mem_cons.mp active
        refine (retraces_deactivate here).trans (ih _ distinct fun position member => ?_)
        exact SortedSet.mem_erase.mpr ⟨later position member, fun same => fresh (same ▸ member)⟩
  refine folded _ g (g.active.nodup.filter _) fun position member => ?_
  exact SortedSet.mem_toList.mp (List.mem_of_mem_filter member)

end Residual

-----------------------------------------------------------------------------------------
-- Scopes
-----------------------------------------------------------------------------------------

/-- What a scope opens with: a change of the formula at hand, or a part of it as a formula of its own. -/
inductive Opening where
  | assign (literals : List Lit)
  | fix (literals : List Lit)
  | restrict (vars : SortedSet Var)
  | part (vars : SortedSet Var)

/-- What is remembered of a scope: the moment to return to, or the formula outside. -/
inductive Scope where
  | guard (moment : Nat)
  | outer (g : Residual)

/-- The formula inside a scope that opens. -/
def Opening.inside (g : Residual) : Opening → Residual
  | .assign literals => g.assign literals
  | .fix literals => g.fix literals
  | .restrict vars => g.restrict vars
  | .part vars => g.part vars

/-- The scope that opens. -/
def Opening.scope (g : Residual) : Opening → Scope
  | .part _ => .outer g
  | .assign _ | .fix _ | .restrict _ => .guard g.mark

/-- The formula after a scope has been closed. -/
def Scope.leave (g : Residual) : Scope → Residual
  | .guard moment => g.rollback moment
  | .outer h => h

/-- Closing a scope restores the state in which it was opened. -/
theorem Opening.leave_inside {g h : Residual} (opening : Opening) (same : h.SameState (opening.inside g))
    : ((opening.scope g).leave h).SameState g := by
  cases opening with
  | assign literals =>
      exact (same.rollback _).trans (Residual.Retraces.foldl Residual.retraces_assignLiteral literals g).restored
  | fix literals =>
      exact (same.rollback _).trans (Residual.Retraces.foldl Residual.retraces_fixLiteral literals g).restored
  | restrict vars => exact (same.rollback _).trans (Residual.retraces_restrict g vars).restored
  | part vars => exact .refl g

/-- A residual formula within scopes, the innermost one first. -/
structure Session where
  current : Residual
  scopes : List Scope := []

namespace Session

/-- What happens in a session: a scope opens, or the innermost one is closed. -/
inductive Step where
  | opened (opening : Opening)
  | closed

/-- Nothing happens where no scope is left to be closed. -/
def step (s : Session) : Step → Session
  | .opened opening => ⟨opening.inside s.current, opening.scope s.current :: s.scopes⟩
  | .closed =>
      match s.scopes with
      | [] => s
      | scope :: rest => ⟨scope.leave s.current, rest⟩

/-- Several steps in turn. -/
def run (s : Session) (steps : List Step) : Session := steps.foldl step s

/-- Scopes that open one after the other or one inside the other, and that are all closed from the inside out. -/
inductive WellNested : List Step → Prop where
  | nil : WellNested []
  | scope (opening : Opening) {inside after : List Step} (within : WellNested inside) (later : WellNested after)
    : WellNested (.opened opening :: inside ++ .closed :: after)

/-- In any session, well-nested scopes leave no trace: whatever is assigned, fixed or restricted within them, the
clauses, the active ones among them, the values, the trail and the recorded changes are in the end as they were.
Induction on the nesting.
-/
theorem scopes_leave_no_trace (s : Session) {steps : List Step} (nested : WellNested steps)
    : (s.run steps).current.SameState s.current ∧ (s.run steps).scopes = s.scopes := by
  induction nested generalizing s with
  | nil => exact ⟨.refl _, rfl⟩
  | @scope opening inside after _ _ within later =>
      obtain ⟨restored, open_⟩ := within (s.step (.opened opening))
      let t : Session := (s.step (.opened opening)).run inside
      let closed : Session := ⟨(opening.scope s.current).leave t.current, s.scopes⟩
      have left : t.step .closed = closed := by
        unfold step
        rw [show t.scopes = opening.scope s.current :: s.scopes from open_]
      have split : s.run (.opened opening :: inside ++ .closed :: after) = closed.run after := by
        rw [run, List.cons_append, List.foldl_cons, List.foldl_append, List.foldl_cons, ← left]
        rfl
      obtain ⟨same, still⟩ := later closed
      rw [split]
      exact ⟨same.trans (opening.leave_inside restored), still⟩

/-- Three clauses, a literal assigned outside; inside, literals that are repeated, assigned already, complementary, or
over unknown variables.
-/
theorem scopes_leave_no_trace_three_clauses
    : let s : Session := { current := (Residual.ofClauses [[1, 2], [-1, 3], [4, 5]]).assign [2] }
      let steps : List Step :=
        [.opened (.assign [1, 1, -1, -2, 9]), .opened (.fix [-3, 1, 3, 0]), .opened (.restrict (.ofList [4])), .closed,
          .closed, .opened (.assign [-3]), .opened (.part (.ofList [5])), .closed, .closed, .closed]
      WellNested steps ∧ (s.run steps).current.SameState s.current := by
  intro s steps
  have nested : WellNested steps :=
    .scope (.assign [1, 1, -1, -2, 9])
      (.scope (.fix [-3, 1, 3, 0]) (.scope (.restrict (.ofList [4])) .nil .nil)
        (.scope (.assign [-3]) (.scope (.part (.ofList [5])) .nil .nil) .nil))
      .nil
  exact ⟨nested, (scopes_leave_no_trace s nested).1⟩

-----------------------------------------------------------------------------------------
-- Reachable sessions
-----------------------------------------------------------------------------------------

/-- A session comes about by steps from the formula of clauses. -/
def Reachable (clauses : Clauses) (s : Session) : Prop :=
  ∃ steps, run { current := .ofClauses clauses } steps = s

/-- A condition holds of the formula at hand and of all to which closing scopes leads back. -/
def Throughout (condition : Residual → Prop) : Residual → List Scope → Prop
  | g, [] => condition g
  | g, scope :: rest => condition g ∧ Throughout condition (scope.leave g) rest

section Invariants

variable {condition : Residual → Prop}

theorem Throughout.current {g : Residual} {scopes : List Scope} (holds : Throughout condition g scopes)
    : condition g := by
  cases scopes with
  | nil => exact holds
  | cons scope rest => exact holds.1

variable (respects : ∀ {g h : Residual}, g.SameState h → condition h → condition g)

include respects

/-- Only the state of the formula matters; induction on the scopes. -/
theorem Throughout.congr {g h : Residual} {scopes : List Scope} (same : g.SameState h)
    (holds : Throughout condition h scopes)
    : Throughout condition g scopes := by
  induction scopes generalizing g h with
  | nil => exact respects same holds
  | cons scope rest ih =>
      refine ⟨respects same holds.1, ih ?_ holds.2⟩
      cases scope with
      | guard moment => exact same.rollback moment
      | outer outside => exact .refl outside

variable (kept : ∀ {g : Residual} (opening : Opening), condition g → condition (opening.inside g))

include kept

/-- One step. A scope that opens leads back to the state before it. -/
theorem Throughout.step {s : Session} (holds : Throughout condition s.current s.scopes) (step : Step)
    : Throughout condition (s.step step).current (s.step step).scopes := by
  cases step with
  | opened opening => exact ⟨kept opening holds.current, holds.congr respects (opening.leave_inside (.refl _))⟩
  | closed =>
      obtain ⟨current, scopes⟩ := s
      cases scopes with
      | nil => exact holds
      | cons scope rest => exact holds.2

/-- What holds at first and is kept by every opening holds of every reachable formula; induction on the steps. -/
theorem Reachable.holds {clauses : Clauses} {s : Session} (reachable : Reachable clauses s)
    (start : condition (.ofClauses clauses))
    : condition s.current := by
  obtain ⟨steps, rfl⟩ := reachable
  have all : ∀ (steps : List Step) (s : Session), Throughout condition s.current s.scopes
      → Throughout condition (s.run steps).current (s.run steps).scopes := by
    intro steps
    induction steps with
    | nil => exact fun s holds => holds
    | cons first rest ih => exact fun s holds => ih (s.step first) (holds.step respects kept first)
  exact (all steps { current := .ofClauses clauses } start).current

end Invariants

end Session

end KnowledgeCompiler
