import Mathlib.Data.List.Basic
import Mathlib.Tactic

/-! Marks and a stack of marked positions that wait.

Searches put a position on the stack when they mark it, and mark no position twice. So the positions without
a mark and those on the stack together become fewer with each position that leaves the stack.
-/

namespace KnowledgeCompiler

/-- A position that carries a mark. -/
def Marked (marks : Array Bool) (position : Nat) : Prop := marks[position]? = some true

/-- Marks a position and puts it on the stack, unless it is marked or no position at all. -/
def markOnto (state : Array Bool × List Nat) (position : Nat) : Array Bool × List Nat :=
  if state.1.getD position true then state
  else (state.1.setIfInBounds position true, position :: state.2)

/-- The number of positions that a search still has to see: those without a mark and those on the
stack.
-/
def ahead (state : Array Bool × List Nat) : Nat := state.1.count false + state.2.length

variable {marks : Array Bool} {pending positions : List Nat} {state : Array Bool × List Nat}

theorem getD_eq_true_iff {position : Nat}
    : marks.getD position true = true ↔ marks.size ≤ position ∨ Marked marks position := by
  unfold Marked
  by_cases inside : position < marks.size
  · simp [Array.getD, inside]
  · simp [Array.getD, inside]
    omega

theorem Marked.lt {position : Nat} (marked : Marked marks position) : position < marks.size := by
  by_contra outside
  simp [Marked, Array.getElem?_eq_none (Nat.le_of_not_lt outside)] at marked

theorem marked_setIfInBounds {position other : Nat} (inside : position < marks.size)
    : Marked (marks.setIfInBounds position true) other ↔ Marked marks other ∨ other = position := by
  unfold Marked
  rw [Array.getElem?_setIfInBounds]
  split
  · rename_i same
    simp [← same, inside]
  · rename_i differ
    simp [Ne.symm differ]

/-- What putting positions on the stack does. -/
structure MarksOnto (positions : List Nat) (before after : Array Bool × List Nat) : Prop where
  size : after.1.size = before.1.size
  marked : ∀ {p}, Marked after.1 p ↔ Marked before.1 p ∨ p ∈ positions ∧ p < before.1.size
  waiting
    : ∀ {p}, p ∈ after.2 ↔ p ∈ before.2 ∨ p ∈ positions ∧ p < before.1.size ∧ ¬ Marked before.1 p
  ahead : ahead after = ahead before

theorem MarksOnto.refl (state : Array Bool × List Nat) : MarksOnto [] state state :=
  ⟨rfl, by simp, by simp, rfl⟩

/-- One position goes on the stack if it has no mark. -/
theorem marksOnto_markOnto (state : Array Bool × List Nat) (position : Nat)
    : MarksOnto [position] state (markOnto state position) := by
  unfold markOnto
  split
  · rename_i known
    rw [getD_eq_true_iff] at known
    refine ⟨rfl, fun {p} => ?_, fun {p} => ?_, rfl⟩
    · constructor
      · exact .inl
      · rintro (marked | ⟨member, inside⟩)
        · exact marked
        · obtain rfl := List.mem_singleton.mp member
          exact known.resolve_left (Nat.not_le_of_lt inside)
    · constructor
      · exact .inl
      · rintro (waiting | ⟨member, inside, unmarked⟩)
        · exact waiting
        · obtain rfl := List.mem_singleton.mp member
          exact absurd (known.resolve_left (Nat.not_le_of_lt inside)) unmarked
  · rename_i unknown
    rw [getD_eq_true_iff, not_or] at unknown
    obtain ⟨beyond, unmarked⟩ := unknown
    have inside : position < state.1.size := Nat.lt_of_not_le beyond
    refine ⟨by simp, fun {p} => ?_, fun {p} => ?_, ?_⟩
    · rw [marked_setIfInBounds inside]
      grind
    · grind
    · have value : state.1[position] = false := by
        simpa [Marked, inside] using unmarked
      have present : 0 < state.1.count false :=
        Array.count_pos_iff.mpr (value ▸ Array.getElem_mem inside)
      have fewer : (state.1.setIfInBounds position true).count false = state.1.count false - 1 := by
        simp [Array.setIfInBounds, inside, Array.count_set, value]
      simp only [KnowledgeCompiler.ahead, List.length_cons, fewer]
      omega

theorem MarksOnto.trans {first second : List Nat} {a b c : Array Bool × List Nat}
    (left : MarksOnto first a b) (right : MarksOnto second b c)
    : MarksOnto (first ++ second) a c where
  size := right.size.trans left.size
  marked := by
    intro p
    rw [right.marked, left.marked, left.size, List.mem_append]
    tauto
  waiting := by
    intro p
    rw [right.waiting, left.waiting, left.marked, left.size, List.mem_append]
    tauto
  ahead := right.ahead.trans left.ahead

/-- Positions go on the stack in turn; induction on the positions. -/
theorem marksOnto_foldl (positions : List Nat) (state : Array Bool × List Nat)
    : MarksOnto positions state (positions.foldl markOnto state) := by
  induction positions generalizing state with
  | nil => exact .refl state
  | cons position rest ih => exact (marksOnto_markOnto state position).trans (ih _)

end KnowledgeCompiler
