import KnowledgeCompiler.Circuit.Basic

/-! Checked computations over lists, in terms of what their steps compute.

When every step succeeds, a checked traversal is the plain one.
-/

namespace KnowledgeCompiler.Checked

variable {α β : Type}

theorem filterChecked_ok {test : α → Checked Bool} {keep : α → Bool} {items : List α}
    (each : ∀ a ∈ items, test a = .ok (keep a))
    : filterChecked test items = .ok (items.filter keep) := by
  induction items with
  | nil => rfl
  | cons a rest ih =>
      rw [filterChecked, each a (by simp), ih fun b member => each b (by simp [member])]
      cases passes : keep a <;> simp [passes] <;> rfl

theorem anyM_ok {test : α → Checked Bool} {holds : α → Bool} {items : List α}
    (each : ∀ a ∈ items, test a = .ok (holds a))
    : List.anyM test items = .ok (items.any holds) := by
  induction items with
  | nil => rfl
  | cons a rest ih =>
      have later := ih fun b member => each b (by simp [member])
      rw [List.anyM, each a (by simp)]
      cases passes : holds a
      · simpa [bind, Except.bind, passes] using later
      · simp [bind, Except.bind, passes, pure, Except.pure]

/-- A search that ends with a find has found something; induction on the list. -/
theorem exists_of_anyM {test : α → Checked Bool} {items : List α} (done : List.anyM test items = .ok true)
    : ∃ a ∈ items, test a = .ok true := by
  induction items with
  | nil => simp [List.anyM, pure, Except.pure] at done
  | cons a rest ih =>
      rw [List.anyM] at done
      cases first : test a with
      | error cause => simp [first, bind, Except.bind] at done
      | ok found =>
          cases found with
          | true => exact ⟨a, by simp, first⟩
          | false =>
              obtain ⟨b, member, holds⟩ := ih (by simpa [first, bind, Except.bind] using done)
              exact ⟨b, List.mem_cons_of_mem a member, holds⟩

/-- A search that ends without a find has tried everything; induction on the list. -/
theorem forall_of_anyM {test : α → Checked Bool} {items : List α} (done : List.anyM test items = .ok false)
    : ∀ a ∈ items, test a = .ok false := by
  induction items with
  | nil => simp
  | cons a rest ih =>
      rw [List.anyM] at done
      cases first : test a with
      | error cause => simp [first, bind, Except.bind] at done
      | ok found =>
          cases found with
          | true => simp [first, bind, Except.bind, pure, Except.pure] at done
          | false => exact List.forall_mem_cons.mpr ⟨first, ih (by simpa [first, bind, Except.bind] using done)⟩

theorem allM_ok {test : α → Checked Bool} {holds : α → Bool} {items : List α}
    (each : ∀ a ∈ items, test a = .ok (holds a))
    : List.allM test items = .ok (items.all holds) := by
  induction items with
  | nil => rfl
  | cons a rest ih =>
      have later := ih fun b member => each b (by simp [member])
      rw [List.allM, each a (by simp)]
      cases passes : holds a
      · simp [bind, Except.bind, passes, pure, Except.pure]
      · simpa [bind, Except.bind, passes] using later

theorem mapM_ok {step : α → Checked β} {image : α → β} {items : List α}
    (each : ∀ a ∈ items, step a = .ok (image a))
    : items.mapM step = .ok (items.map image) := by
  induction items with
  | nil => rfl
  | cons a rest ih =>
      rw [List.mapM_cons, each a (by simp), ih fun b member => each b (by simp [member])]
      rfl

/-- A traversal that succeeds is the plain one; induction on the list. -/
theorem eq_map_of_mapM {step : α → Checked β} {image : α → β}
    (each : ∀ {a b}, step a = .ok b → b = image a) {items : List α} {results : List β}
    (done : items.mapM step = .ok results)
    : results = items.map image := by
  induction items generalizing results with
  | nil => exact (Except.ok.inj done).symm
  | cons a rest ih =>
      rw [List.mapM_cons] at done
      cases first : step a with
      | error cause =>
          rw [first] at done
          cases done
      | ok b =>
          cases later : rest.mapM step with
          | error cause =>
              rw [first, later] at done
              cases done
          | ok others =>
              rw [first, later] at done
              rw [← Except.ok.inj done, List.map_cons, ← each first, ← ih later]

/-- A pairwise test succeeds if each of its comparisons does. -/
theorem pairwiseChecked_ok {related : α → α → Checked Bool} {holds : α → α → Bool}
    {items : List α} (each : ∀ a ∈ items, ∀ b ∈ items, related a b = .ok (holds a b))
    : ∃ verdict, pairwiseChecked related items = .ok verdict
      ∧ (verdict = true ↔ items.Pairwise fun a b => holds a b = true) := by
  induction items with
  | nil => exact ⟨true, rfl, by simp⟩
  | cons a rest ih =>
      obtain ⟨verdict, later, meaning⟩ := ih fun b member c member' =>
        each b (by simp [member]) c (by simp [member'])
      have first : List.allM (related a) rest = .ok (rest.all (holds a)) :=
        allM_ok fun b member => each a (by simp) b (List.mem_cons_of_mem a member)
      rw [pairwiseChecked, first]
      cases all : rest.all (holds a)
      · refine ⟨false, rfl, ?_⟩
        simp only [Bool.false_eq_true, List.pairwise_cons, false_iff, not_and]
        intro every
        simp only [List.all_eq_false] at all
        obtain ⟨b, member, fails⟩ := all
        exact absurd (every b member) fails
      · refine ⟨verdict, later, ?_⟩
        simp only [List.all_eq_true] at all
        simp only [meaning, List.pairwise_cons, iff_and_self]
        exact fun _ => all

end KnowledgeCompiler.Checked
