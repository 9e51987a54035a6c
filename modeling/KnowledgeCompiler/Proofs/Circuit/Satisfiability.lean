import KnowledgeCompiler.Proofs.Circuit.Models

/-! Satisfiability is exact on decomposable nodes. -/

namespace KnowledgeCompiler.Build

variable {c : Circuit} {id : NodeId} {children : List NodeId} {literals : List Lit} {marked : List Var}

theorem conjoin_satisfiable {value : NodeId → Outcome Bool} {holds : NodeId → Bool}
    (each : ∀ child ∈ children, value child = .ok (holds child))
    : combine satisfiableWalk.conjoin value children true = .ok (children.all holds) := by
  induction children with
  | nil => rfl
  | cons child rest ih =>
      obtain ⟨here, later⟩ := List.forall_mem_cons.mp each
      rw [combine, here, List.all_cons]
      cases holds child with
      | true => exact ih later
      | false => rfl

theorem disjoin_satisfiable {value : NodeId → Outcome Bool} {holds : NodeId → Bool}
    (each : ∀ child ∈ children, value child = .ok (holds child))
    : combine satisfiableWalk.disjoin value children false = .ok (children.any holds) := by
  induction children with
  | nil => rfl
  | cons child rest ih =>
      obtain ⟨here, later⟩ := List.forall_mem_cons.mp each
      rw [combine, here, List.any_cons]
      cases holds child with
      | true => rfl
      | false => exact ih later

theorem check_satisfiable {properties : Properties} (decomposable : properties.decomposable = true)
    : satisfiableWalk.check id properties = .ok () :=
  if_pos decomposable

/-- On a decomposable node the walk says whether some model agrees with the assumption, whatever is
quantified; induction on the fuel.
-/
theorem satisfiable_answer (upToDate : c.UpToDate) (inRange : c.InRange) (covered : c.Covered)
    {fuel : Nat} (within : c.Within fuel id) (present : id < c.nodes.size)
    (admissible : Admissible literals) (decomposable : (c.throughoutOf id).decomposable = true)
    : ∃ answer, satisfiableWalk.answer c fuel id literals marked = .ok answer
      ∧ (answer = true ↔ ∃ σ, c.Models id literals σ) := by
  induction fuel generalizing id literals marked with
  | zero => exact within.elim
  | succ fuel ih =>
      obtain ⟨here, found⟩ := Circuit.exists_node present
      have at_ := Circuit.gate?_of_node? found
      have vars := Circuit.varsOf_of_node? found
      have checked : satisfiableWalk.check id here.throughout = .ok () :=
        check_satisfiable (Circuit.throughoutOf_of_node? found ▸ decomposable)
      -- A child is present, on a shorter path, and decomposable as well.
      have step : ∀ child ∈ here.gate.children, ∀ {literals} (marked), Admissible literals →
          ∃ answer, satisfiableWalk.answer c fuel child literals marked = .ok answer
            ∧ (answer = true ↔ ∃ σ, c.Models child literals σ) :=
        fun child member {_} _ admissible => ih (within child ⟨here.gate, at_, member⟩)
          (upToDate.closed at_ child member) admissible
          (upToDate.flag_child (fun _ _ => rfl) rfl at_ decomposable member)
      cases gate : here.gate with
      | and children =>
          rw [gate] at step at_
          choose! holds each using fun child member => step child member marked admissible
          refine ⟨children.all holds, ?_, ?_⟩
          · rw [Walk.answer_and found gate, checked]
            exact conjoin_satisfiable fun child member => (each child member).1
          · rw [upToDate.exists_models_and at_ (upToDate.apart_of_decomposable at_ decomposable),
              List.all_eq_true]
            exact forall₂_congr fun child member => (each child member).2
      | or decision children =>
          rw [gate] at step at_
          choose! holds each using fun child member => step child member marked admissible
          refine ⟨children.any holds, ?_, ?_⟩
          · rw [Walk.answer_or found gate, checked]
            exact disjoin_satisfiable fun child member => (each child member).1
          · rw [upToDate.exists_models_or admissible at_, List.any_eq_true]
            exact exists_congr fun child => and_congr_right fun member => (each child member).2
      | mapping names child =>
          rw [gate] at step at_
          obtain ⟨-, bounded⟩ := inRange at_
          obtain ⟨answer, done, exact_⟩ := step child (by simp [Gate.children])
            (marked.filterMap names.toLocal.find?) (admissible.image bounded names.toLocal_injective)
          refine ⟨answer, ?_, ?_⟩
          · rw [Walk.answer_mapping found gate, checked]
            exact done
          · rw [exact_, upToDate.exists_models_mapping covered at_ bounded]
      | constant value =>
          rw [gate] at at_
          refine ⟨value, ?_, ?_⟩
          · rw [Walk.answer_leaf found (by rw [Node.kind, gate]; rfl), gate]
            rfl
          · simp only [upToDate.models_constant at_, exists_const]
      | literal l =>
          rw [gate] at at_
          have proper : l.Proper := inRange at_
          refine ⟨!literals.contains (-l), ?_, ?_⟩
          · rw [Walk.answer_leaf found (by rw [Node.kind, gate]; rfl), gate]
            simp only [satisfiableWalk, proper.negate]
            rfl
          · simp only [upToDate.models_literal proper at_]
            have possible : ∃ σ, Lit.TrueIn σ l := ⟨fun _ => l.isPositive, rfl⟩
            simp [possible]
      | twoCnf formula =>
          rw [gate] at at_
          obtain ⟨answer, done, exact_⟩ :=
            formula.isSatisfiable_spec (inRange at_)
              (admissible.filter fun l => here.vars.contains l.var).complementFree
          refine ⟨answer, ?_, exact_.trans (exists_congr fun σ => ?_)⟩
          · rw [Walk.answer_leaf found (by rw [Node.kind, gate]; rfl), gate]
            exact congrArg Outcome.ofChecked done
          · rw [Circuit.Models, Circuit.satisfies_iff at_, vars, Circuit.UpToDate.agrees_within, and_comm]
            rfl
      | horn formula =>
          rw [gate] at at_
          obtain ⟨answer, done, exact_⟩ :=
            formula.isSatisfiable_spec (inRange at_) (admissible.filter fun l => here.vars.contains l.var)
          refine ⟨answer, ?_, exact_.trans (exists_congr fun σ => ?_)⟩
          · rw [Walk.answer_leaf found (by rw [Node.kind, gate]; rfl), gate]
            exact congrArg Outcome.ofChecked done
          · rw [Circuit.Models, Circuit.satisfies_iff at_, vars, Circuit.UpToDate.agrees_within, and_comm]
            rfl

end KnowledgeCompiler.Build
