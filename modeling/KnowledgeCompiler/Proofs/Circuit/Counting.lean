import KnowledgeCompiler.Proofs.Circuit.Models

/-! Counts are exact on decomposable, deterministic and smooth nodes.

Children of a conjunction without a common variable multiply. Children of a disjunction that contradict each
other, over the same variables, add up; a child that is the constant false adds nothing.
-/

namespace KnowledgeCompiler

open Build

variable {c : Circuit} {id child : NodeId} {children : List NodeId} {decision : Option Var}
variable {names : Bijection} {literals : List Lit} {marked : List Var}

namespace Circuit

/-- The number of models of a node over its variables that agree with literals. -/
noncomputable def modelNumber (c : Circuit) (id : NodeId) (literals : List Lit) : Nat :=
  countOver (c.varsOf id).toFinset (c.Models id literals)

/-- A node that is counted rightly. -/
structure Countworthy (c : Circuit) (id : NodeId) : Prop where
  decomposable : (c.throughoutOf id).decomposable = true
  deterministic : (c.throughoutOf id).deterministic = true
  smooth : (c.throughoutOf id).smooth = true

namespace UpToDate

variable (upToDate : c.UpToDate)

include upToDate

theorem countworthy_child {gate : Gate} (found : c.gate? id = some gate) (worthy : c.Countworthy id)
    (member : child ∈ gate.children)
    : c.Countworthy child where
  decomposable := upToDate.flag_child (fun _ _ => rfl) rfl found worthy.decomposable member
  deterministic := upToDate.flag_child (fun _ _ => rfl) rfl found worthy.deterministic member
  smooth := upToDate.flag_child (fun _ _ => rfl) rfl found worthy.smooth member

/-- The counts of the children of a conjunction multiply. -/
theorem modelNumber_and (found : c.gate? id = some (.and children))
    (worthy : c.Countworthy id)
    : c.modelNumber id literals = (children.map fun child => c.modelNumber child literals).prod := by
  calc
    c.modelNumber id literals
    _ = countOver (c.varsOf id).toFinset fun σ => ∀ child ∈ children, c.Models child literals σ :=
      countOver_congr fun σ => upToDate.models_and found
    _ = (children.map fun child => c.modelNumber child literals).prod := by
      refine countOver_forall ?_ (fun child _ => upToDate.dependsOn_models) fun v => ?_
      · exact (upToDate.apart_of_decomposable found worthy.decomposable).imp disjoint_of_apart
      · simp only [SortedSet.mem_toFinset]
        exact upToDate.mem_varsOf found

/-- The counts of the children of a disjunction add up. -/
theorem modelNumber_or (inRange : c.InRange) (found : c.gate? id = some (.or decision children))
    (worthy : c.Countworthy id)
    : c.modelNumber id literals = (children.map fun child => c.modelNumber child literals).sum := by
  have vars : ∀ child ∈ children, c.varsOf child = c.varsOf id :=
    fun child member => upToDate.vars_of_smooth found worthy.smooth member
  have models (σ : Assignment)
      : c.Models id literals σ ↔ ∃ child ∈ children, c.Models child literals σ := by
    rw [Models, satisfies_iff found]
    constructor
    · rintro ⟨⟨child, member, holds⟩, agrees⟩
      exact ⟨child, member, holds, vars child member ▸ agrees⟩
    · rintro ⟨child, member, holds, agrees⟩
      exact ⟨⟨child, member, holds⟩, vars child member ▸ agrees⟩
  have exclusive : children.Pairwise fun a b => ∀ σ, c.Models a literals σ → ¬ c.Models b literals σ := by
    have contradict := upToDate.contradict_of_deterministic inRange found worthy.deterministic
    refine (List.pairwise_filter.mp contradict).imp fun {a b} contradict σ left right => ?_
    have alive {child : NodeId} (model : c.Models child literals σ) : (!c.isFalse child) = true := by
      rw [Bool.not_eq_true', ← Bool.not_eq_true]
      exact fun false_ => not_satisfies_of_isFalse false_ model.1
    exact upToDate.exclusive_of_contradict inRange (contradict (alive left) (alive right)) left.1 right.1
  calc
    c.modelNumber id literals
    _ = countOver (c.varsOf id).toFinset fun σ => ∃ child ∈ children, c.Models child literals σ :=
      countOver_congr models
    _ = (children.map fun child => countOver (c.varsOf id).toFinset (c.Models child literals)).sum :=
      countOver_exists exclusive
    _ = (children.map fun child => c.modelNumber child literals).sum := by
      congr 1
      refine List.map_congr_left fun child member => ?_
      rw [modelNumber, vars child member]

/-- Renaming changes no count. -/
theorem modelNumber_mapping (covered : c.Covered) (found : c.gate? id = some (.mapping names child))
    (bounded : names.toLocal.Bounded)
    : c.modelNumber id literals
      = c.modelNumber child (literals.filterMap names.toLocal.image) := by
  obtain ⟨global, image, injective, vars⟩ := upToDate.exists_global found (covered found)
  rw [modelNumber, vars]
  refine @countOver_image _ _ _ global (fun _ => false) injective fun σ τ values => ?_
  rw [upToDate.models_mapping found bounded]
  refine upToDate.models_congr fun v inside => ?_
  rw [Renaming.pull_of_find? (image v inside), values v (SortedSet.mem_toFinset.mpr inside), Bool.xor_false]

theorem modelNumber_constant {value : Bool} (found : c.gate? id = some (.constant value))
    : c.modelNumber id literals = if value then 1 else 0 := by
  have empty : (c.varsOf id).toFinset = ∅ := Finset.eq_empty_of_forall_notMem fun v inside =>
    (upToDate.mem_varsOf found).mp (SortedSet.mem_toFinset.mp inside)
  rw [modelNumber, empty]
  cases value with
  | true => exact countOver_empty fun σ => (upToDate.models_constant found).mpr rfl
  | false => exact countOver_false fun σ model => Bool.noConfusion ((upToDate.models_constant found).mp model)

theorem modelNumber_literal {l : Lit} (proper : l.Proper) (found : c.gate? id = some (.literal l))
    : c.modelNumber id literals = if literals.contains (-l) then 0 else 1 := by
  have single : (c.varsOf id).toFinset = {l.var} := by
    ext v
    rw [SortedSet.mem_toFinset, upToDate.mem_varsOf found, Finset.mem_singleton]
    rfl
  rw [modelNumber, single]
  split
  · rename_i excluded
    refine countOver_false fun σ model => ((upToDate.models_literal proper found).mp model).2 ?_
    simpa using excluded
  · rename_i free
    rw [← countOver_literal l]
    refine countOver_congr fun σ => (upToDate.models_literal proper found).trans (and_iff_left ?_)
    simpa using free

omit upToDate in
/-- A leaf with clauses has the models of the clauses. -/
theorem modelNumber_clauses {clauses : Clauses} {count : Checked Nat}
    (holds : ∀ σ, c.Satisfies σ id ↔ clauses.TrueIn σ) (vars : c.varsOf id = clauses.vars)
    (counts : Counts count clauses (within (c.varsOf id) literals))
    : count = .ok (c.modelNumber id literals) := by
  rw [counts, modelNumber, vars]
  refine congrArg Except.ok (countOver_congr fun σ => ?_)
  rw [Models, holds, vars]
  refine and_congr_right fun _ => ⟨fun agrees l assumed inside => ?_, fun agrees l assumed => ?_⟩
  · refine agrees l (List.mem_filter.mpr ⟨assumed, ?_⟩) inside
    rwa [SortedSet.contains_iff]
  · exact agrees l (List.mem_filter.mp assumed).1

end UpToDate

-----------------------------------------------------------------------------------------
-- Free variables
-----------------------------------------------------------------------------------------

/-- What literals say about the variables outside a set depends on these variables. -/
theorem dependsOn_outside (vars : SortedSet Var)
    : DependsOn (fun σ : Assignment => ∀ l ∈ literals, ¬ l.var ∈ vars → Lit.TrueIn σ l)
        (((literals.map Lit.var).toFinset \ vars.toFinset : Finset Var) : Set Var) := by
  intro σ τ agree
  refine propext (forall_congr' fun l => forall_congr' fun member => forall_congr' fun outside => ?_)
  exact Lit.trueIn_congr (agree l.var (by
    rw [Finset.mem_coe, Finset.mem_sdiff, List.mem_toFinset, SortedSet.mem_toFinset]
    exact ⟨List.mem_map_of_mem member, outside⟩))

/-- Literals that can be assumed leave no choice for the variables that they mention. -/
theorem countOver_outside (admissible : Admissible literals) (vars : SortedSet Var)
    : countOver ((literals.map Lit.var).toFinset \ vars.toFinset)
        (fun σ => ∀ l ∈ literals, ¬ l.var ∈ vars → Lit.TrueIn σ l)
      = 1 := by
  have value {l : Lit} (member : l ∈ literals) : decide ((l.var : Lit) ∈ literals) = l.isPositive := by
    have self := Lit.signed_var (admissible.proper l member).1
    cases sign : l.isPositive with
    | true =>
        rw [sign] at self
        exact decide_eq_true (self ▸ member : (l.var : Lit) ∈ literals)
    | false =>
        rw [sign] at self
        refine decide_eq_false fun other => admissible.consistent _ other ?_
        have negative : -(l.var : Lit) = l := self
        rwa [negative]
  rw [← countOver_fixed fun v => decide ((v : Lit) ∈ literals)]
  refine countOver_congr fun σ => ?_
  simp only [Finset.mem_sdiff, List.mem_toFinset, List.mem_map, SortedSet.mem_toFinset, Lit.TrueIn]
  constructor
  · rintro each v ⟨⟨l, member, rfl⟩, outside⟩
    rw [each l member outside, value member]
  · intro each l member outside
    rw [each l.var ⟨⟨l, member, rfl⟩, outside⟩, value member]

/-- The models over any variables that extend an assumption: the variables that neither the node nor the
assumption mentions are free.
-/
theorem UpToDate.countOver_extending (upToDate : c.UpToDate) (admissible : Admissible literals)
    {V : Finset Var} (within : (c.varsOf id).toFinset ⊆ V) (mentioned : (literals.map Lit.var).toFinset ⊆ V)
    : countOver V (fun σ => (∀ l ∈ literals, Lit.TrueIn σ l) ∧ c.Satisfies σ id)
      = c.modelNumber id literals
        * 2 ^ (V.card - ((c.varsOf id).toFinset ∪ (literals.map Lit.var).toFinset).card) := by
  have split (σ : Assignment)
      : (∀ l ∈ literals, Lit.TrueIn σ l) ∧ c.Satisfies σ id
        ↔ c.Models id literals σ ∧ ∀ l ∈ literals, ¬ l.var ∈ c.varsOf id → Lit.TrueIn σ l := by
    unfold Models Agrees
    constructor
    · exact fun ⟨all, holds⟩ => ⟨⟨holds, fun l member _ => all l member⟩, fun l member _ => all l member⟩
    · rintro ⟨⟨holds, inside⟩, outside⟩
      refine ⟨fun l member => ?_, holds⟩
      by_cases there : l.var ∈ c.varsOf id
      · exact inside l member there
      · exact outside l member there
  have left : DependsOn (c.Models id literals) ((c.varsOf id).toFinset : Set Var) := upToDate.dependsOn_models
  have right := @dependsOn_outside literals (c.varsOf id)
  have product := countOver_and Finset.disjoint_sdiff left right
  rw [countOver_outside admissible, Nat.mul_one, Finset.union_sdiff_self_eq_union] at product
  have both : DependsOn
      (fun σ => c.Models id literals σ ∧ ∀ l ∈ literals, ¬ l.var ∈ c.varsOf id → Lit.TrueIn σ l)
      (((c.varsOf id).toFinset ∪ (literals.map Lit.var).toFinset : Finset Var) : Set Var) := by
    intro σ τ agree
    refine congrArg₂ And (left fun v inside => agree v ?_) (right fun v inside => agree v ?_)
    · exact Finset.mem_coe.mpr (Finset.mem_union_left _ inside)
    · exact Finset.mem_coe.mpr (Finset.mem_union_right _ (Finset.mem_sdiff.mp inside).1)
  rw [countOver_congr split, countOver_widen (Finset.union_subset within mentioned) both, product]
  rfl

end Circuit

-----------------------------------------------------------------------------------------
-- The walk
-----------------------------------------------------------------------------------------

namespace Build

theorem conjoin_count {value : NodeId → Outcome Nat} {number : NodeId → Nat}
    (each : ∀ child ∈ children, value child = .ok (number child)) (start : Nat)
    : combine countWalk.conjoin value children start = .ok (start * (children.map number).prod) := by
  induction children generalizing start with
  | nil => exact congrArg Except.ok (Nat.mul_one start).symm
  | cons child rest ih =>
      obtain ⟨here, later⟩ := List.forall_mem_cons.mp each
      rw [combine, here, List.map_cons, List.prod_cons, ← Nat.mul_assoc]
      show (if (start * number child == 0) = true then Except.ok (start * number child)
        else combine countWalk.conjoin value rest (start * number child)) = _
      split
      · rename_i zero
        rw [beq_iff_eq.mp zero, Nat.zero_mul]
      · exact ih later _

theorem disjoin_count {value : NodeId → Outcome Nat} {number : NodeId → Nat}
    (each : ∀ child ∈ children, value child = .ok (number child)) (start : Nat)
    : combine countWalk.disjoin value children start = .ok (start + (children.map number).sum) := by
  induction children generalizing start with
  | nil => rfl
  | cons child rest ih =>
      obtain ⟨here, later⟩ := List.forall_mem_cons.mp each
      rw [combine, here, List.map_cons, List.sum_cons, ← Nat.add_assoc]
      exact ih later _

/-- On a node with the three properties the walk comes to the number of models that agree with the
assumption; induction on the fuel.
-/
theorem count_answer (upToDate : c.UpToDate) (inRange : c.InRange) (covered : c.Covered)
    {fuel : Nat} (within : c.Within fuel id) (present : id < c.nodes.size)
    (admissible : Admissible literals) (worthy : c.Countworthy id)
    : countWalk.answer c fuel id literals marked = .ok (c.modelNumber id literals) := by
  induction fuel generalizing id literals marked with
  | zero => exact within.elim
  | succ fuel ih =>
      obtain ⟨here, found⟩ := Circuit.exists_node present
      have at_ := Circuit.gate?_of_node? found
      have vars := Circuit.varsOf_of_node? found
      have step : ∀ child ∈ here.gate.children, ∀ {literals} (marked), Admissible literals →
          countWalk.answer c fuel child literals marked = .ok (c.modelNumber child literals) :=
        fun child member {_} _ admissible => ih (within child ⟨here.gate, at_, member⟩)
          (upToDate.closed at_ child member) admissible (upToDate.countworthy_child at_ worthy member)
      cases gate : here.gate with
      | and children =>
          rw [gate] at step at_
          rw [Walk.answer_and found gate, upToDate.modelNumber_and at_ worthy]
          exact (conjoin_count (fun child member => step child member marked admissible) 1).trans
            (congrArg Except.ok (Nat.one_mul _))
      | or decision children =>
          rw [gate] at step at_
          rw [Walk.answer_or found gate, upToDate.modelNumber_or inRange at_ worthy]
          exact (disjoin_count (fun child member => step child member marked admissible) 0).trans
            (congrArg Except.ok (Nat.zero_add _))
      | mapping names child =>
          rw [gate] at step at_
          obtain ⟨-, bounded⟩ := inRange at_
          rw [Walk.answer_mapping found gate, upToDate.modelNumber_mapping covered at_ bounded]
          exact step child (by simp [Gate.children]) _ (admissible.image bounded names.toLocal_injective)
      | constant value =>
          rw [gate] at at_
          rw [Walk.answer_leaf found (by rw [Node.kind, gate]; rfl), gate, upToDate.modelNumber_constant at_]
          rfl
      | literal l =>
          rw [gate] at at_
          have proper : l.Proper := inRange at_
          rw [Walk.answer_leaf found (by rw [Node.kind, gate]; rfl), gate,
            upToDate.modelNumber_literal proper at_]
          simp only [countWalk, proper.negate]
          rfl
      | twoCnf formula =>
          rw [gate] at at_
          rw [Walk.answer_leaf found (by rw [Node.kind, gate]; rfl), gate, ← vars]
          refine congrArg Outcome.ofChecked (Circuit.UpToDate.modelNumber_clauses
            (fun σ => Circuit.satisfies_iff at_) (SortedSet.ext_mem fun v => upToDate.mem_varsOf at_) ?_)
          exact formula.modelCount_spec (inRange at_) (admissible.filter _)
      | horn formula =>
          rw [gate] at at_
          rw [Walk.answer_leaf found (by rw [Node.kind, gate]; rfl), gate, ← vars]
          refine congrArg Outcome.ofChecked (Circuit.UpToDate.modelNumber_clauses
            (fun σ => Circuit.satisfies_iff at_) (SortedSet.ext_mem fun v => upToDate.mem_varsOf at_) ?_)
          exact formula.modelCount_spec (inRange at_) (admissible.filter _)

theorem combine_ok {β : Type} {step : β → β → β × Bool} {value : NodeId → Outcome β}
    (each : ∀ child ∈ children, ∃ b, value child = .ok b) (start : β)
    : ∃ b, combine step value children start = .ok b := by
  induction children generalizing start with
  | nil => exact ⟨start, rfl⟩
  | cons child rest ih =>
      obtain ⟨⟨b, here⟩, later⟩ := List.forall_mem_cons.mp each
      rw [combine, here]
      show ∃ b', (if (step start b).2 = true then Except.ok (step start b).1
        else combine step value rest (step start b).1) = .ok b'
      split
      · exact ⟨_, rfl⟩
      · exact ih later _

/-- The walk comes to some number at every node, whatever its properties are; induction on the fuel. -/
theorem count_succeeds (upToDate : c.UpToDate) (inRange : c.InRange) {fuel : Nat} (within : c.Within fuel id)
    (present : id < c.nodes.size) (admissible : Admissible literals)
    : ∃ count, countWalk.answer c fuel id literals marked = .ok count := by
  induction fuel generalizing id literals marked with
  | zero => exact within.elim
  | succ fuel ih =>
      obtain ⟨here, found⟩ := Circuit.exists_node present
      have at_ := Circuit.gate?_of_node? found
      have step : ∀ child ∈ here.gate.children, ∀ {literals} (marked), Admissible literals →
          ∃ count, countWalk.answer c fuel child literals marked = .ok count :=
        fun child member {_} _ admissible => ih (within child ⟨here.gate, at_, member⟩)
          (upToDate.closed at_ child member) admissible
      cases gate : here.gate with
      | and children =>
          rw [gate] at step
          rw [Walk.answer_and found gate]
          exact combine_ok (fun child member => step child member marked admissible) _
      | or decision children =>
          rw [gate] at step
          rw [Walk.answer_or found gate]
          exact combine_ok (fun child member => step child member marked admissible) _
      | mapping names child =>
          rw [gate] at step at_
          rw [Walk.answer_mapping found gate]
          exact step child (by simp [Gate.children]) _ (admissible.image (inRange at_).2 names.toLocal_injective)
      | constant value =>
          rw [Walk.answer_leaf found (by rw [Node.kind, gate]; rfl), gate]
          exact ⟨_, rfl⟩
      | literal l =>
          rw [gate] at at_
          have proper : l.Proper := inRange at_
          rw [Walk.answer_leaf found (by rw [Node.kind, gate]; rfl), gate]
          simp only [countWalk, proper.negate]
          exact ⟨_, rfl⟩
      | twoCnf formula =>
          rw [gate] at at_
          rw [Walk.answer_leaf found (by rw [Node.kind, gate]; rfl), gate]
          exact ⟨_, congrArg Outcome.ofChecked (formula.modelCount_spec (inRange at_) (admissible.filter _))⟩
      | horn formula =>
          rw [gate] at at_
          rw [Walk.answer_leaf found (by rw [Node.kind, gate]; rfl), gate]
          exact ⟨_, congrArg Outcome.ofChecked (formula.modelCount_spec (inRange at_) (admissible.filter _))⟩

end Build

end KnowledgeCompiler
