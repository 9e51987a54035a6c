import KnowledgeCompiler.Proofs.Circuit.Cardinality
import KnowledgeCompiler.Proofs.Circuit.Counting
import KnowledgeCompiler.Proofs.Circuit.Requests
import KnowledgeCompiler.Proofs.Circuit.Satisfiability

/-! Queries are exact between requests.

Whatever has been asked of a circuit before, a query comes to what the models of the node say, if the node
has the properties that the query needs, all numbers are in range, and mapping nodes cover their children.
Remembered answers never show.
-/

namespace KnowledgeCompiler

open KnowledgeCompiler.Build
open KnowledgeCompiler.Action (outcome)

namespace Circuit

variable {c : Circuit} {s : Journaled Circuit} {id : NodeId} {node : Node}
variable {literals : List Lit} {marked : List Var} {clause : Clause}

-----------------------------------------------------------------------------------------
-- A run
-----------------------------------------------------------------------------------------

/-- Two variables under other names. -/
def renamedPair : Bijection where
  toGlobal := .ofList [(1, 3), (2, 4)]
  toLocal := .ofList [(3, 1), (4, 2)]
  toLocal_eq := by decide
  injective := by decide

/-- A run that makes the equivalence of two variables, also under other names, and asks about it. The last
request is refused.
-/
def equivalenceRun : List Request :=
  [.literal 2, .literal (-2), .decision 1 0 1, .mapping 6 renamedPair, .modelCount 7 [3] true,
    .isSatisfiable .asListed 7 [3, -4] [] true, .addEdge 6 7]

/-- The state after that run. -/
def equivalence : Journaled Circuit :=
  (Request.performAll equivalenceRun { state := .empty }).get (by decide +kernel)

theorem equivalence_reachable : equivalence.state.Reachable := by
  refine @Reachable.performAll equivalenceRun { state := .empty } equivalence .empty ?_
    (Option.some_get _).symm
  simp [equivalenceRun, Request.Small, Lit.var]

theorem equivalence_inRange : equivalence.state.InRange := by decide +kernel

theorem equivalence_covered : equivalence.state.Covered := by decide +kernel

/-- The node of the renamed equivalence. -/
theorem equivalence_node
    : ∃ node, equivalence.state.node? 7 = some node ∧ node.throughout = .all ∧ node.kind = .mapping := by
  have shape : (equivalence.state.node? 7).map (fun node => (node.throughout, node.kind))
      = some (.all, .mapping) := by decide +kernel
  obtain ⟨node, found, same⟩ := Option.map_eq_some_iff.mp shape
  exact ⟨node, found, congrArg Prod.fst same, congrArg Prod.snd same⟩

-----------------------------------------------------------------------------------------
-- Assumptions
-----------------------------------------------------------------------------------------

theorem assumable_ok (consistent : ∀ l ∈ literals, ¬ -l ∈ literals) : assumable literals = .ok () := by
  rw [assumable, complemented?_eq_none.mpr consistent]

/-- Literals without complements that are in range can be assumed. -/
theorem admissible_of_consistent (small : ∀ l ∈ literals, l.var < 2147483648)
    (consistent : ∀ l ∈ literals, ¬ -l ∈ literals)
    : Admissible literals := admissible_of_assumable small (assumable_ok consistent)

/-- The first variable that is assumed is the first one that a literal mentions; induction on the variables. -/
theorem assumed?_eq_find? {vars : List Var} (bounded : ∀ v ∈ vars, v < 2147483648)
    : assumed? literals vars = .ok (vars.find? fun v => literals.any fun l => l.var == v) := by
  induction vars with
  | nil => rfl
  | cons v rest ih =>
      obtain ⟨small, bounded⟩ := List.forall_mem_cons.mp bounded
      rw [assumed?, Restriction.valueOf_ok small, List.find?_cons, ← Restriction.isSome_value]
      change (if (Restriction.value literals v).isSome = true then _ else _) = _
      cases (Restriction.value literals v).isSome with
      | true => rfl
      | false => exact ih bounded

section Visits

variable (visits : VisitOrder Var)

theorem mem_visited {v : Var} : v ∈ visits.visit (SortedSet.ofList marked).toList ↔ v ∈ marked := by
  rw [(visits.perm _).mem_iff, SortedSet.mem_toList, SortedSet.mem_ofList]

/-- In whatever order they are visited, no quantified variable is assumed if no literal mentions one. -/
theorem assumed?_visited_eq_none (bounded : ∀ v ∈ marked, v < 2147483648)
    (disjoint : ∀ l ∈ literals, ¬ l.var ∈ marked)
    : assumed? literals (visits.visit (SortedSet.ofList marked).toList) = .ok none := by
  rw [assumed?_eq_find? fun v member => bounded v ((mem_visited visits).mp member), List.find?_eq_none.mpr]
  intro v member mentioned
  obtain ⟨l, inside, same⟩ := List.any_eq_true.mp mentioned
  exact disjoint l inside (beq_iff_eq.mp same ▸ (mem_visited visits).mp member)

end Visits

/-- A node has a model that extends an assumption if it has one that agrees with it on its variables. -/
theorem UpToDate.exists_models_iff (upToDate : c.UpToDate) (admissible : Admissible literals)
    : (∃ σ, c.Models id literals σ) ↔ ∃ σ, (∀ l ∈ literals, Lit.TrueIn σ l) ∧ c.Satisfies σ id := by
  constructor
  · rintro ⟨σ, holds, agrees⟩
    obtain ⟨τ, extending, same⟩ := admissible.exists_extending agrees
    exact ⟨τ, extending, (upToDate.satisfies_congr same).mpr holds⟩
  · rintro ⟨σ, extending, holds⟩
    exact ⟨σ, holds, fun l member _ => extending l member⟩

-----------------------------------------------------------------------------------------
-- Counting
-----------------------------------------------------------------------------------------

/-- Counting stops at the first property that the node lacks. -/
theorem countOutcome_of_admissible (found : c.node? id = some node) (admissible : Admissible literals)
    : countOutcome c id literals
      = if node.throughout.decomposable = false then .error (.error (.notDecomposable id))
        else if node.throughout.deterministic = false then .error (.error (.notDeterministic id))
        else if node.throughout.smooth = false then .error (.error (.notSmooth id))
        else countWalk.plain c id literals [] := by
  have start : countOutcome c id literals = (do
      countable id node.throughout
      countWalk.plain c id literals []) := by
    rw [countOutcome, assumable_ok admissible.consistent, found]
    rfl
  rw [start, countable]
  cases node.throughout.decomposable with
  | false => rfl
  | true =>
      cases node.throughout.deterministic with
      | false => rfl
      | true =>
          cases node.throughout.smooth with
          | false | true => rfl

/-- What counting comes to when the assumption has no complementary pair. -/
theorem UpToDate.countOutcome_eq (upToDate : c.UpToDate) (inRange : c.InRange) (covered : c.Covered)
    (found : c.node? id = some node) (admissible : Admissible literals)
    : countOutcome c id literals
      = if node.throughout.decomposable = false then .error (.error (.notDecomposable id))
        else if node.throughout.deterministic = false then .error (.error (.notDeterministic id))
        else if node.throughout.smooth = false then .error (.error (.notSmooth id))
        else .ok (c.modelNumber id literals) := by
  rw [countOutcome_of_admissible found admissible]
  have throughout := throughoutOf_of_node? found
  refine if_ctx_congr Iff.rfl (fun _ => rfl) fun decomposable => ?_
  refine if_ctx_congr Iff.rfl (fun _ => rfl) fun deterministic => ?_
  refine if_ctx_congr Iff.rfl (fun _ => rfl) fun smooth => ?_
  rw [Bool.not_eq_false, ← throughout] at decomposable deterministic smooth
  exact count_answer upToDate inRange covered (within_size upToDate id) (lt_of_node? found) admissible
    ⟨decomposable, deterministic, smooth⟩

/-- What counting over the variables up to a bound comes to. -/
theorem UpToDate.countOverOutcome_eq (upToDate : c.UpToDate) (inRange : c.InRange) (covered : c.Covered)
    (present : id < c.nodes.size) (worthy : c.Countworthy id) (admissible : Admissible literals)
    {variableCount : Nat} (within : ∀ v, v ∈ c.varsOf id → v ≤ variableCount)
    (mentioned : ∀ l ∈ literals, l.var ≤ variableCount)
    : countOverOutcome c id literals variableCount
      = .ok (countOver (.Icc 1 variableCount) fun σ =>
          (∀ l ∈ literals, Lit.TrueIn σ l) ∧ c.Satisfies σ id) := by
  obtain ⟨node, found⟩ := c.exists_node present
  have throughout := throughoutOf_of_node? found
  have count : countOutcome c id literals = .ok (c.modelNumber id literals) := by
    rw [upToDate.countOutcome_eq inRange covered found admissible]
    rw [← throughout, worthy.decomposable, worthy.deterministic, worthy.smooth]
    rfl
  have below : (c.varsOf id).toFinset ⊆ .Icc 1 variableCount := by
    intro v inside
    have member := SortedSet.mem_toFinset.mp inside
    exact Finset.mem_Icc.mpr ⟨(upToDate.vars_bound inRange member).1, within v member⟩
  have named : (literals.map Lit.var).toFinset ⊆ .Icc 1 variableCount := by
    intro v inside
    obtain ⟨l, member, rfl⟩ := List.mem_map.mp (List.mem_toFinset.mp inside)
    exact Finset.mem_Icc.mpr ⟨Lit.var_pos (admissible.proper l member), mentioned l member⟩
  have free : freeCount c id literals variableCount
      = (Finset.Icc 1 variableCount).card
        - ((c.varsOf id).toFinset ∪ (literals.map Lit.var).toFinset).card := by
    have whole : ((c.varsOf id).union (SortedSet.ofList (literals.map Lit.var))).toFinset
        = (c.varsOf id).toFinset ∪ (literals.map Lit.var).toFinset := by
      ext v
      simp
    have all : ∀ v ∈ ((c.varsOf id).union (SortedSet.ofList (literals.map Lit.var))).toList,
        (decide (1 ≤ v) && decide (v ≤ variableCount)) = true := by
      intro v inside
      have member := Finset.union_subset below named (whole ▸ SortedSet.mem_toFinset.mpr inside)
      simpa using member
    rw [freeCount, List.countP_eq_length.mpr all, ← whole, SortedSet.card_toFinset, Nat.card_Icc]
    rfl
  rw [upToDate.countOver_extending admissible below named, countOverOutcome, count, ← free, ← Nat.shiftLeft_eq]
  rfl

/-- Counting stops at a complementary pair of the assumption, then at the first property that the node
lacks, and otherwise is exact: it comes to the number of assignments of the variables of the node that
satisfy the node and agree with the assumption.
-/
theorem Reachable.modelCount_exact (reachable : s.state.Reachable) (inRange : s.state.InRange)
    (covered : s.state.Covered) (found : s.state.node? id = some node)
    (small : ∀ l ∈ literals, l.var < 2147483648) (memoize : Bool)
    : ((∃ v, outcome (modelCount id literals memoize) s = .error (.error (.complementaryLiterals v)))
        ↔ ∃ l ∈ literals, -l ∈ literals)
      ∧ ((∀ l ∈ literals, ¬ -l ∈ literals)
        → outcome (modelCount id literals memoize) s
          = if node.throughout.decomposable = false then .error (.error (.notDecomposable id))
            else if node.throughout.deterministic = false then .error (.error (.notDeterministic id))
            else if node.throughout.smooth = false then .error (.error (.notSmooth id))
            else .ok (countOver node.vars.toFinset fun σ =>
              s.state.Satisfies σ id ∧ Agrees literals node.vars σ)) := by
  have upToDate := reachable.consistent.upToDate
  have computed : outcome (modelCount id literals memoize) s = countOutcome s.state id literals :=
    (modelCount_computes upToDate inRange memoize small).outcome_eq (reachable.asked inRange)
  have clean (consistent : ∀ l ∈ literals, ¬ -l ∈ literals) :=
    upToDate.countOutcome_eq inRange covered found (admissible_of_consistent small consistent)
  refine ⟨⟨?_, ?_⟩, fun consistent => ?_⟩
  · rintro ⟨v, stopped⟩
    by_contra none_
    have consistent : ∀ l ∈ literals, ¬ -l ∈ literals := fun l member other => none_ ⟨l, member, other⟩
    rw [computed, clean consistent] at stopped
    split_ifs at stopped <;> simp at stopped
  · rintro ⟨l, member, other⟩
    obtain ⟨k, first⟩ : ∃ k, complemented? literals = some k := by
      rw [← Option.isSome_iff_exists, Option.isSome_iff_ne_none]
      exact fun none_ => complemented?_eq_none.mp none_ l member other
    refine ⟨k.var, ?_⟩
    rw [computed, countOutcome, assumable, first]
    rfl
  · rw [computed, clean consistent, modelNumber, varsOf_of_node? found]
    unfold Models
    rw [varsOf_of_node? found]

/-- The renamed equivalence is counted exactly where its first variable is true. -/
theorem modelCount_exact_equivalence
    : ∃ node, equivalence.state.node? 7 = some node
      ∧ outcome (modelCount 7 [3] true) equivalence
        = .ok (countOver node.vars.toFinset fun σ =>
          equivalence.state.Satisfies σ 7 ∧ Agrees [3] node.vars σ) := by
  obtain ⟨node, found, throughout, _⟩ := equivalence_node
  have small : ∀ l ∈ ([3] : List Lit), l.var < 2147483648 := by decide
  have counted := (equivalence_reachable.modelCount_exact equivalence_inRange equivalence_covered found small
    true).2 (by decide)
  rw [throughout] at counted
  exact ⟨node, found, counted⟩

-----------------------------------------------------------------------------------------
-- Satisfiability and entailment
-----------------------------------------------------------------------------------------

/-- What satisfiability of a decomposable node comes to. The quantified variables do not matter. -/
theorem UpToDate.satisfiableOutcome_spec (upToDate : c.UpToDate) (inRange : c.InRange) (covered : c.Covered)
    (found : c.node? id = some node) (decomposable : node.throughout.decomposable = true)
    (admissible : Admissible literals) (bounded : ∀ v ∈ marked, v < 2147483648)
    (disjoint : ∀ l ∈ literals, ¬ l.var ∈ marked) (visits : VisitOrder Var)
    : ∃ answer, satisfiableOutcome visits c id literals marked = .ok answer
      ∧ (answer = true ↔ ∃ σ, (∀ l ∈ literals, Lit.TrueIn σ l) ∧ c.Satisfies σ id) := by
  obtain ⟨answer, walked, exact_⟩ := @satisfiable_answer c id literals marked upToDate inRange covered _
    (within_size upToDate id) (lt_of_node? found) admissible (by rw [throughoutOf_of_node? found, decomposable])
  refine ⟨answer, ?_, exact_.trans (upToDate.exists_models_iff admissible)⟩
  rw [satisfiableOutcome, assumable_ok admissible.consistent, assumed?_visited_eq_none visits bounded disjoint]
  exact walked

/-- Satisfiability of an inner node that is not decomposable is refused. -/
theorem satisfiableOutcome_refused (found : c.node? id = some node)
    (refused : node.throughout.decomposable = false)
    (inner : node.kind = .and ∨ node.kind = .or ∨ node.kind = .mapping)
    (consistent : ∀ l ∈ literals, ¬ -l ∈ literals) (bounded : ∀ v ∈ marked, v < 2147483648)
    (disjoint : ∀ l ∈ literals, ¬ l.var ∈ marked) (visits : VisitOrder Var)
    : satisfiableOutcome visits c id literals marked = .error (.error (.notDecomposable id)) := by
  have check : satisfiableWalk.check id node.throughout = .error (.error (.notDecomposable id)) := by
    simp [satisfiableWalk, refused]
  have walked : satisfiableWalk.plain c id literals marked = .error (.error (.notDecomposable id)) := by
    unfold Walk.plain
    cases gate : node.gate <;> simp [Node.kind, Gate.kind, gate] at inner
    · rw [Walk.answer_and found gate, check]
      rfl
    · rw [Walk.answer_or found gate, check]
      rfl
    · rw [Walk.answer_mapping found gate, check]
      rfl
  rw [satisfiableOutcome, assumable_ok consistent, assumed?_visited_eq_none visits bounded disjoint]
  exact walked

/-- What entailment of a clause by a decomposable node comes to. -/
theorem UpToDate.entailsOutcome_spec (upToDate : c.UpToDate) (inRange : c.InRange) (covered : c.Covered)
    (found : c.node? id = some node) (decomposable : node.throughout.decomposable = true)
    (proper : ∀ l ∈ clause, l.Proper)
    : ∃ answer, entailsOutcome c id clause = .ok answer
      ∧ (answer = true ↔ ∀ σ, c.Satisfies σ id → Clause.TrueIn σ clause) := by
  by_cases tautological : ∃ l ∈ clause, -l ∈ clause
  · obtain ⟨l, member, other⟩ := tautological
    refine ⟨true, ?_, iff_of_true rfl fun σ _ => ?_⟩
    · rw [entailsOutcome, if_pos]
      exact List.any_eq_true.mpr ⟨l, member, List.contains_iff_mem.mpr other⟩
    · by_cases holds : Lit.TrueIn σ l
      · exact ⟨l, member, holds⟩
      · exact ⟨-l, other, (Lit.trueIn_neg (proper l member).1).mpr holds⟩
  · have admissible : Admissible (clause.map (- ·)) := by
      refine ⟨fun k member => ?_, fun k member other => ?_⟩
      · obtain ⟨l, inside, rfl⟩ := List.mem_map.mp member
        exact (proper l inside).neg
      · obtain ⟨l, inside, rfl⟩ := List.mem_map.mp member
        obtain ⟨m, inside', same⟩ := List.mem_map.mp other
        exact tautological ⟨l, inside, neg_injective same ▸ inside'⟩
    obtain ⟨answer, asked, exact_⟩ := @satisfiableOutcome_spec c id node _ [] upToDate inRange covered found
      decomposable admissible (by simp) (by simp) .asListed
    refine ⟨!answer, ?_, ?_⟩
    · rw [entailsOutcome, if_neg (by simpa using tautological), asked]
      rfl
    · -- a model that makes the negated literals true is one that makes the clause false
      have refutes (σ : Assignment)
          : (∀ k ∈ clause.map (- ·), Lit.TrueIn σ k) ↔ ¬ Clause.TrueIn σ clause := by
        unfold Clause.TrueIn
        rw [List.forall_mem_map, not_exists]
        refine forall_congr' fun l => ?_
        rw [not_and]
        exact forall_congr' fun member => Lit.trueIn_neg (proper l member).1
      rw [Bool.not_eq_true', ← Bool.not_eq_true, exact_, not_exists]
      refine forall_congr' fun σ => ?_
      rw [refutes, not_and', not_not]

/-- Satisfiability and entailment are exact on decomposable nodes, whatever variables are quantified besides
the assumed ones, and in whatever order they are visited; and satisfiability is refused on other conjunctions,
disjunctions and renamings.
-/
theorem Reachable.satisfiability_exact (reachable : s.state.Reachable) (inRange : s.state.InRange)
    (covered : s.state.Covered) (found : s.state.node? id = some node)
    (small : ∀ l ∈ literals, l.var < 2147483648) (consistent : ∀ l ∈ literals, ¬ -l ∈ literals)
    (bounded : ∀ v ∈ marked, v < 2147483648) (disjoint : ∀ l ∈ literals, ¬ l.var ∈ marked)
    (proper : ∀ l ∈ clause, l.Proper) (visits : VisitOrder Var) (memoize : Bool)
    : (node.throughout.decomposable = true
        → (∃ answer, outcome (isSatisfiableBy visits id literals marked memoize) s = .ok answer
            ∧ (answer = true ↔ ∃ σ, (∀ l ∈ literals, Lit.TrueIn σ l) ∧ s.state.Satisfies σ id))
          ∧ ∃ answer, outcome (entails id clause) s = .ok answer
            ∧ (answer = true ↔ ∀ σ, s.state.Satisfies σ id → Clause.TrueIn σ clause))
      ∧ (node.throughout.decomposable = false
        → node.kind = .and ∨ node.kind = .or ∨ node.kind = .mapping
        → outcome (isSatisfiableBy visits id literals marked memoize) s = .error (.error (.notDecomposable id))) := by
  have upToDate := reachable.consistent.upToDate
  have asked := reachable.asked inRange
  have admissible := admissible_of_consistent small consistent
  have computed : outcome (isSatisfiableBy visits id literals marked memoize) s
      = satisfiableOutcome visits s.state id literals marked :=
    (isSatisfiableBy_computes upToDate inRange memoize small visits).outcome_eq asked
  have computed' : outcome (entails id clause) s = entailsOutcome s.state id clause :=
    (entails_computes upToDate inRange proper).outcome_eq asked
  rw [computed, computed']
  refine ⟨fun decomposable => ⟨?_, ?_⟩, fun refused inner => ?_⟩
  · exact upToDate.satisfiableOutcome_spec inRange covered found decomposable admissible bounded disjoint visits
  · exact upToDate.entailsOutcome_spec inRange covered found decomposable proper
  · exact satisfiableOutcome_refused found refused inner consistent bounded disjoint visits

/-- The renamed equivalence is satisfiable where its first variable is true and the second is false just if
an assignment says so, and it entails that one of them implies the other just if all models do.
-/
theorem satisfiability_exact_equivalence
    : (∃ answer, outcome (isSatisfiable 7 [3, -4] [5] true) equivalence = .ok answer
        ∧ (answer = true ↔ ∃ σ, (∀ l ∈ [3, -4], Lit.TrueIn σ l) ∧ equivalence.state.Satisfies σ 7))
      ∧ ∃ answer, outcome (entails 7 [-3, 4]) equivalence = .ok answer
        ∧ (answer = true ↔ ∀ σ, equivalence.state.Satisfies σ 7 → Clause.TrueIn σ [-3, 4]) := by
  obtain ⟨node, found, throughout, _⟩ := equivalence_node
  have small : ∀ l ∈ ([3, -4] : List Lit), l.var < 2147483648 := by decide
  have bounded : ∀ v ∈ ([5] : List Var), v < 2147483648 := by decide
  have proper : ∀ l ∈ ([-3, 4] : List Lit), l.Proper := by decide
  have exact_ := equivalence_reachable.satisfiability_exact equivalence_inRange equivalence_covered found small
    (by decide) bounded (by decide) proper .asListed true
  exact exact_.1 (by rw [throughout]; rfl)

/-- Where a quantified variable is assumed, satisfiability is refused. The order of the visits shows in nothing but the
variable that the refusal names, which is one of those.
-/
theorem Reachable.overlap_refused (reachable : s.state.Reachable) (inRange : s.state.InRange)
    (small : ∀ l ∈ literals, l.var < 2147483648) (consistent : ∀ l ∈ literals, ¬ -l ∈ literals)
    (bounded : ∀ v ∈ marked, v < 2147483648) (overlap : ∃ l ∈ literals, l.var ∈ marked) (visits : VisitOrder Var)
    (id : NodeId) (memoize : Bool)
    : ∃ v ∈ marked, (∃ l ∈ literals, l.var = v)
      ∧ outcome (isSatisfiableBy visits id literals marked memoize) s
        = .error (.error (.assumptionNotDisjoint v)) := by
  obtain ⟨l, member, inside⟩ := overlap
  have bounded' : ∀ v ∈ visits.visit (SortedSet.ofList marked).toList, v < 2147483648 := fun v visited =>
    bounded v ((mem_visited visits).mp visited)
  obtain ⟨v, first⟩ : ∃ v, (visits.visit (SortedSet.ofList marked).toList).find?
      (fun v => literals.any fun l => l.var == v) = some v := by
    refine Option.isSome_iff_exists.mp (List.find?_isSome.mpr ⟨l.var, (mem_visited visits).mpr inside, ?_⟩)
    exact List.any_eq_true.mpr ⟨l, member, beq_self_eq_true _⟩
  have mentioned := List.find?_some first
  simp only [List.any_eq_true, beq_iff_eq] at mentioned
  refine ⟨v, (mem_visited visits).mp (List.mem_of_find?_eq_some first), mentioned, ?_⟩
  rw [(isSatisfiableBy_computes reachable.consistent.upToDate inRange memoize small visits).outcome_eq
      (reachable.asked inRange), satisfiableOutcome, assumable_ok consistent, assumed?_eq_find? bounded', first]
  rfl

-----------------------------------------------------------------------------------------
-- Minimum default cardinality
-----------------------------------------------------------------------------------------

/-- On a decomposable node without formula leaves below, the minimum default cardinality is the least number
of default variables, among those that the observation leaves open, that an assignment makes false if it
satisfies the node and extends the observation. It is infinite if there is no such assignment.
-/
theorem Reachable.minimumCardinality_exact (reachable : s.state.Reachable) (inRange : s.state.InRange)
    (covered : s.state.Covered) (found : s.state.node? id = some node)
    (decomposable : node.throughout.decomposable = true) (free : s.state.FormulaFree id)
    (small : ∀ l ∈ literals, l.var < 2147483648) (consistent : ∀ l ∈ literals, ¬ -l ∈ literals)
    (defaults : List Var) (memoize : Bool)
    : ∃ answer, outcome (minimumCardinality id literals defaults memoize) s = .ok answer
      ∧ IsLeastCost (fun σ => (∀ l ∈ literals, Lit.TrueIn σ l) ∧ s.state.Satisfies σ id)
        (fun σ => (defaults.toFinset.filter fun v => (∀ l ∈ literals, l.var ≠ v) ∧ σ v = false).card)
        answer := by
  have upToDate := reachable.consistent.upToDate
  have admissible := admissible_of_consistent small consistent
  have computed : outcome (minimumCardinality id literals defaults memoize) s
      = cardinalityOutcome s.state id literals defaults :=
    (minimumCardinality_computes upToDate inRange memoize small).outcome_eq (reachable.asked inRange)
  obtain ⟨answer, walked, least⟩ := @cardinality_answer s.state id literals defaults upToDate inRange covered _
    (within_size upToDate id) (lt_of_node? found) admissible (by rw [throughoutOf_of_node? found, decomposable])
    free
  refine ⟨answer, ?_, ?_⟩
  · rw [computed, cardinalityOutcome, assumable_ok consistent, found]
    show (if node.throughout.decomposable = true then _ else _) = _
    rw [if_pos decomposable]
    exact walked
  · -- over all variables that are mentioned, agreeing with the observation is extending it
    let V := SortedSet.ofList ((s.state.varsOf id).toList ++ defaults ++ literals.map Lit.var)
    have widened := upToDate.leastLowered_widen (V := V) admissible
      (fun v inside => by simp [V, SortedSet.mem_toList.mpr inside]) least
    have extends_ (σ : Assignment) : Agrees literals V σ ↔ ∀ l ∈ literals, Lit.TrueIn σ l :=
      forall_congr' fun l => forall_congr' fun member => by
        have inside : l.var ∈ V := by simp only [V, SortedSet.mem_ofList]; simp; grind
        exact ⟨fun agrees => agrees inside, fun holds _ => holds⟩
    have cost (σ : Assignment) : loweredAmong V.toFinset literals defaults σ
        = (defaults.toFinset.filter fun v => (∀ l ∈ literals, l.var ≠ v) ∧ σ v = false).card := by
      refine congrArg Finset.card (Finset.ext fun v => ?_)
      simp only [Finset.mem_filter, SortedSet.mem_toFinset, List.mem_toFinset, Lowered]
      have inside : v ∈ defaults → v ∈ V := fun member => by simp [V, member]
      tauto
    refine widened.transfer (fun σ holds => ⟨σ, ⟨(extends_ σ).mp holds.2, holds.1⟩, (cost σ).ge⟩) fun σ holds => ?_
    exact ⟨σ, ⟨holds.2, (extends_ σ).mpr holds.1⟩, (cost σ).le⟩

/-- The least number of false variables in a model of the renamed equivalence whose first variable is false;
only the second one counts.
-/
theorem minimumCardinality_exact_equivalence
    : let observation : List Lit := [-3]
      ∃ answer, outcome (minimumCardinality 7 observation [3, 4] true) equivalence = .ok answer
        ∧ IsLeastCost (fun σ => (∀ l ∈ observation, Lit.TrueIn σ l) ∧ equivalence.state.Satisfies σ 7)
          (fun σ => ([3, 4].toFinset.filter fun v => (∀ l ∈ observation, l.var ≠ v) ∧ σ v = false).card)
          answer := by
  intro observation
  obtain ⟨node, found, throughout, _⟩ := equivalence_node
  have decomposable : node.throughout.decomposable = true := by rw [throughout]; rfl
  have free : equivalence.state.FormulaFree 7 := formulaFree_of_all (by decide +kernel)
  exact equivalence_reachable.minimumCardinality_exact equivalence_inRange equivalence_covered found
    decomposable free (by decide) (by decide) [3, 4] true

-----------------------------------------------------------------------------------------
-- Remembered answers
-----------------------------------------------------------------------------------------

/-- Remembered answers never show: at any point of any run, a query comes to the same whether it may look
answers up and remember them or not. Quantified variables are visited in any order.
-/
theorem Reachable.memoization_invisible (reachable : s.state.Reachable) (inRange : s.state.InRange)
    (small : ∀ l ∈ literals, l.var < 2147483648) (visits : VisitOrder Var) (id : NodeId) (marked : List Var)
    (memoize : Bool)
    : outcome (isSatisfiableBy visits id literals marked memoize) s
        = outcome (isSatisfiableBy visits id literals marked false) s
      ∧ outcome (modelCount id literals memoize) s = outcome (modelCount id literals false) s
      ∧ outcome (minimumCardinality id literals marked memoize) s
        = outcome (minimumCardinality id literals marked false) s := by
  have upToDate := reachable.consistent.upToDate
  have asked := reachable.asked inRange
  have satisfiable (memoize : Bool) :=
    (@isSatisfiableBy_computes s.state id literals marked upToDate inRange memoize small visits).outcome_eq asked
  have count (memoize : Bool) :=
    (@modelCount_computes s.state id literals upToDate inRange memoize small).outcome_eq asked
  have cardinality (memoize : Bool) :=
    (@minimumCardinality_computes s.state id literals marked upToDate inRange memoize small).outcome_eq asked
  exact ⟨(satisfiable memoize).trans (satisfiable false).symm, (count memoize).trans (count false).symm,
    (cardinality memoize).trans (cardinality false).symm⟩

/-- The run has remembered an answer at the renamed equivalence, and it does not show. -/
theorem memoization_invisible_equivalence
    : outcome (isSatisfiable 7 [3, -4] [] true) equivalence = outcome (isSatisfiable 7 [3, -4] [] false) equivalence
      ∧ outcome (modelCount 7 [3, -4] true) equivalence = outcome (modelCount 7 [3, -4] false) equivalence
      ∧ outcome (minimumCardinality 7 [3, -4] [] true) equivalence
        = outcome (minimumCardinality 7 [3, -4] [] false) equivalence :=
  equivalence_reachable.memoization_invisible equivalence_inRange (by decide) .asListed 7 [] true

end Circuit

end KnowledgeCompiler
