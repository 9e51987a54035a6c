import KnowledgeCompiler.Proofs.TwoSat.Search

/-! Satisfiability of clauses with at most two literals.

The strongly connected components of the implication graph are numbered along the implications: numbers
ascend along the edges, and nodes with the same number reach each other. So a literal that implies its
complement has the smaller number of the two, and making the literals with the larger numbers true
satisfies the clauses.
-/

namespace KnowledgeCompiler.TwoSat

-----------------------------------------------------------------------------------------
-- Component numbers
-----------------------------------------------------------------------------------------

/-- The two sides of an implication graph are opposite to each other and stay among the nodes. -/
structure ImplicationGraph.Consistent (graph : ImplicationGraph) : Prop where
  sizes : graph.implying.size = graph.implied.size
  bounded : ∀ {i j}, Arrow graph.implied i j → i < graph.implied.size ∧ j < graph.implied.size
  opposite : ∀ {i j}, Arrow graph.implying j i ↔ Arrow graph.implied i j

variable {graph : ImplicationGraph}

theorem ImplicationGraph.Consistent.reaches (consistent : graph.Consistent) {i j : Nat}
    (path : Reaches graph.implying i j)
    : Reaches graph.implied j i := by
  induction path with
  | refl => exact .refl
  | tail _ arrow ih => exact .head (consistent.opposite.mp arrow) ih

/-- What numbering has done when some nodes have been looked at: the numbers are below the counter,
ascend along the implications, and are shared by nodes that reach each other only.
-/
structure Numbering (graph : ImplicationGraph) (looked : List Nat) (labels : Array (Option Nat))
    (counter : Nat) : Prop where
  size : labels.size = graph.implied.size
  below : ∀ {i k : Nat}, labels[i]? = some (some k) → k < counter
  ascending
    : ∀ {i j k : Nat},
        labels[j]? = some (some k)
        → Arrow graph.implied i j
        → ∃ m, labels[i]? = some (some m) ∧ m ≤ k
  alike
    : ∀ {i j k : Nat},
        labels[i]? = some (some k)
        → labels[j]? = some (some k)
        → Reaches graph.implied i j
  seen : ∀ i ∈ looked, i < graph.implied.size → Labelled labels i

variable {looked : List Nat} {labels : Array (Option Nat)} {counter : Nat}

/-- What leads to a numbered node is numbered. -/
theorem Numbering.labelled_of_reaches (numbering : Numbering graph looked labels counter) {i j : Nat}
    (path : Reaches graph.implied i j) (labelled : Labelled labels j)
    : Labelled labels i := by
  induction path using Relation.ReflTransGen.head_induction_on with
  | refl => exact labelled
  | head arrow _ ih =>
      obtain ⟨k, found⟩ := ih
      obtain ⟨m, before, _⟩ := numbering.ascending found arrow
      exact ⟨m, before⟩

/-- What comes before an element of a list without repetitions is in the part in front of it. -/
theorem mem_of_before {order looked rest : List Nat} {start w : Nat} (nodup : order.Nodup)
    (parts : order = looked ++ start :: rest) (before : Before order w start) (differ : w ≠ start)
    : w ∈ looked := by
  obtain ⟨front, later, split, member⟩ := before
  obtain ⟨mid, last, rfl⟩ := List.append_of_mem ((List.mem_cons.mp member).resolve_left (Ne.symm differ))
  rw [parts] at split nodup
  have whole : looked ++ start :: rest = (front ++ w :: mid) ++ start :: last := by simpa using split
  have left : start ∉ looked := fun bad => (List.nodup_append.mp nodup).2.2 start bad start (by simp) rfl
  have right : start ∉ rest := (List.nodup_cons.mp (List.nodup_append.mp nodup).2.1).1
  rw [((List.append_cons_inj_of_notMem left right).mp whole).1]
  simp

section Step

variable {start : Nat} {rest : List Nat} {after : Array (Option Nat)} (consistent : graph.Consistent)
  (numbering : Numbering graph looked labels counter) (open_ : labels[start]? = some none)
  (spreading : Spreading graph.implying counter start (graph.implying.getD start [])
    (labels.setIfInBounds start (some counter)) after)

include consistent numbering in
/-- The start leads back to an open node that leads to it: otherwise a node that goes both ways with the open one
would have come earlier in the order, and the open one would have a number.
-/
theorem Numbering.reaches_back (order : finishingOrder graph.implied = looked ++ start :: rest) {i : Nat}
    (none_ : labels[i]? = some none) (path : Reaches graph.implied i start)
    : Reaches graph.implied start i := by
  have there : i < graph.implied.size := by
    rw [← numbering.size]
    exact (Array.getElem?_eq_some_iff.mp none_).1
  obtain ⟨nodup, _, ordered⟩ := finishingOrder_spec graph.implied fun arrow => (consistent.bounded arrow).2
  obtain ⟨w, forth, back, before⟩ := ordered there path
  by_cases same : w = start
  · exact same ▸ back
  · have early : w ∈ looked := mem_of_before nodup order before same
    have inner : w < graph.implied.size := by
      rcases Relation.ReflTransGen.cases_tail forth with same | ⟨b, _, arrow⟩
      · exact same ▸ there
      · exact (consistent.bounded arrow).2
    exact absurd (numbering.labelled_of_reaches forth (numbering.seen w early inner))
      (not_labelled_of_none none_)

include open_ in
/-- Only the start gets a number before the new one spreads. -/
theorem getElem?_number_start {i : Nat}
    : (labels.setIfInBounds start (some counter))[i]? = if i = start then some (some counter) else labels[i]? := by
  have inside : start < labels.size := (Array.getElem?_eq_some_iff.mp open_).1
  rw [Array.getElem?_setIfInBounds]
  by_cases same : i = start
  · simp [same, inside]
  · simp [same, Ne.symm same]

include open_ spreading

theorem Spreading.keeps_numbers {i k : Nat} (found : labels[i]? = some (some k)) : after[i]? = some (some k) := by
  have differ : i ≠ start := fun same => by simp [same, open_] at found
  refine spreading.kept ?_
  rwa [getElem?_number_start open_, if_neg differ]

include consistent in
/-- A number is an old one, or the new one on the start or on a node that leads to it. -/
theorem Spreading.origin {i k : Nat} (found : after[i]? = some (some k))
    : labels[i]? = some (some k) ∨ k = counter ∧ labels[i]? = some none ∧ Reaches graph.implied i start := by
  have numbered {i : Nat} : (labels.setIfInBounds start (some counter))[i]? = _ := getElem?_number_start open_
  by_cases same : i = start
  · subst same
    rw [spreading.kept (numbered.trans (if_pos rfl))] at found
    exact .inr ⟨(Option.some.inj (Option.some.inj found)).symm, open_, .refl⟩
  · have there : i < labels.size := by
      have inside := (Array.getElem?_eq_some_iff.mp found).1
      rwa [spreading.size, Array.size_setIfInBounds] at inside
    rcases none_or_labelled there with none_ | ⟨m, old⟩
    · have unset := (numbered.trans (if_neg same)).trans none_
      exact .inr ⟨spreading.fresh unset found, none_,
        consistent.reaches (spreading.reached unset ⟨k, found⟩)⟩
    · rw [spreading.keeps_numbers open_ old] at found
      exact .inl (found ▸ old)

include consistent numbering in
/-- A new number goes to the nodes that lead to the start, and the start leads back to them. -/
theorem Numbering.step (order : finishingOrder graph.implied = looked ++ start :: rest)
    : Numbering graph (looked ++ [start]) after (counter + 1) := by
  have numbered {i : Nat} : (labels.setIfInBounds start (some counter))[i]? = _ := getElem?_number_start open_
  have kept {i k : Nat} := spreading.keeps_numbers (i := i) (k := k) open_
  have origin {i k : Nat} := spreading.origin (i := i) (k := k) consistent open_
  refine ⟨?_, ?_, ?_, ?_, ?_⟩
  · rw [spreading.size, Array.size_setIfInBounds, numbering.size]
  · intro i k found
    rcases origin found with old | ⟨rfl, _⟩
    · exact Nat.lt_succ_of_lt (numbering.below old)
    · exact Nat.lt_succ_self _
  · intro i j k found arrow
    rcases origin found with old | ⟨rfl, none_, _⟩
    · obtain ⟨m, before, le⟩ := numbering.ascending old arrow
      exact ⟨m, kept before, le⟩
    · have there : i < (labels.setIfInBounds start (some k)).size := by
        rw [Array.size_setIfInBounds, numbering.size]
        exact (consistent.bounded arrow).1
      obtain ⟨m, found⟩ : Labelled after i := by
        by_cases same : j = start
        · exact spreading.seen i (same ▸ consistent.opposite.mpr arrow) there
        · exact spreading.closed ((numbered.trans (if_neg same)).trans none_) ⟨k, found⟩
            (consistent.opposite.mpr arrow) there
      refine ⟨m, found, ?_⟩
      rcases origin found with old | ⟨rfl, _⟩
      · exact Nat.le_of_lt (numbering.below old)
      · exact Nat.le_refl _
  · intro i j k left right
    rcases origin left with old | ⟨rfl, _, toStart⟩
    · rcases origin right with other | ⟨rfl, _⟩
      · exact numbering.alike old other
      · exact absurd (numbering.below old) (Nat.lt_irrefl _)
    · rcases origin right with old | ⟨_, none_, path⟩
      · exact absurd (numbering.below old) (Nat.lt_irrefl _)
      · exact toStart.trans (numbering.reaches_back consistent order none_ path)
  · intro i member there
    rcases List.mem_append.mp member with before | last
    · obtain ⟨k, found⟩ := numbering.seen i before there
      exact ⟨k, kept found⟩
    · obtain rfl := List.mem_singleton.mp last
      exact ⟨counter, spreading.kept (numbered.trans (if_pos rfl))⟩

end Step

theorem Numbering.look {start : Nat} (numbering : Numbering graph looked labels counter)
    (known : start < graph.implied.size → Labelled labels start)
    : Numbering graph (looked ++ [start]) labels counter :=
  { numbering with
    seen := List.forall_mem_append.mpr ⟨numbering.seen, by simpa using known⟩ }

/-- Looking at the next node of the order: it has a number, or the new number spreads from it. -/
theorem Numbering.labelFrom {start : Nat} {rest : List Nat} (consistent : graph.Consistent)
    (numbering : Numbering graph looked labels counter)
    (order : finishingOrder graph.implied = looked ++ start :: rest)
    : Numbering graph (looked ++ [start]) (TwoSat.labelFrom graph.implying (labels, counter) start).1
        (TwoSat.labelFrom graph.implying (labels, counter) start).2 := by
  rw [TwoSat.labelFrom]
  by_cases inside : start < labels.size
  · rcases none_or_labelled inside with open_ | known
    · have unlabelled : (labels.getD start (some counter)).isSome = false := by
        simp [Array.getD_eq_getD_getElem?, open_]
      simp only [unlabelled, Bool.false_eq_true, if_false]
      refine numbering.step consistent open_ (spread_spec _ _ _ _ _ ?_) order
      have fewer : positionsWith none (labels.setIfInBounds start (some counter))
          ⊂ Finset.range labels.size := by
        refine ⟨fun i member => ?_, fun back => ?_⟩
        · have found := (Array.getElem?_eq_some_iff.mp (mem_positionsWith.mp member)).1
          simpa using found
        · have member := mem_positionsWith.mp (back (Finset.mem_range.mpr inside))
          simp [inside] at member
      simpa [numbering.size, consistent.sizes] using Finset.card_lt_card fewer
    · obtain ⟨k, found⟩ := known
      have labelled : (labels.getD start (some counter)).isSome = true := by
        simp [Array.getD_eq_getD_getElem?, found]
      simp only [labelled, if_true]
      exact numbering.look fun _ => ⟨k, found⟩
  · have labelled : (labels.getD start (some counter)).isSome = true := by
      simp [Array.getD_eq_getD_getElem?, inside]
    simp only [labelled, if_true]
    exact numbering.look fun there => absurd (numbering.size ▸ there) inside

/-- Looking at what is left of the order; induction on it. -/
theorem Numbering.run (consistent : graph.Consistent) (rest : List Nat)
    (numbering : Numbering graph looked labels counter) (order : finishingOrder graph.implied = looked ++ rest)
    : ∃ last, Numbering graph (looked ++ rest)
        (rest.foldl (TwoSat.labelFrom graph.implying) (labels, counter)).1 last := by
  induction rest generalizing looked labels counter with
  | nil => exact ⟨counter, by simpa using numbering⟩
  | cons start rest ih =>
      rw [List.foldl_cons, List.append_cons]
      exact ih (numbering.labelFrom consistent order) (by simpa using order)

/-- Every node gets a number. The numbers ascend along the implications, and nodes with the same number
reach each other.
-/
theorem componentNumbers_spec (consistent : graph.Consistent)
    : ∃ number : Nat → Nat,
        (∀ i, i < graph.implied.size → (componentNumbers graph)[i]? = some (some (number i)))
        ∧ (∀ {i j}, Arrow graph.implied i j → number i ≤ number j)
        ∧ ∀ {i j}, i < graph.implied.size → j < graph.implied.size → number i = number j
          → Reaches graph.implied i j := by
  have start : Numbering graph [] (Array.replicate graph.implied.size none) 0 := by
    refine ⟨by simp, ?_, ?_, ?_, by simp⟩
    all_goals
      intros
      simp_all [Array.getElem?_replicate]
  obtain ⟨last, numbering⟩ := start.run consistent (finishingOrder graph.implied) rfl
  have listed := (finishingOrder_spec graph.implied fun arrow => (consistent.bounded arrow).2).2.1
  have all : ∀ i, i < graph.implied.size → Labelled (componentNumbers graph) i :=
    fun i inside => numbering.seen i (listed i inside) inside
  have known : ∀ i, i < graph.implied.size → (componentNumbers graph)[i]?
      = some (some (((componentNumbers graph).getD i none).getD 0)) := by
    intro i inside
    obtain ⟨k, found⟩ := all i inside
    simp [Array.getD_eq_getD_getElem?, found]
  refine ⟨fun i => ((componentNumbers graph).getD i none).getD 0, known, ?_, ?_⟩
  · intro i j arrow
    obtain ⟨left, right⟩ := consistent.bounded arrow
    obtain ⟨m, found, le⟩ := numbering.ascending (known j right) arrow
    have same := (known i left).symm.trans found
    exact Nat.le_trans (Nat.le_of_eq (Option.some.inj (Option.some.inj same))) le
  · intro i j left right same
    refine numbering.alike (known i left) ((known j right).trans ?_)
    exact congrArg (fun k => some (some k)) same.symm

-----------------------------------------------------------------------------------------
-- The implication graph of clauses
-----------------------------------------------------------------------------------------

theorem successors_cons (size : Nat) (edge : Nat × Nat) (rest : List (Nat × Nat))
    : successors size (edge :: rest) = (successors size rest).modify edge.1 (edge.2 :: ·) := rfl

theorem size_successors (size : Nat) (edges : List (Nat × Nat)) : (successors size edges).size = size := by
  induction edges with
  | nil => simp [successors]
  | cons edge rest ih => rw [successors_cons, Array.size_modify, ih]

/-- The lists of successors hold the edges; induction on the edges. -/
theorem arrow_successors {size : Nat} {edges : List (Nat × Nat)} {i j : Nat}
    : Arrow (successors size edges) i j ↔ i < size ∧ (i, j) ∈ edges := by
  induction edges with
  | nil =>
      simp only [Arrow, successors, List.foldr_nil, Array.getD_eq_getD_getElem?,
        Array.getElem?_replicate, List.not_mem_nil, and_false, iff_false]
      split <;> simp
  | cons edge rest ih =>
      obtain ⟨source, target⟩ := edge
      simp only [Arrow, successors_cons, Array.getD_eq_getD_getElem?, Array.getElem?_modify] at ih ⊢
      by_cases here : source = i
      · subst here
        by_cases inside : source < size
        · have there : source < (successors size rest).size := by rw [size_successors]; exact inside
          rw [Array.getElem?_eq_getElem there] at ih ⊢
          simp only [Option.getD_some, inside, true_and] at ih
          simp [ih, inside]
        · have outside : (successors size rest)[source]? = none := by
            rw [Array.getElem?_eq_none]
            rw [size_successors]
            exact Nat.le_of_not_lt inside
          simp [outside, inside]
      · rw [if_neg here, ih, List.mem_cons]
        simp [Ne.symm here]

/-- The implications of a clause whose literals have complements. -/
def implicationsOf (number : Lit → Nat) : Clause → List (Nat × Nat)
  | [a] => [(number (-a), number a), (number (-a), number a)]
  | [a, b] => [(number (-a), number b), (number (-b), number a)]
  | _ => []

theorem implications_ok {numbers : Std.TreeMap Var Nat} {clause : Clause}
    (proper : ∀ l ∈ clause, Lit.Proper l)
    : implications numbers clause = .ok (implicationsOf (literalNumber numbers) clause) := by
  match clause, proper with
  | [], _ => rfl
  | [a], proper =>
      simp only [implications, (proper a (by simp)).negate]
      rfl
  | [a, b], proper =>
      simp only [implications, (proper a (by simp)).negate, (proper b (by simp)).negate]
      rfl
  | _ :: _ :: _ :: _, _ => rfl

/-- The number of a literal over a listed variable. -/
theorem literalNumber_eq {vars : List Var} (nodup : vars.Nodup) {l : Lit} {i : Nat}
    (found : vars[i]? = some l.var)
    : literalNumber (Std.TreeMap.ofList vars.zipIdx) l = 2 * i + if l < 0 then 1 else 0 := by
  have distinct : vars.zipIdx.Pairwise fun a b => ¬ compare a.1 b.1 = .eq := by
    have fsts : (vars.zipIdx.map Prod.fst).Nodup := by simpa using nodup
    refine (List.pairwise_map.mp fsts).imp ?_
    intro a b differ same
    exact differ (Std.LawfulEqCmp.eq_of_compare same)
  have listed : (l.var, i) ∈ vars.zipIdx := List.mk_mem_zipIdx_iff_getElem?.mpr found
  rw [literalNumber, Std.TreeMap.getD_ofList_of_mem Std.ReflCmp.compare_self distinct listed]

/-- The node of a literal in the graph of some clauses. -/
def nodeIn (clauses : Clauses) : Lit → Nat :=
  literalNumber (Std.TreeMap.ofList clauses.vars.toList.zipIdx)

section Clauses

variable {clauses : Clauses}

/-- A variable of the clauses has a position, and its literals are two neighbouring nodes. -/
theorem nodeIn_pair {l : Lit} (nonzero : l ≠ 0) (member : l.var ∈ clauses.vars)
    : ∃ i, clauses.vars.toList[i]? = some l.var
      ∧ (l.isPositive = true ∧ nodeIn clauses l = 2 * i ∧ nodeIn clauses (-l) = 2 * i + 1
        ∨ l.isPositive = false ∧ nodeIn clauses l = 2 * i + 1 ∧ nodeIn clauses (-l) = 2 * i) := by
  obtain ⟨i, found⟩ := List.mem_iff_getElem?.mp (SortedSet.mem_toList.mpr member)
  have here := literalNumber_eq clauses.vars.nodup found
  have there := literalNumber_eq clauses.vars.nodup (found.trans (congrArg some (Lit.var_neg l).symm))
  refine ⟨i, found, ?_⟩
  rw [nodeIn, here, there]
  simp only [Lit.isPositive, decide_eq_true_eq, decide_eq_false_iff_not]
  grind

/-- Different literals have different nodes. -/
theorem eq_of_nodeIn_eq {l k : Lit} (left : l ≠ 0) (right : k ≠ 0) (member : l.var ∈ clauses.vars)
    (other : k.var ∈ clauses.vars) (same : nodeIn clauses l = nodeIn clauses k)
    : l = k := by
  obtain ⟨i, found, first⟩ := nodeIn_pair left member
  obtain ⟨j, found', second⟩ := nodeIn_pair right other
  have position : i = j := by omega
  have signs : l.isPositive = k.isPositive := by grind
  rw [position, found'] at found
  exact Lit.eq_of_var_eq (Option.some.inj found).symm signs

theorem nodeIn_lt {l : Lit} (member : l.var ∈ clauses.vars)
    : nodeIn clauses l < 2 * clauses.vars.toList.length := by
  obtain ⟨i, found⟩ := List.mem_iff_getElem?.mp (SortedSet.mem_toList.mpr member)
  have inside : i < clauses.vars.toList.length := (List.getElem?_eq_some_iff.mp found).1
  rw [nodeIn, literalNumber_eq clauses.vars.nodup found]
  split <;> omega

/-- The implications of clauses are between complements of their literals and their literals. -/
theorem mem_implicationsOf {number : Lit → Nat} {clause : Clause} {i j : Nat}
    (edge : (i, j) ∈ implicationsOf number clause)
    : ∃ a ∈ clause, ∃ b ∈ clause,
        i = number (-a) ∧ j = number b ∧ (∀ l ∈ clause, l = a ∨ l = b) := by
  match clause, edge with
  | [a], edge =>
      simp only [implicationsOf, List.mem_cons, Prod.mk.injEq, List.not_mem_nil, or_false,
        or_self] at edge
      exact ⟨a, by simp, a, by simp, edge.1, edge.2, by simp⟩
  | [a, b], edge =>
      simp only [implicationsOf, List.mem_cons, Prod.mk.injEq, List.not_mem_nil, or_false] at edge
      rcases edge with ⟨left, right⟩ | ⟨left, right⟩
      · exact ⟨a, by simp, b, by simp, left, right, by simp⟩
      · exact ⟨b, by simp, a, by simp, left, right, by simp [or_comm]⟩

/-- The graph of clauses with proper literals exists, and its edges are the implications. -/
theorem ofClauses_spec (proper : ∀ clause ∈ clauses, ∀ l ∈ clause, Lit.Proper l)
    : ∃ graph, ImplicationGraph.ofClauses clauses = .ok graph
      ∧ graph.Consistent
      ∧ graph.vars = clauses.vars.toList
      ∧ graph.implied.size = 2 * clauses.vars.toList.length
      ∧ ∀ {i j}, Arrow graph.implied i j
        ↔ ∃ clause ∈ clauses, (i, j) ∈ implicationsOf (nodeIn clauses) clause := by
  have each : clauses.mapM (implications (Std.TreeMap.ofList clauses.vars.toList.zipIdx))
      = .ok (clauses.map (implicationsOf (nodeIn clauses))) :=
    Checked.mapM_ok fun clause inside => implications_ok (proper clause inside)
  let edges := (clauses.map (implicationsOf (nodeIn clauses))).flatten
  have mem_edges : ∀ {i j}, (i, j) ∈ edges
      ↔ ∃ clause ∈ clauses, (i, j) ∈ implicationsOf (nodeIn clauses) clause := by
    intro i j
    simp [edges, List.mem_flatten]
  have inner : ∀ {i j}, (i, j) ∈ edges
      → i < 2 * clauses.vars.toList.length ∧ j < 2 * clauses.vars.toList.length := by
    intro i j edge
    obtain ⟨clause, inside, edge⟩ := mem_edges.mp edge
    obtain ⟨a, left, b, right, rfl, rfl, _⟩ := mem_implicationsOf edge
    refine ⟨nodeIn_lt ?_, nodeIn_lt (Clauses.var_mem_vars inside right)⟩
    rw [Lit.var_neg]
    exact Clauses.var_mem_vars inside left
  refine ⟨⟨clauses.vars.toList, successors (2 * clauses.vars.toList.length) edges,
    successors (2 * clauses.vars.toList.length) (edges.map Prod.swap)⟩, ?_, ?_, rfl,
    size_successors _ _, ?_⟩
  · rw [ImplicationGraph.ofClauses]
    dsimp only
    rw [each]
    rfl
  · refine ⟨by rw [size_successors, size_successors], ?_, ?_⟩
    · intro i j arrow
      rw [size_successors]
      exact inner (arrow_successors.mp arrow).2
    · intro i j
      rw [arrow_successors, arrow_successors, List.mem_map]
      constructor
      · rintro ⟨_, ⟨a, b⟩, edge, same⟩
        obtain ⟨rfl, rfl⟩ := Prod.mk.inj same
        exact ⟨(inner edge).1, edge⟩
      · rintro ⟨_, edge⟩
        exact ⟨(inner edge).2, (i, j), edge, rfl⟩
  · intro i j
    rw [arrow_successors, ← mem_edges]
    exact ⟨fun edge => edge.2, fun edge => ⟨(inner edge).1, edge⟩⟩

-----------------------------------------------------------------------------------------
-- Models
-----------------------------------------------------------------------------------------

/-- There are values exactly if no variable shares a number with its complement, and they follow the
numbers; induction on the variables.
-/
theorem valuesFrom_spec {numbers : Array (Option Nat)} {number : Nat → Nat} {start : Nat}
    {vars : List Var}
    (known : ∀ i < 2 * (start + vars.length), numbers[i]? = some (some (number i)))
    : (valuesFrom numbers start vars = none
        ∧ ∃ i < vars.length, number (2 * (start + i)) = number (2 * (start + i) + 1))
      ∨ ∃ values, valuesFrom numbers start vars = some values
        ∧ values.map Prod.fst = vars
        ∧ ∀ i v, vars[i]? = some v
          → number (2 * (start + i)) ≠ number (2 * (start + i) + 1)
            ∧ (v, decide (number (2 * (start + i) + 1) < number (2 * (start + i)))) ∈ values := by
  induction vars generalizing start with
  | nil => exact .inr ⟨[], rfl, rfl, by simp⟩
  | cons v rest ih =>
      rw [List.length_cons] at known
      have positive := known (2 * start) (by omega)
      have negative := known (2 * start + 1) (by omega)
      rw [valuesFrom]
      simp only [Array.getD_eq_getD_getElem?, positive, negative, Option.getD_some]
      by_cases same : number (2 * start) = number (2 * start + 1)
      · exact .inl ⟨if_pos same, 0, by simp, by simpa using same⟩
      · rw [if_neg same]
        rcases @ih (start + 1) (fun i inside => known i (by omega)) with
          ⟨none_, i, inside, shared⟩ | ⟨values, found, firsts, each⟩
        · refine .inl ⟨by rw [none_]; rfl, i + 1, by simpa using inside, ?_⟩
          rwa [Nat.add_right_comm, Nat.add_assoc] at shared
        · refine .inr ⟨_, by rw [found]; rfl, by simp [firsts], fun i u listed => ?_⟩
          cases i with
          | zero =>
              obtain rfl : v = u := by simpa using listed
              exact ⟨same, by simp⟩
          | succ i =>
              obtain ⟨differ, member⟩ := each i u (by simpa using listed)
              rw [Nat.add_right_comm, Nat.add_assoc] at differ member
              exact ⟨differ, List.mem_cons_of_mem _ member⟩

/-- Truth goes along the implications of clauses that hold; induction on the path. -/
theorem trueIn_of_reaches {graph : ImplicationGraph} {σ : Assignment}
    (proper : ∀ clause ∈ clauses, ∀ l ∈ clause, Lit.Proper l)
    (arrows : ∀ {i j}, Arrow graph.implied i j
      → ∃ clause ∈ clauses, (i, j) ∈ implicationsOf (nodeIn clauses) clause)
    (holds : Clauses.TrueIn σ clauses) {a b : Lit} (left : a ≠ 0) (right : b ≠ 0)
    (member : a.var ∈ clauses.vars) (other : b.var ∈ clauses.vars)
    (path : Reaches graph.implied (nodeIn clauses a) (nodeIn clauses b)) (truth : a.TrueIn σ)
    : b.TrueIn σ := by
  generalize target : nodeIn clauses b = j at path
  induction path generalizing b with
  | refl => exact eq_of_nodeIn_eq left right member other target.symm ▸ truth
  | tail _ arrow ih =>
      obtain ⟨clause, inside, edge⟩ := arrows arrow
      obtain ⟨x, first, y, second, rfl, rfl, only⟩ := mem_implicationsOf edge
      have properX := proper clause inside x first
      have properY := proper clause inside y second
      obtain rfl := eq_of_nodeIn_eq right properY.1 other (Clauses.var_mem_vars inside second) target
      have refuted : (-x).TrueIn σ := by
        refine ih properX.neg.1 ?_ rfl
        rw [Lit.var_neg]
        exact Clauses.var_mem_vars inside first
      obtain ⟨l, found, true_⟩ := holds clause inside
      rcases only l found with rfl | rfl
      · exact absurd true_ ((Lit.trueIn_neg properX.1).mp refuted)
      · exact true_

/-- A literal that is not true comes before its complement, and its complement implies the other literals
of its clause; so not all literals of a clause fail.
-/
theorem trueIn_of_numbers {σ : Assignment} {number : Nat → Nat}
    (ascending : ∀ {i j}, (∃ clause ∈ clauses, (i, j) ∈ implicationsOf (nodeIn clauses) clause)
      → number i ≤ number j)
    (values : ∀ l : Lit, l ≠ 0 → l.var ∈ clauses.vars
      → ¬ l.TrueIn σ → number (nodeIn clauses l) < number (nodeIn clauses (-l)))
    {clause : Clause} (proper : ∀ l ∈ clause, Lit.Proper l) (inside : clause ∈ clauses)
    (nonempty : clause ≠ []) (short : clause.length ≤ 2)
    : Clause.TrueIn σ clause := by
  by_contra fails
  have below : ∀ l ∈ clause, number (nodeIn clauses l) < number (nodeIn clauses (-l)) := by
    intro l member
    refine values l (proper l member).1 (Clauses.var_mem_vars inside member) fun holds => ?_
    exact fails ⟨l, member, holds⟩
  have edges : ∀ {i j}, (i, j) ∈ implicationsOf (nodeIn clauses) clause → number i ≤ number j :=
    fun edge => ascending ⟨clause, inside, edge⟩
  match clause, nonempty, short with
  | [a], _, _ =>
      have forth := edges (i := nodeIn clauses (-a)) (j := nodeIn clauses a) (by simp [implicationsOf])
      exact absurd (below a (by simp)) (Nat.not_lt.mpr forth)
  | [a, b], _, _ =>
      have forth := edges (i := nodeIn clauses (-a)) (j := nodeIn clauses b) (by simp [implicationsOf])
      have back := edges (i := nodeIn clauses (-b)) (j := nodeIn clauses a) (by simp [implicationsOf])
      have circle : number (nodeIn clauses a) < number (nodeIn clauses a) :=
        calc number (nodeIn clauses a) < number (nodeIn clauses (-a)) := below a (by simp)
          _ ≤ number (nodeIn clauses b) := forth
          _ < number (nodeIn clauses (-b)) := below b (by simp)
          _ ≤ number (nodeIn clauses a) := back
      exact Nat.lt_irrefl _ circle

/-- There are values exactly if the clauses are satisfiable, as far as clauses of one or two literals go:
without values no assignment satisfies the clauses, and under the values the short clauses hold.
-/
theorem model?_spec (proper : ∀ clause ∈ clauses, ∀ l ∈ clause, Lit.Proper l)
    : (model? clauses = .ok none ∧ ∀ σ, ¬ Clauses.TrueIn σ clauses)
      ∨ ∃ values, model? clauses = .ok (some values)
        ∧ values.map Prod.fst = clauses.vars.toList
        ∧ ∀ σ : Assignment, (∀ entry ∈ values, σ entry.1 = entry.2)
          → ∀ clause ∈ clauses, clause ≠ [] → clause.length ≤ 2 → Clause.TrueIn σ clause := by
  obtain ⟨graph, made, consistent, vars, size, arrows⟩ := ofClauses_spec proper
  obtain ⟨number, known, ascending, alike⟩ := componentNumbers_spec consistent
  have opened : model? clauses = .ok (valuesFrom (componentNumbers graph) 0 clauses.vars.toList) := by
    rw [model?, made, ← vars]
    rfl
  have listed : ∀ i < 2 * (0 + clauses.vars.toList.length),
      (componentNumbers graph)[i]? = some (some (number i)) := by
    intro i inside
    exact known i (by omega)
  rw [opened]
  rcases valuesFrom_spec listed with ⟨none_, i, inside, shared⟩ | ⟨values, found, firsts, each⟩
  · refine .inl ⟨by rw [none_], fun σ holds => ?_⟩
    rw [Nat.zero_add] at shared
    have forth : Reaches graph.implied (2 * i) (2 * i + 1) := alike (by omega) (by omega) shared
    have back : Reaches graph.implied (2 * i + 1) (2 * i) := alike (by omega) (by omega) shared.symm
    have member : clauses.vars.toList[i] ∈ clauses.vars := List.getElem_mem inside
    obtain ⟨clause, there, l, at_, var⟩ := Clauses.mem_vars.mp member
    have nonzero := (proper clause there l at_).1
    have own : l.var ∈ clauses.vars := Clauses.var_mem_vars there at_
    have negOwn : (-l).var ∈ clauses.vars := by rw [Lit.var_neg]; exact own
    obtain ⟨j, position, nodes⟩ := nodeIn_pair nonzero own
    have same : i = j := by
      obtain ⟨there, eq⟩ := List.getElem?_eq_some_iff.mp position
      exact (clauses.vars.nodup.getElem_inj_iff).mp (var.symm.trans eq.symm)
    subst same
    have both : Reaches graph.implied (nodeIn clauses l) (nodeIn clauses (-l))
        ∧ Reaches graph.implied (nodeIn clauses (-l)) (nodeIn clauses l) := by
      rcases nodes with ⟨_, here, other⟩ | ⟨_, here, other⟩
      · rw [here, other]
        exact ⟨forth, back⟩
      · rw [here, other]
        exact ⟨back, forth⟩
    have negNonzero : -l ≠ 0 := Int.neg_ne_zero.mpr nonzero
    by_cases truth : l.TrueIn σ
    · exact (Lit.trueIn_neg nonzero).mp
        (trueIn_of_reaches proper arrows.mp holds nonzero negNonzero own negOwn both.1 truth) truth
    · exact truth (trueIn_of_reaches proper arrows.mp holds negNonzero nonzero negOwn own both.2
        ((Lit.trueIn_neg nonzero).mpr truth))
  · refine .inr ⟨values, by rw [found], firsts, fun σ agrees clause inside nonempty short => ?_⟩
    refine trueIn_of_numbers (fun edge => ascending (arrows.mpr edge)) ?_ (proper clause inside)
      inside nonempty short
    intro l nonzero member fails
    obtain ⟨i, position, nodes⟩ := nodeIn_pair nonzero member
    obtain ⟨differ, entry⟩ := each i l.var position
    rw [Nat.zero_add] at differ entry
    have value := agrees _ entry
    simp only [Lit.TrueIn, value] at fails
    rcases nodes with ⟨sign, here, other⟩ | ⟨sign, here, other⟩
    · rw [here, other]
      simp only [sign, decide_eq_true_eq] at fails
      omega
    · rw [here, other]
      simpa [sign] using fails

end Clauses

end KnowledgeCompiler.TwoSat
