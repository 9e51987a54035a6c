import KnowledgeCompiler.Proofs.Hypergraph.Refinement
import KnowledgeCompiler.Proofs.Hypergraph.Sweep

/-! Refinement never worsens the cut, reports its improvement exactly and keeps the balance; so does the bisection
that starts with the first division.
-/

namespace KnowledgeCompiler.Hypergraph

variable {h : Hypergraph} {largest : Nat} {sides : Array Bool}

-----------------------------------------------------------------------------------------
-- One pass
-----------------------------------------------------------------------------------------

/-- The counts that a move decreases are there once and above zero. -/
structure Pass.Affords (h : Hypergraph) (pass : Pass) (node : Nat) : Prop where
  size : 0 < pass.sizes.on (pass.sides.getD node false)
  once : (h.edgesOf node).Nodup
  pins
    : ∀ edge ∈ h.edgesOf node,
        ∃ counts, pass.pinCounts[edge]? = some counts ∧ 0 < counts.on (pass.sides.getD node false)

/-- A refinement pass does what it should. No subtraction goes below zero, neither at its start nor at any of its
moves. It ends because no node may move any more. What it returns is the difference of the cuts, which is not
negative, and the new division is balanced.
-/
structure Refines (h : Hypergraph) (largest : Nat) (sides : Array Bool) : Prop where
  counts : sides.toList.countP (!·) ≤ h.nodeCount
  pinCounts : ∀ pins ∈ h.edges.toList, pins.countP (fun pin => sides.getD pin false) ≤ pins.length
  affords
    : ∀ pass gain node, Pass.Reached h largest sides pass → pass.bestMove h largest = some (gain, node)
        → pass.Affords h node
  ends
    : let last := Pass.run h largest h.nodeCount (Pass.start h sides)
      Pass.Reached h largest sides last ∧ last.bestMove h largest = none ∧ last.bestMoves ≤ last.moves.size
  improves
    : ∃ before after : Nat,
        h.cut sides = .ok before
        ∧ h.cut (h.refine largest sides).1 = .ok after
        ∧ (h.refine largest sides).2 = before - after
        ∧ 0 ≤ (h.refine largest sides).2
  oneEach : (h.refine largest sides).1.size = h.nodeCount
  balanced : Balanced largest (h.refine largest sides).1

/-- Every move of a pass can be paid for, because its counts are those of its division. -/
theorem Pass.Reached.affords {pass : Pass} {gain : Int} {node : Nat}
    (reached : Pass.Reached h largest sides pass) (simple : h.Simple) (oneEach : sides.size = h.nodeCount)
    (balanced : Balanced largest sides) (next : pass.bestMove h largest = some (gain, node))
    : pass.Affords h node := by
  have progress := reached.progress simple oneEach balanced
  have inside := (Pass.bestMove_spec next).inside
  refine ⟨?_, Pass.nodup_edgesOf simple inside, fun edge member => ?_⟩
  · rw [progress.sizes]
    exact census_pos (progress.oneEach ▸ inside)
  · have listed := member
    rw [simple.incident node inside] at listed
    obtain ⟨⟨pins, edge⟩, entry, rfl⟩ := List.mem_map.mp listed
    obtain ⟨numbered, pin⟩ := List.mem_filter.mp entry
    have found : h.edges[edge]? = some pins := by
      rw [← Array.getElem?_toList]
      exact List.mem_zipIdx_iff_getElem?.mp numbered
    refine ⟨tally pass.sides pins, ?_, tally_pos (by simpa using pin)⟩
    rw [progress.pinCounts, Array.getElem?_map, found]
    rfl

/-- The run of a pass from a balanced division. -/
theorem run_spec (simple : h.Simple) (oneEach : sides.size = h.nodeCount) (balanced : Balanced largest sides)
    : let last := Pass.run h largest h.nodeCount (Pass.start h sides)
      Pass.Reached h largest sides last
      ∧ last.bestMove h largest = none
      ∧ Pass.Progress h largest sides last := by
  obtain ⟨reached, done⟩ := Pass.Reached.start.run simple oneEach balanced (Nat.zero_add h.nodeCount)
  exact ⟨reached, done, reached.progress simple oneEach balanced⟩

theorem refines (simple : h.Simple) (oneEach : sides.size = h.nodeCount) (balanced : Balanced largest sides)
    : Refines h largest sides := by
  obtain ⟨reached, done, progress⟩ := run_spec simple oneEach balanced
  have within {sides : Array Bool} (oneEach : sides.size = h.nodeCount)
      : h.cut sides = .ok (h.cutSize sides) :=
    cut_eq fun pins listed pin member => oneEach ▸ simple.inside pins listed pin member
  refine ⟨?_, fun pins _ => List.countP_le_length, fun pass gain node reached next =>
    reached.affords simple oneEach balanced next, ⟨reached, done, progress.taken⟩,
    ⟨_, _, within oneEach, within progress.resultSize, progress.best, progress.nonneg⟩,
    progress.resultSize, progress.resultBalanced⟩
  rw [← oneEach, ← Array.length_toList]
  exact List.countP_le_length

-----------------------------------------------------------------------------------------
-- All passes
-----------------------------------------------------------------------------------------

/-- Further passes keep the balance and never worsen the cut; induction on the passes. -/
theorem refineAll_spec (simple : h.Simple) (passes : Nat) (oneEach : sides.size = h.nodeCount)
    (balanced : Balanced largest sides)
    : Balanced largest (h.refineAll largest passes sides)
      ∧ h.cutSize (h.refineAll largest passes sides) ≤ h.cutSize sides := by
  induction passes generalizing sides with
  | zero => exact ⟨balanced, Nat.le_refl _⟩
  | succ passes ih =>
      obtain ⟨-, -, progress⟩ := run_spec simple oneEach balanced
      have lower : h.cutSize (h.refine largest sides).1 ≤ h.cutSize sides := by
        have nonneg := progress.nonneg
        rw [progress.best] at nonneg
        exact Int.ofNat_le.mp (Int.le_of_sub_nonneg nonneg)
      rw [refineAll]
      dsimp only
      split
      · obtain ⟨balanced', lower'⟩ := ih progress.resultSize progress.resultBalanced
        exact ⟨balanced', Nat.le_trans lower' lower⟩
      · exact ⟨progress.resultBalanced, lower⟩

/-- The sides of the first division are as large as one half. -/
theorem balanced_firstDivision {largest : Nat} (half : h.nodeCount - h.nodeCount / 2 ≤ largest)
    : Balanced largest h.firstDivision := by
  have right := h.count_firstDivision
  have both := census_add h.firstDivision
  rw [size_firstDivision] at both
  simp only [census, right] at both
  intro side
  cases side <;> omega

/-- A balanced bisection of a hypergraph: every node has a side, neither side has too many, and the cut is not
larger than that of the first division, which has one half of the nodes on the side `true`.
-/
structure Bisects (h : Hypergraph) (largest : Nat) (sides : Array Bool) : Prop where
  half : h.nodeCount - h.nodeCount / 2 ≤ largest
  oneEach : sides.size = h.nodeCount
  balanced : Balanced largest sides
  first : h.firstDivision.size = h.nodeCount ∧ h.firstDivision.count true = h.nodeCount / 2
  improves
    : 2 ≤ h.nodeCount → ∃ before after : Nat,
        h.cut h.firstDivision = .ok before ∧ h.cut sides = .ok after ∧ after ≤ before

theorem bisects (simple : h.Simple) (imbalance : Float) (passes : Nat)
    : Bisects h (largestSide h.nodeCount imbalance) (h.bisect imbalance passes) := by
  have half : h.nodeCount - h.nodeCount / 2 ≤ largestSide h.nodeCount imbalance := Nat.le_max_right _ _
  have first := balanced_firstDivision half
  obtain ⟨balanced, lower⟩ := refineAll_spec simple passes h.size_firstDivision first
  have within {sides : Array Bool} (oneEach : sides.size = h.nodeCount)
      : h.cut sides = .ok (h.cutSize sides) :=
    cut_eq fun pins listed pin member => oneEach ▸ simple.inside pins listed pin member
  refine ⟨half, h.size_bisect imbalance passes, ?_, ⟨h.size_firstDivision, h.count_firstDivision⟩,
    fun several => ⟨_, _, within h.size_firstDivision, within (h.size_bisect imbalance passes), ?_⟩⟩
  · rw [bisect]
    split
    · rename_i few
      intro side
      rw [Array.count_replicate]
      split
      · omega
      · exact Nat.zero_le _
    · exact balanced
  · rw [bisect, if_neg (Nat.not_lt.mpr several)]
    exact lower

-----------------------------------------------------------------------------------------
-- Both together
-----------------------------------------------------------------------------------------

/-- On every hypergraph whose hyperedges do not repeat a pin, a refinement pass from a balanced division ends
without underflow, returns exactly what the cut loses, which is never negative, and stays balanced. So a bisection
is balanced, and never cuts more than the breadth-first division it starts with.
-/
theorem refinement_never_worsens {nodeCount : Nat} {edges : List (List Nat)} {h : Hypergraph}
    (built : ofEdges nodeCount edges = .ok h) (distinct : ∀ pins ∈ edges, pins.Nodup)
    : h.nodeCount = nodeCount
      ∧ (∀ largest sides, sides.size = nodeCount → Balanced largest sides → Refines h largest sides)
      ∧ ∀ imbalance passes, Bisects h (largestSide nodeCount imbalance) (h.bisect imbalance passes) := by
  obtain ⟨rfl, -, simple⟩ := simple_ofEdges built distinct
  exact ⟨rfl, fun largest sides oneEach balanced => refines simple oneEach balanced,
    fun imbalance passes => bisects simple imbalance passes⟩

/-- A path of four nodes that is cut everywhere, and a pass that leaves one cut. -/
theorem refinement_of_a_path
    : ∃ h, ofEdges 4 [[0, 1], [1, 2], [2, 3]] = .ok h
      ∧ (∀ pins ∈ [[0, 1], [1, 2], [2, 3]], pins.Nodup)
      ∧ Balanced 3 #[false, true, false, true]
      ∧ h.refine 3 #[false, true, false, true] = (#[false, false, false, true], 2)
      ∧ Refines h 3 #[false, true, false, true] := by
  have distinct : ∀ pins ∈ [[0, 1], [1, 2], [2, 3]], pins.Nodup := by decide
  have balanced : Balanced 3 #[false, true, false, true] := by
    intro side
    cases side <;> decide
  refine ⟨_, rfl, distinct, balanced, by decide +kernel, ?_⟩
  exact (refinement_never_worsens rfl distinct).2.1 3 _ rfl balanced

end KnowledgeCompiler.Hypergraph
