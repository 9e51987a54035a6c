import KnowledgeCompiler.Proofs.Hypergraph.Cut
import KnowledgeCompiler.Proofs.Marking

/-! Refinement passes: their tallies stay exact, the balance is kept, and what a pass reports is what the cut
loses.

A pass counts pins and nodes as they move. As long as the counts are those of its division, the gain of a move is
the change of the cut, and so the running total is the whole change since the start. Undoing the moves after the
best moment leads back to the division of that moment, because moves of different nodes commute.
-/

namespace KnowledgeCompiler.Hypergraph

variable {h : Hypergraph} {largest : Nat} {origin sides : Array Bool} {pass : Pass} {node : Nat}

-----------------------------------------------------------------------------------------
-- Sizes
-----------------------------------------------------------------------------------------

/-- A fold whose steps keep the size keeps the size; induction on the list. -/
theorem size_foldl {α β : Type} {step : Array β → α → Array β}
    (keeps : ∀ sides a, (step sides a).size = sides.size) (items : List α) (sides : Array β)
    : (items.foldl step sides).size = sides.size := by
  induction items generalizing sides with
  | nil => rfl
  | cons a rest ih => rw [List.foldl_cons, ih, keeps]

theorem size_firstDivision (h : Hypergraph) : h.firstDivision.size = h.nodeCount := by
  rw [firstDivision, size_foldl (by simp), Array.size_replicate]

theorem Pass.size_run (h : Hypergraph) (largest fuel : Nat) (pass : Pass)
    : (Pass.run h largest fuel pass).sides.size = pass.sides.size := by
  induction fuel generalizing pass with
  | zero => rfl
  | succ fuel ih =>
      rw [Pass.run]
      split
      · rfl
      · rw [ih]
        simp [Pass.move]

theorem size_refine (h : Hypergraph) (largest : Nat) (sides : Array Bool)
    : (h.refine largest sides).1.size = sides.size := by
  have start : (Pass.start h sides).sides = sides := rfl
  rw [refine]
  dsimp only
  rw [Pass.result, size_foldl (by simp), Pass.size_run, start]

theorem size_refineAll (h : Hypergraph) (largest passes : Nat) (sides : Array Bool)
    : (h.refineAll largest passes sides).size = sides.size := by
  induction passes generalizing sides with
  | zero => rfl
  | succ passes ih =>
      rw [refineAll]
      dsimp only
      split
      · rw [ih, size_refine]
      · exact size_refine h largest sides

/-- A bisection gives a side to each node. -/
theorem size_bisect (h : Hypergraph) (imbalance : Float) (passes : Nat)
    : (h.bisect imbalance passes).size = h.nodeCount := by
  rw [bisect]
  split
  · exact Array.size_replicate
  · rw [size_refineAll, size_firstDivision]

-----------------------------------------------------------------------------------------
-- Gains
-----------------------------------------------------------------------------------------

/-- What a hyperedge adds to the gain when one of its pins leaves a side is what the cut loses by it. -/
theorem gain_step (counts : PerSide) (side : Bool) (occupied : 0 < counts.on side) (gain : Int)
    : (if counts.on side = 1 ∧ 0 < counts.on (!side) then gain + 1
        else if counts.on (!side) = 0 ∧ 1 < counts.on side then gain - 1
        else gain)
      = gain + (if counts.split then 1 else 0) - (if (counts.moveFrom side).split then 1 else 0) := by
  obtain ⟨left, right⟩ := counts
  cases side with
  | false =>
      simp only [PerSide.on, PerSide.split, PerSide.moveFrom, Bool.not_false, Bool.false_eq_true, if_true,
        if_false, decide_eq_true_eq] at occupied ⊢
      split_ifs <;> omega
  | true =>
      simp only [PerSide.on, PerSide.split, PerSide.moveFrom, Bool.not_true, Bool.false_eq_true, if_true,
        if_false, decide_eq_true_eq] at occupied ⊢
      split_ifs <;> omega

/-- The hyperedges of a node add up to what the cut loses when the node changes its side; induction on the
numbered hyperedges.
-/
theorem gain_entries (counts : Array PerSide) (below : node < sides.size) (entries : List (List Nat × Nat))
    (counted : ∀ entry ∈ entries,
      entry.1.Nodup ∧ counts.getD entry.2 default = tally sides entry.1) (start : Int)
    : (((entries.filter fun entry => node ∈ entry.1).map Prod.snd).foldl
        (fun gain edge =>
          let counts := counts.getD edge default
          let side := sides.getD node false
          if counts.on side = 1 ∧ 0 < counts.on (!side) then gain + 1
          else if counts.on (!side) = 0 ∧ 1 < counts.on side then gain - 1
          else gain)
        start)
      = start + entries.countP (fun entry => (tally sides entry.1).split)
        - entries.countP (fun entry => (tally (flip sides node) entry.1).split) := by
  induction entries generalizing start with
  | nil => simp
  | cons entry rest ih =>
      obtain ⟨⟨distinct, own⟩, later⟩ := List.forall_mem_cons.mp counted
      rw [List.countP_cons, List.countP_cons, tally_flip distinct below]
      by_cases member : node ∈ entry.1
      · rw [List.filter_cons_of_pos (by simpa using member), List.map_cons, List.foldl_cons, ih later]
        dsimp only
        rw [own, gain_step _ _ (tally_pos member), if_pos member]
        push_cast
        ring
      · rw [List.filter_cons_of_neg (by simpa using member), ih later, if_neg member]
        push_cast
        ring

-----------------------------------------------------------------------------------------
-- Tallies of a pass
-----------------------------------------------------------------------------------------

namespace Pass

/-- The counts of a pass are those of its division. -/
structure Exact (h : Hypergraph) (pass : Pass) : Prop where
  oneEach : pass.sides.size = h.nodeCount
  pinCounts : pass.pinCounts = h.edges.map (tally pass.sides)
  sizes : pass.sizes = census pass.sides

theorem Exact.counted (exact : pass.Exact h) (simple : h.Simple)
    : ∀ entry ∈ h.edges.toList.zipIdx,
        entry.1.Nodup ∧ pass.pinCounts.getD entry.2 default = tally pass.sides entry.1 := by
  rintro ⟨pins, edge⟩ member
  have found : h.edges[edge]? = some pins := by
    rw [← Array.getElem?_toList]
    exact List.mem_zipIdx_iff_getElem?.mp member
  refine ⟨simple.distinct pins (List.fst_mem_of_mem_zipIdx member), ?_⟩
  rw [exact.pinCounts, Array.getD_eq_getD_getElem?, Array.getElem?_map, found]
  rfl

/-- The gain of a move is what the cut loses. -/
theorem Exact.gain (exact : pass.Exact h) (simple : h.Simple) (below : node < h.nodeCount)
    : pass.gain h node = h.cutSize pass.sides - h.cutSize (flip pass.sides node) := by
  have numbered : ∀ sides, h.cutSize sides
      = h.edges.toList.zipIdx.countP fun entry => (tally sides entry.1).split := by
    intro sides
    rw [cutSize, ← Function.comp_def (fun pins => (tally sides pins).split) Prod.fst, ← List.countP_map,
      List.zipIdx_map_fst]
  rw [Pass.gain, simple.incident node below]
  dsimp only
  rw [gain_entries _ (exact.oneEach ▸ below) _ (exact.counted simple), numbered, numbered]
  ring

/-- The hyperedges of a node, none of them twice. -/
theorem nodup_edgesOf (simple : h.Simple) (below : node < h.nodeCount) : (h.edgesOf node).Nodup := by
  rw [simple.incident node below]
  refine List.Nodup.sublist ((List.filter_sublist).map _) ?_
  rw [List.zipIdx_map_snd]
  exact List.nodup_range'

theorem mem_edgesOf (simple : h.Simple) (below : node < h.nodeCount) {edge : Nat} {pins : List Nat}
    (found : h.edges[edge]? = some pins)
    : edge ∈ h.edgesOf node ↔ node ∈ pins := by
  have entry : ∀ other, (other, edge) ∈ h.edges.toList.zipIdx ↔ h.edges[edge]? = some other := by
    intro other
    rw [List.mem_zipIdx_iff_getElem?, Array.getElem?_toList]
  rw [simple.incident node below, List.mem_map]
  constructor
  · rintro ⟨⟨other, _⟩, member, rfl⟩
    obtain ⟨listed, inside⟩ := List.mem_filter.mp member
    obtain rfl : pins = other := Option.some.inj (found.symm.trans ((entry other).mp listed))
    simpa using inside
  · intro member
    exact ⟨(pins, edge), List.mem_filter.mpr ⟨(entry pins).mpr found, by simpa using member⟩, rfl⟩

/-- Changing the entries at different positions; induction on the positions. -/
theorem getElem?_foldl_modify {α : Type} (f : α → α) (positions : List Nat) (distinct : positions.Nodup)
    (values : Array α) (position : Nat)
    : (positions.foldl (fun values position => values.modify position f) values)[position]?
      = if position ∈ positions then values[position]?.map f else values[position]? := by
  induction positions generalizing values with
  | nil => simp
  | cons first rest ih =>
      obtain ⟨fresh, later⟩ := List.nodup_cons.mp distinct
      rw [List.foldl_cons, ih later, Array.getElem?_modify]
      by_cases same : first = position
      · subst same
        simp [fresh]
      · simp [same, Ne.symm same]

/-- The counts follow a move. -/
theorem Exact.move (exact : pass.Exact h) (simple : h.Simple) (below : node < h.nodeCount) (gain : Int)
    : (pass.move h gain node).Exact h := by
  have below' : node < pass.sides.size := exact.oneEach ▸ below
  have sides : (pass.move h gain node).sides = flip pass.sides node := flip_eq_setIfInBounds _ _
  refine ⟨?_, ?_, ?_⟩
  · rw [sides, size_flip, exact.oneEach]
  · rw [sides]
    refine Array.ext_getElem? fun edge => ?_
    refine (getElem?_foldl_modify _ _ (nodup_edgesOf simple below) _ _).trans ?_
    rw [exact.pinCounts, Array.getElem?_map, Array.getElem?_map]
    cases found : h.edges[edge]? with
    | none => simp
    | some pins =>
        have distinct := simple.distinct pins (List.mem_of_getElem? (Array.getElem?_toList ▸ found))
        simp only [mem_edgesOf simple below found, Option.map_some, tally_flip distinct below']
        split <;> rfl
  · rw [sides, census_flip below', ← exact.sizes]
    rfl

-----------------------------------------------------------------------------------------
-- The next move
-----------------------------------------------------------------------------------------

/-- What holds of the next move: it may be made, and its gain is the gain of its node. -/
structure Move (h : Hypergraph) (largest : Nat) (pass : Pass) (gain : Int) (node : Nat) : Prop where
  inside : node < h.nodeCount
  unlocked : pass.locked.getD node true = false
  fits : pass.sizes.on (!pass.sides.getD node false) + 1 ≤ largest
  gain : gain = pass.gain h node

theorem bestMove_spec {gain : Int} (found : pass.bestMove h largest = some (gain, node))
    : Move h largest pass gain node := by
  have all : ∀ gain node, pass.bestMove h largest = some (gain, node) → Move h largest pass gain node := by
    rw [bestMove]
    refine List.foldlRecOn (motive := fun best => ∀ gain node, best = some (gain, node)
      → Move h largest pass gain node) _ _ (by simp) fun best good other member gain node chosen => ?_
    dsimp only at chosen
    split at chosen
    · exact good gain node chosen
    · rename_i free
      simp only [Bool.or_eq_true, decide_eq_true_eq, not_or, Bool.not_eq_true, Nat.not_lt] at free
      have next : Move h largest pass (pass.gain h other) other :=
        ⟨List.mem_range.mp member, free.1, free.2, rfl⟩
      split at chosen
      · cases chosen
        exact next
      · split at chosen
        · cases chosen
          exact next
        · exact good gain node chosen
  exact all gain node found

/-- No node may move once all of them are locked. -/
theorem bestMove_eq_none (locked : ∀ node < h.nodeCount, pass.locked.getD node true = true)
    : pass.bestMove h largest = none := by
  rw [bestMove]
  refine List.foldlRecOn (motive := fun best => best = none) _ _ rfl fun best none node member => ?_
  dsimp only
  rw [locked node (List.mem_range.mp member), Bool.true_or, if_pos rfl, none]

-----------------------------------------------------------------------------------------
-- Progress
-----------------------------------------------------------------------------------------

/-- What holds of a pass on the way: its counts are exact, its division and the best one so far are balanced, the
totals are what the cut has lost since the start, and the locked nodes are those that have moved.
-/
structure Progress (h : Hypergraph) (largest : Nat) (origin : Array Bool) (pass : Pass) : Prop
    extends Exact h pass where
  balanced : Balanced largest pass.sides
  lockedSize : pass.locked.size = h.nodeCount
  locked : ∀ {node}, Marked pass.locked node ↔ node ∈ pass.moves.toList
  moves : pass.moves.toList.Nodup
  total : pass.total = h.cutSize origin - h.cutSize pass.sides
  best : pass.best = h.cutSize origin - h.cutSize pass.result
  nonneg : 0 ≤ pass.best
  taken : pass.bestMoves ≤ pass.moves.size
  resultSize : pass.result.size = h.nodeCount
  resultBalanced : Balanced largest pass.result

theorem progress_start (oneEach : origin.size = h.nodeCount) (balanced : Balanced largest origin)
    : Progress h largest origin (start h origin) := by
  have result : (start h origin).result = origin := rfl
  have left : origin.toList.countP (!·) = origin.count false := by
    rw [← Array.count_toList, List.count]
    exact List.countP_congr fun side _ => by cases side <;> simp
  refine ⟨⟨oneEach, ?_, ?_⟩, balanced, Array.size_replicate, ?_, List.nodup_nil, ?_, ?_, Int.le_refl 0,
    Nat.le_refl 0, oneEach, balanced⟩
  · refine Array.map_congr_left fun pins _ => ?_
    have split : pins.length = pins.countP (fun pin => origin.getD pin false)
        + pins.countP (fun pin => !origin.getD pin false) := by
      refine List.length_eq_countP_add_countP _ |>.trans (congrArg _ ?_)
      exact List.countP_congr fun pin _ => by simp
    have left : pins.countP (fun pin => !origin.getD pin false)
        = pins.length - pins.countP fun pin => origin.getD pin false := by omega
    exact congrArg (PerSide.mk · _) left.symm
  · have split := census_add origin
    simp only [start, left, census, PerSide.mk.injEq, true_and] at split ⊢
    omega
  · simp [Marked, start, Array.getElem?_replicate]
  · exact (Int.sub_self _).symm
  · exact result ▸ (Int.sub_self _).symm

/-- The best division after a move: the new one if it is better, and otherwise the move is undone. -/
theorem result_move (gain : Int) (taken : pass.bestMoves ≤ pass.moves.size)
    : (pass.move h gain node).result
      = if pass.best < pass.total + gain then flip pass.sides node else pass.result := by
  have sides : (pass.move h gain node).sides = flip pass.sides node := flip_eq_setIfInBounds _ _
  have moves : (pass.move h gain node).moves.toList = pass.moves.toList ++ [node] := Array.toList_push
  have result (pass : Pass)
      : pass.result = (pass.moves.toList.drop pass.bestMoves).foldl flip pass.sides := rfl
  rw [result, sides, moves]
  by_cases better : pass.best < pass.total + gain
  · have all : (pass.move h gain node).bestMoves = (pass.moves.toList ++ [node]).length := by
      simp [Pass.move, better]
    rw [if_pos better, all, List.drop_length]
    rfl
  · have kept : (pass.move h gain node).bestMoves = pass.bestMoves := by
      simp [Pass.move, better]
    rw [if_neg better, kept, List.drop_append_of_le_length taken, List.foldl_append, List.foldl_cons,
      List.foldl_nil, foldl_flip_comm, flip_flip, result]

/-- A balanced division stays balanced if the side that a node moves to has room. -/
theorem balanced_flip {sides : Array Bool} (balanced : Balanced largest sides) (below : node < sides.size)
    (fits : (census sides).on (!sides.getD node false) + 1 ≤ largest)
    : Balanced largest (flip sides node) := by
  intro side
  have own := balanced side
  rw [← on_census] at own ⊢
  rw [census_flip below]
  generalize sides.getD node false = from_ at fits ⊢
  cases from_ <;> cases side <;> simp [PerSide.on, PerSide.moveFrom] at fits own ⊢ <;> omega

theorem Progress.move (progress : Progress h largest origin pass) (simple : h.Simple) {gain : Int}
    (next : Move h largest pass gain node)
    : Progress h largest origin (pass.move h gain node) := by
  have below : node < pass.sides.size := progress.oneEach ▸ next.inside
  have inside : node < pass.locked.size := progress.lockedSize ▸ next.inside
  have sides : (pass.move h gain node).sides = flip pass.sides node := flip_eq_setIfInBounds _ _
  have moves : (pass.move h gain node).moves.toList = pass.moves.toList ++ [node] := Array.toList_push
  have fresh : ¬ node ∈ pass.moves.toList := by
    intro member
    have known := getD_eq_true_iff.mpr (.inr (progress.locked.mpr member))
    rw [next.unlocked] at known
    cases known
  have balanced := balanced_flip progress.balanced below (progress.sizes ▸ next.fits)
  have total : pass.total + gain = h.cutSize origin - h.cutSize (flip pass.sides node) := by
    rw [next.gain, progress.toExact.gain simple next.inside, progress.total]
    ring
  refine ⟨progress.toExact.move simple next.inside gain, sides ▸ balanced, ?_, ?_, ?_, ?_, ?_, ?_, ?_, ?_, ?_⟩
  · simp [Pass.move, progress.lockedSize]
  · intro other
    rw [moves, List.mem_append, List.mem_singleton, ← progress.locked]
    exact marked_setIfInBounds inside
  · rw [moves]
    exact List.nodup_append.mpr ⟨progress.moves, List.nodup_singleton node, by
      rintro a member b single rfl
      exact fresh (List.mem_singleton.mp single ▸ member)⟩
  · rw [sides]
    exact total
  · rw [result_move gain progress.taken]
    by_cases better : pass.best < pass.total + gain
    · rw [if_pos better, ← total]
      exact if_pos better
    · rw [if_neg better, ← progress.best]
      exact if_neg better
  · have nonneg := progress.nonneg
    simp only [Pass.move]
    split <;> omega
  · have taken := progress.taken
    simp only [Pass.move, Array.size_push]
    split <;> omega
  · rw [result_move gain progress.taken]
    split
    · rw [size_flip, progress.oneEach]
    · exact progress.resultSize
  · rw [result_move gain progress.taken]
    split
    · exact balanced
    · exact progress.resultBalanced

/-- A pass has made no more moves than there are nodes. -/
theorem Progress.size_moves_le (progress : Progress h largest origin pass)
    : pass.moves.size ≤ h.nodeCount
      ∧ (pass.moves.size = h.nodeCount → ∀ node < h.nodeCount, pass.locked.getD node true = true) := by
  have within : pass.moves.toList ⊆ List.range h.nodeCount := by
    intro node member
    rw [List.mem_range, ← progress.lockedSize]
    exact (progress.locked.mpr member).lt
  have sub := List.subperm_of_subset progress.moves within
  have size := sub.length_le
  rw [List.length_range, Array.length_toList] at size
  refine ⟨size, fun full node below => getD_eq_true_iff.mpr (.inr (progress.locked.mpr ?_))⟩
  have all : pass.moves.toList.Perm (List.range h.nodeCount) :=
    sub.perm_of_length_le (by rw [List.length_range, Array.length_toList, full])
  exact all.mem_iff.mpr (List.mem_range.mpr below)

/-- The states of a pass: the start, and what the next move leads to. -/
inductive Reached (h : Hypergraph) (largest : Nat) (origin : Array Bool) : Pass → Prop
  | start : Reached h largest origin (Pass.start h origin)
  | move {pass : Pass} {gain : Int} {node : Nat} (reached : Reached h largest origin pass)
      (next : pass.bestMove h largest = some (gain, node))
      : Reached h largest origin (pass.move h gain node)

theorem Reached.progress (reached : Reached h largest origin pass) (simple : h.Simple)
    (oneEach : origin.size = h.nodeCount) (balanced : Balanced largest origin)
    : Progress h largest origin pass := by
  induction reached with
  | start => exact progress_start oneEach balanced
  | move _ next ih => exact ih.move simple (bestMove_spec next)

/-- A run goes on until no node may move; induction on the fuel, of which each move takes one unit. -/
theorem Reached.run {fuel : Nat} (reached : Reached h largest origin pass) (simple : h.Simple)
    (oneEach : origin.size = h.nodeCount) (balanced : Balanced largest origin)
    (enough : pass.moves.size + fuel = h.nodeCount)
    : Reached h largest origin (Pass.run h largest fuel pass)
      ∧ (Pass.run h largest fuel pass).bestMove h largest = none := by
  induction fuel generalizing pass with
  | zero =>
      have all := (reached.progress simple oneEach balanced).size_moves_le.2 enough
      exact ⟨reached, bestMove_eq_none all⟩
  | succ fuel ih =>
      rw [Pass.run]
      cases next : pass.bestMove h largest with
      | none => exact ⟨reached, next⟩
      | some best =>
          refine ih (reached.move next) ?_
          simp only [Pass.move, Array.size_push]
          omega

end Pass

end KnowledgeCompiler.Hypergraph
