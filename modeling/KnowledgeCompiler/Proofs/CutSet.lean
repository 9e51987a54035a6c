import KnowledgeCompiler.CutSet
import KnowledgeCompiler.Proofs.Action
import KnowledgeCompiler.Proofs.Assignment
import KnowledgeCompiler.Proofs.Connected
import KnowledgeCompiler.Proofs.Hypergraph.Refinement
import KnowledgeCompiler.Proofs.Occurrences
import KnowledgeCompiler.Proofs.Representatives
import KnowledgeCompiler.Proofs.Sorting

/-! Cut sets exist: a bisection puts every clause on a side, the pins of the hyperedges are clauses, and
the literals have complements.
-/

namespace KnowledgeCompiler

-----------------------------------------------------------------------------------------
-- Simplification
-----------------------------------------------------------------------------------------

namespace CutSets

/-- The bisection procedure gives a side to each node. -/
def Dividing (cuts : CutSets) : Prop := ∀ h imbalance, (cuts.bisect h imbalance).size = h.nodeCount

theorem dividing_ofConfig (config : CutSetConfig) : (ofConfig config).Dividing :=
  fun h imbalance => h.size_bisect imbalance config.passes

/-- The kept clauses are some of the clauses, and each clause has all literals of a kept one; induction on the
clauses.
-/
theorem foldl_keep (rest kept : Clauses)
    : let after := rest.foldl
        (fun kept clause => if kept.any (subsumes · clause) then kept else clause :: kept) kept
      after.length ≤ rest.length + kept.length
      ∧ (∀ clause ∈ after, clause ∈ rest ∨ clause ∈ kept)
      ∧ (∀ clause ∈ kept, clause ∈ after)
      ∧ ∀ clause ∈ rest, ∃ other ∈ after, ∀ l ∈ other, l ∈ clause := by
  induction rest generalizing kept with
  | nil => simp
  | cons first rest ih =>
      simp only [List.foldl_cons, List.length_cons]
      split
      · rename_i known
        obtain ⟨length, members, stays, smaller⟩ := ih kept
        refine ⟨by omega, fun clause member => ?_, stays, List.forall_mem_cons.mpr ⟨?_, smaller⟩⟩
        · rcases members clause member with later | earlier
          · exact .inl (List.mem_cons_of_mem _ later)
          · exact .inr earlier
        · obtain ⟨other, old, within⟩ := List.any_eq_true.mp known
          exact ⟨other, stays other old, by simpa [subsumes] using within⟩
      · obtain ⟨length, members, stays, smaller⟩ := ih (first :: kept)
        have first_stays := stays first List.mem_cons_self
        refine ⟨by rw [List.length_cons] at length; omega, fun clause member => ?_,
          fun clause old => stays clause (List.mem_cons_of_mem _ old),
          List.forall_mem_cons.mpr ⟨⟨first, first_stays, fun _ inside => inside⟩, smaller⟩⟩
        rcases members clause member with later | earlier
        · exact .inl (List.mem_cons_of_mem _ later)
        · rcases List.mem_cons.mp earlier with rfl | old
          · exact .inl List.mem_cons_self
          · exact .inr old

theorem dropSubsumed_spec (clauses : Clauses)
    : (dropSubsumed clauses).length ≤ clauses.length
      ∧ (∀ clause ∈ dropSubsumed clauses, clause ∈ clauses)
      ∧ ∀ clause ∈ clauses, ∃ other ∈ dropSubsumed clauses, ∀ l ∈ other, l ∈ clause := by
  let sorted := dropRepeats (sortBy (fun c d => c.length ≤ d.length) clauses)
  have mem_sorted : ∀ clause, clause ∈ sorted ↔ clause ∈ clauses := fun clause => by
    rw [mem_dropRepeats, mem_sortBy]
  have short : sorted.length ≤ clauses.length :=
    Nat.le_trans (dropRepeats_sublist _).length_le (by simp)
  have mem_result : ∀ clause, clause ∈ dropSubsumed clauses ↔ clause ∈ sorted.foldl
      (fun kept clause => if kept.any (subsumes · clause) then kept else clause :: kept) [] :=
    fun clause => List.mem_reverse
  obtain ⟨length, members, -, smaller⟩ := foldl_keep sorted []
  refine ⟨?_, fun clause member => ?_, fun clause member => ?_⟩
  · rw [dropSubsumed, keepUnsubsumed, List.length_reverse]
    exact Nat.le_trans length short
  · rcases members clause ((mem_result clause).mp member) with inside | none
    · exact (mem_sorted clause).mp inside
    · cases none
  · obtain ⟨other, kept, within⟩ := smaller clause ((mem_sorted clause).mpr member)
    exact ⟨other, (mem_result other).mpr kept, within⟩

/-- The clauses that are kept for a cut set: clauses with a literal, all of them or so many that each of them has
all literals of a kept one.
-/
structure Kept (config : CutSetConfig) (clauses kept : Clauses) : Prop where
  short : kept.length ≤ clauses.length
  among : ∀ clause ∈ kept, clause ∈ clauses ∧ clause ≠ []
  all : config.dropSubsumed = false → kept = clauses.filter (!·.isEmpty)
  smaller : ∀ clause ∈ clauses, clause ≠ [] → ∃ other ∈ kept, ∀ l ∈ other, l ∈ clause

theorem kept_simplify (config : CutSetConfig) (clauses : Clauses)
    : Kept config clauses (simplify config clauses) := by
  have short : (clauses.filter (!·.isEmpty)).length ≤ clauses.length := List.length_filter_le _ _
  have members : ∀ clause, clause ∈ clauses.filter (!·.isEmpty) ↔ clause ∈ clauses ∧ clause ≠ [] := by
    simp [List.mem_filter]
  rw [simplify]
  split
  · rename_i drops
    obtain ⟨length, inside, smaller⟩ := dropSubsumed_spec (clauses.filter (!·.isEmpty))
    refine ⟨Nat.le_trans length short, fun clause member => (members clause).mp (inside clause member),
      fun keeps => ?_, fun clause member some => smaller clause ((members clause).mpr ⟨member, some⟩)⟩
    exact absurd (drops.symm.trans keeps) (by decide)
  · exact ⟨short, fun clause member => (members clause).mp member, fun _ => rfl,
      fun clause member some => ⟨clause, (members clause).mpr ⟨member, some⟩, fun _ inside => inside⟩⟩

/-- No literal without a complement is in a clause of two literals, where equivalent variables are merged. -/
def Mergeable (config : CutSetConfig) (clauses : Clauses) : Prop :=
  config.mergeEquivalent = true
    → ∀ clause ∈ simplify config clauses, clause.length = 2 → ¬ Lit.least ∈ clause

theorem mergeable_of_proper {config : CutSetConfig} {clauses : Clauses}
    (proper : ∀ clause ∈ clauses, ∀ l ∈ clause, Lit.Proper l)
    : Mergeable config clauses := by
  intro _ clause member _ inside
  exact (proper clause ((kept_simplify config clauses).among clause member).1 _ inside).ne_least rfl

theorem mergedVariables_ok {config : CutSetConfig} {clauses : Clauses} (mergeable : Mergeable config clauses)
    : ∃ classes, mergedVariables config (simplify config clauses) = .ok classes := by
  rw [mergedVariables]
  split
  · rename_i merges
    exact representatives_ok (mergeable merges)
  · exact ⟨∅, rfl⟩

-----------------------------------------------------------------------------------------
-- The hypergraph
-----------------------------------------------------------------------------------------

variable {classes : Std.TreeMap Var Var} {clauses : Clauses}

/-- The positions listed for a class are those of the clauses of its variables. -/
theorem mem_pinsByClass {edge : Var × List Nat} (member : edge ∈ pinsByClass classes clauses) {pin : Nat}
    : pin ∈ edge.2 ↔ ∃ v, clauses.OccursAt v pin ∧ classes.getD v v = edge.1 := by
  have found := Std.TreeMap.mem_toList_iff_getElem?_eq_some.mp member
  have positions : edge.2 = (clauses.positionsBy fun l => classes.getD l.var l.var).getD edge.1 [] := by
    rw [Std.TreeMap.getD_eq_getD_getElem?, found]
    rfl
  rw [positions, Clauses.mem_getD_positionsBy]
  constructor
  · rintro ⟨clause, at_, l, inside, same⟩
    exact ⟨l.var, ⟨clause, at_, l, inside, rfl⟩, same⟩
  · rintro ⟨v, ⟨clause, at_, l, inside, rfl⟩, same⟩
    exact ⟨clause, at_, l, inside, same⟩

theorem pins_lt {edge : Var × List Nat} (member : edge ∈ pinsByClass classes clauses)
    : ∀ pin ∈ edge.2, pin < clauses.length := by
  intro pin listed
  obtain ⟨v, occurs, -⟩ := (mem_pinsByClass member).mp listed
  exact occurs.lt

/-- The hyperedges that span both sides are found, if there is one side for each clause. -/
theorem filter_spans_ok (classes : Std.TreeMap Var Var) {sides : Array Bool} (oneEach : sides.size = clauses.length)
    : filterChecked (fun edge => Hypergraph.spans sides edge.2) (pinsByClass classes clauses)
      = .ok ((pinsByClass classes clauses).filter fun edge => (Hypergraph.tally sides edge.2).split) :=
  Checked.filterChecked_ok fun _ member => Hypergraph.spans_eq fun pin listed => oneEach ▸ pins_lt member pin listed

/-- Every variable that occurs has a hyperedge. -/
theorem exists_pinsByClass {v : Var} {p : Nat} (occurs : clauses.OccursAt v p)
    : ∃ edge ∈ pinsByClass classes clauses, edge.1 = classes.getD v v := by
  obtain ⟨clause, at_, l, inside, rfl⟩ := occurs
  have known : classes.getD l.var l.var ∈ clauses.positionsBy fun l => classes.getD l.var l.var :=
    Clauses.mem_positionsBy.mpr ⟨clause, List.mem_of_getElem? at_, l, inside, rfl⟩
  have present := Std.TreeMap.getElem?_eq_some_getElem known
  exact ⟨(_, _), Std.TreeMap.mem_toList_iff_getElem?_eq_some.mpr present, rfl⟩

/-- The hypergraph of clauses for which there is room. -/
theorem hypergraph_ok (classes : Std.TreeMap Var Var) {clauses : Clauses}
    (room : clauses.length ≤ Hypergraph.largestNodeCount)
    : ∃ h, hypergraph classes clauses = .ok h := by
  obtain ⟨h, made, -⟩ := @Hypergraph.ofEdges_ok clauses.length
    ((pinsByClass classes clauses).map fun edge => dropRepeats edge.2) room (by
      intro _ listed pin member
      obtain ⟨edge, found, rfl⟩ := List.mem_map.mp listed
      exact pins_lt found pin (mem_dropRepeats.mp member))
  exact ⟨h, made⟩

/-- The nodes of the hypergraph are the clauses, and so are its pins. -/
theorem hypergraph_spec {h : Hypergraph} (made : hypergraph classes clauses = .ok h)
    : h.nodeCount = clauses.length ∧ ∀ pins ∈ h.edges.toList, ∀ pin ∈ pins, pin < clauses.length := by
  obtain ⟨count, edges⟩ := Hypergraph.ofEdges_spec made
  refine ⟨count, fun pins listed pin member => ?_⟩
  rw [edges] at listed
  obtain ⟨edge, found, rfl⟩ := List.mem_map.mp listed
  exact pins_lt found pin (mem_dropRepeats.mp member)

-----------------------------------------------------------------------------------------
-- Computation
-----------------------------------------------------------------------------------------

/-- No variable outside of the set occurs in clauses on different sides. -/
def Separates (clauses : Clauses) (sides : Array Bool) (cut : SortedSet Var) : Prop :=
  ∀ v, ¬ v ∈ cut → ∀ i j, clauses.OccursAt v i → clauses.OccursAt v j → sides[i]? = sides[j]?

/-- A bisection of the kept clauses that a set of variables separates. -/
structure Separated (config : CutSetConfig) (bisect : Bisector) (clauses : Clauses) (cut : SortedSet Var)
    : Prop where
  kept : Kept config clauses (simplify config clauses)
  sides
    : ∃ classes h,
        mergedVariables config (simplify config clauses) = .ok classes
        ∧ hypergraph classes (simplify config clauses) = .ok h
        ∧ (bisect h config.imbalance).size = (simplify config clauses).length
        ∧ Separates (simplify config clauses) (bisect h config.imbalance) cut

/-- Some variables of clauses, at least one if there are any. -/
structure Usable (clauses : Clauses) (cut : SortedSet Var) : Prop where
  within : ∀ v, v ∈ cut → v ∈ clauses.vars
  inhabited : ∀ v, v ∈ clauses.vars → ∃ w, w ∈ cut

/-- The variables that a bisection cuts. -/
def separating (classes : Std.TreeMap Var Var) (kept : Clauses) (sides : Array Bool)
    (counts : Std.TreeMap Var Nat) : List Var :=
  counts.keys.filter fun v =>
    (((pinsByClass classes kept).filter fun edge => (Hypergraph.tally sides edge.2).split).map Prod.fst).contains
      (classes.getD v v)

/-- A variable that is not cut has its clauses on one side: its hyperedge does not span both, and has all of
them.
-/
theorem separates_of_separating {kept : Clauses} {sides : Array Bool} {counts : Std.TreeMap Var Nat}
    (oneEach : sides.size = kept.length) (counted : ∀ v, v ∈ kept.vars → v ∈ counts.keys) {cut : SortedSet Var}
    (covers : ∀ v ∈ separating classes kept sides counts, v ∈ cut)
    : Separates kept sides cut := by
  intro v outside i j left right
  by_contra apart
  obtain ⟨edge, listed, key⟩ := exists_pinsByClass left
  have first : i ∈ edge.2 := (mem_pinsByClass listed).mpr ⟨v, left, key.symm⟩
  have second : j ∈ edge.2 := (mem_pinsByClass listed).mpr ⟨v, right, key.symm⟩
  have spans : (Hypergraph.tally sides edge.2).split = true := by
    refine Hypergraph.split_of_ne first second ?_ ?_ apart
    · rw [oneEach]
      exact left.lt
    · rw [oneEach]
      exact right.lt
  refine outside (covers v (List.mem_filter.mpr ⟨counted v (Clauses.mem_vars_iff.mpr ⟨i, left⟩), ?_⟩))
  rw [List.contains_iff_mem, ← key]
  exact List.mem_map_of_mem (List.mem_filter.mpr ⟨listed, spans⟩)

/-- The variables that are chosen: those that separate, or else one with the most occurrences. -/
theorem chosen_spec {clauses : Clauses} {separating : List Var}
    (occur : ∀ v ∈ separating, v ∈ clauses.occurrenceCounts.keys)
    : let cut := SortedSet.ofList
        (if separating.isEmpty then (Clauses.mostFrequent clauses.occurrenceCounts).toList else separating)
      Usable clauses cut ∧ ∀ v ∈ separating, v ∈ cut := by
  have occurs : ∀ {v}, v ∈ clauses.occurrenceCounts.keys ↔ v ∈ clauses.vars := by
    intro v
    rw [Std.TreeMap.mem_keys, Clauses.mem_occurrenceCounts]
  cases separating with
  | cons first rest =>
      refine ⟨⟨fun v member => ?_, fun _ _ => ⟨first, SortedSet.mem_ofList.mpr List.mem_cons_self⟩⟩,
        fun v member => SortedSet.mem_ofList.mpr member⟩
      exact occurs.mp (occur v (SortedSet.mem_ofList.mp member))
  | nil =>
      refine ⟨?_, by simp⟩
      rcases clauses.mostOccurring_spec with ⟨nothing, nowhere⟩ | ⟨v, inside, found⟩
      · have none : Clauses.mostFrequent clauses.occurrenceCounts = none := nothing
        refine ⟨fun v member => ?_, fun v inside => absurd inside (nowhere v)⟩
        simp [none] at member
      · have only : Clauses.mostFrequent clauses.occurrenceCounts = some v := found
        simp only [List.isEmpty_nil, if_true, only, Option.toList_some]
        refine ⟨fun w member => ?_, fun _ _ => ⟨v, by simp⟩⟩
        obtain rfl : w = v := by simpa using member
        exact inside

variable {ε : Type} {cuts : CutSets}

/-- The variables of the kept clauses have a count. -/
theorem mem_keys_of_kept {config : CutSetConfig} {clauses : Clauses} {v : Var}
    (occurs : v ∈ (simplify config clauses).vars)
    : v ∈ clauses.occurrenceCounts.keys := by
  obtain ⟨clause, member, l, inside, rfl⟩ := Clauses.mem_vars.mp occurs
  rw [Std.TreeMap.mem_keys, Clauses.mem_occurrenceCounts]
  exact Clauses.var_mem_vars ((kept_simplify config clauses).among clause member).1 inside

/-- A cut set is computed for clauses whose pairs of literals have complements and that have room. -/
theorem compute_yields {clauses : Clauses} {counts : Std.TreeMap Var Nat} (dividing : cuts.Dividing)
    (mergeable : Mergeable cuts.config clauses) (room : clauses.length ≤ Hypergraph.largestNodeCount)
    : Action.Yields (compute clauses counts : Action ε CutSets (SortedSet Var)) cuts
        fun _ after => after = cuts := by
  obtain ⟨classes, merged⟩ := mergedVariables_ok mergeable
  obtain ⟨h, made⟩ := hypergraph_ok classes (Nat.le_trans (kept_simplify cuts.config clauses).short room)
  obtain ⟨count, inside⟩ := hypergraph_spec made
  have oneEach := (dividing h cuts.config.imbalance).trans count
  have spans := filter_spans_ok classes oneEach
  have cutCount := Hypergraph.cut_eq fun pins listed pin member => oneEach ▸ inside pins listed pin member
  rw [compute]
  apply Action.Yields.current
  apply Action.Yields.checked merged
  apply Action.Yields.checked made
  apply Action.Yields.checked spans
  apply Action.Yields.checked cutCount
  apply Action.Yields.note
  exact Action.Yields.pure rfl

/-- What is computed is usable and separates. -/
theorem compute_ensures (dividing : cuts.Dividing) (clauses : Clauses) (stop : CutSets → Prop)
    : Action.Ensures (compute clauses clauses.occurrenceCounts : Action ε CutSets (SortedSet Var)) cuts
        (fun cut after => after = cuts ∧ Usable clauses cut
          ∧ Separated cuts.config cuts.bisect clauses cut) stop := by
  rw [compute]
  apply Action.Ensures.current
  apply Action.Ensures.checked
  intro classes merged
  apply Action.Ensures.checked
  intro h made
  have oneEach := (dividing h cuts.config.imbalance).trans (hypergraph_spec made).1
  have spans := filter_spans_ok classes oneEach
  apply Action.Ensures.checked
  intro spanning found
  obtain rfl := Except.ok.inj (spans.symm.trans found)
  have usable := @chosen_spec clauses (separating classes (simplify cuts.config clauses)
    (cuts.bisect h cuts.config.imbalance) clauses.occurrenceCounts)
    fun v member => List.mem_of_mem_filter member
  apply Action.Ensures.checked
  intro _ _
  apply Action.Ensures.note
  exact Action.Ensures.pure ⟨rfl, usable.1, kept_simplify _ _, classes, h, merged, made, oneEach,
    separates_of_separating oneEach (fun v occurs => mem_keys_of_kept occurs) usable.2⟩

/-- A residual formula whose pairs of literals have complements and that has room has a cut set; the bisection
procedure stays.
-/
theorem cutSet_yields {g : Residual} (dividing : cuts.Dividing) (mergeable : Mergeable cuts.config g.current)
    (room : g.current.length ≤ Hypergraph.largestNodeCount)
    : Action.Yields (cutSet g : Action ε CutSets (SortedSet Var)) cuts
        fun _ after => after.Dividing := by
  have computed : ∀ counts, Action.Yields (compute g.current counts : Action ε CutSets (SortedSet Var))
      { cuts with calls := cuts.calls + 1 } fun _ after => after.Dividing := fun counts =>
    (@compute_yields _ { cuts with calls := cuts.calls + 1 } _ _ dividing mergeable room).mono
      fun _ after same => by rw [same]; exact dividing
  rw [cutSet]
  apply Action.Yields.update
  dsimp only
  split
  · exact Action.Yields.pure dividing
  apply Action.Yields.current
  dsimp only
  split
  · exact computed _
  split
  · apply Action.Yields.update
    apply Action.Yields.note
    exact Action.Yields.pure dividing
  · refine Action.Yields.bind (computed _) fun cut after still => ?_
    apply Action.Yields.update
    exact Action.Yields.pure still

-----------------------------------------------------------------------------------------
-- Replay
-----------------------------------------------------------------------------------------

/-- The positions kept for replay are places of their keys, at least one for each key. -/
def Replayable (cuts : CutSets) : Prop :=
  ∀ entry ∈ cuts.replays, entry.2 ≠ [] ∧ ∀ position ∈ entry.2, position < entry.1.length

/-- The variables with a signature are those that occur. -/
theorem mem_signed {config : CutSetConfig} {clauses : Clauses} {v : Var}
    : v ∈ (signed config clauses clauses.occurrenceCounts).map Prod.snd ↔ v ∈ clauses.vars := by
  rw [← Clauses.mem_counts_iff]
  simp only [signed, List.mem_map, mem_sortBy, exists_exists_and_eq_and]

/-- The places of a cut set are places of the variables with a signature. -/
theorem replayable_positions {config : CutSetConfig} {clauses : Clauses} {cut : SortedSet Var} {v : Var}
    (usable : Usable clauses cut) (occurs : v ∈ clauses.vars)
    : let vars := signed config clauses clauses.occurrenceCounts
      let positions := (vars.zipIdx.filter fun entry => cut.contains entry.1.2).map (·.2)
      positions ≠ [] ∧ ∀ position ∈ positions, position < (vars.map (·.1)).length := by
  intro vars positions
  constructor
  · obtain ⟨w, chosen⟩ := usable.inhabited v occurs
    obtain ⟨entry, listed, rfl⟩ := List.mem_map.mp (mem_signed.mpr (usable.within w chosen))
    obtain ⟨position, here⟩ := List.getElem?_of_mem listed
    have member : position ∈ positions :=
      List.mem_map.mpr ⟨(entry, position), List.mem_filter.mpr
        ⟨List.mem_zipIdx_iff_getElem?.mpr here, by simpa using chosen⟩, rfl⟩
    exact List.ne_nil_of_mem member
  · intro position member
    obtain ⟨entry, listed, rfl⟩ := List.mem_map.mp member
    have here := List.mem_zipIdx_iff_getElem?.mp (List.mem_of_mem_filter listed)
    rw [List.length_map]
    exact (List.getElem?_eq_some_iff.mp here).1

/-- What is replayed at places of the variables with a signature is usable. -/
theorem usable_replayed {config : CutSetConfig} {clauses : Clauses} {positions : List Nat}
    (some : positions ≠ [])
    (inside : ∀ position ∈ positions,
      position < (signed config clauses clauses.occurrenceCounts).length)
    : Usable clauses (SortedSet.ofList (positions.filterMap fun position =>
        ((signed config clauses clauses.occurrenceCounts)[position]?).map (·.2))) := by
  constructor
  · intro v member
    obtain ⟨position, -, found⟩ := List.mem_filterMap.mp (SortedSet.mem_ofList.mp member)
    obtain ⟨entry, here, rfl⟩ := Option.map_eq_some_iff.mp found
    exact mem_signed.mp (List.mem_map_of_mem (List.mem_of_getElem? here))
  · intro _ _
    obtain ⟨position, member⟩ := List.exists_mem_of_ne_nil positions some
    have here := List.getElem?_eq_getElem (inside position member)
    exact ⟨_, SortedSet.mem_ofList.mpr (List.mem_filterMap.mpr ⟨position, member, by rw [here]; rfl⟩)⟩

/-- What holds of a cut set and of the source that it comes from: the source can go on, the cut set is usable, and
if it has not been replayed, then it separates.
-/
structure Serves (g : Residual) (cuts : CutSets) (cut : SortedSet Var) (after : CutSets) : Prop where
  config : after.config = cuts.config
  bisect : after.bisect = cuts.bisect
  replayable : after.Replayable
  usable : Usable g.current cut
  separated
    : ∀ v, v ∈ g.vars → after.hits = cuts.hits → Separated cuts.config cuts.bisect g.current cut

/-- A cut set of a residual formula, computed or replayed. -/
theorem cutSet_ensures (g : Residual) (dividing : cuts.Dividing) (replayable : cuts.Replayable)
    : Action.Ensures (cutSet g : Action ε CutSets (SortedSet Var)) cuts (Serves g cuts) fun _ => True := by
  have computed : Action.Ensures (compute g.current g.occurrenceCounts : Action ε CutSets (SortedSet Var))
      { cuts with calls := cuts.calls + 1 } _ fun _ => True :=
    @compute_ensures _ { cuts with calls := cuts.calls + 1 } dividing g.current fun _ => True
  have counted {v : Var} : v ∈ g.occurrenceCounts ↔ v ∈ g.vars := Clauses.mem_occurrenceCounts
  rw [cutSet]
  apply Action.Ensures.update
  dsimp only
  split
  · rename_i empty
    have nowhere : ∀ v, ¬ v ∈ g.vars := fun v inside =>
      Std.TreeMap.not_mem_of_isEmpty empty (counted.mpr inside)
    exact Action.Ensures.pure ⟨rfl, rfl, replayable,
      ⟨fun v member => absurd member SortedSet.not_mem_empty, fun v inside => absurd inside (nowhere v)⟩,
      fun v inside => absurd inside (nowhere v)⟩
  rename_i some
  obtain ⟨v, known⟩ := Std.TreeMap.isEmpty_eq_false_iff_exists_mem.mp (Bool.eq_false_of_not_eq_true some)
  apply Action.Ensures.current
  dsimp only
  split
  · refine computed.mono (fun cut after result => ?_) fun _ => id
    obtain ⟨rfl, usable, separated⟩ := result
    exact ⟨rfl, rfl, replayable, usable, fun _ _ _ => separated⟩
  split
  · rename_i positions found
    apply Action.Ensures.update
    apply Action.Ensures.note
    refine Action.Ensures.pure ⟨rfl, rfl, replayable, ?_, fun _ _ same => ?_⟩
    · obtain ⟨before, after, split, -⟩ := List.lookup_eq_some_iff.mp found
      have listed : (_, positions) ∈ cuts.replays := split ▸ List.mem_append_right _ List.mem_cons_self
      obtain ⟨some, inside⟩ := replayable _ listed
      exact usable_replayed some (by simpa [Residual.occurrenceCounts] using inside)
    · simp at same
  · refine Action.Ensures.bind computed fun cut after result => ?_
    obtain ⟨rfl, usable, separated⟩ := result
    apply Action.Ensures.update
    refine Action.Ensures.pure ⟨rfl, rfl, ?_, usable, fun _ _ _ => separated⟩
    exact List.forall_mem_cons.mpr ⟨replayable_positions usable (counted.mp known), replayable⟩

end CutSets

end KnowledgeCompiler
