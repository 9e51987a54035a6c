import Mathlib.Data.Bool.Count
import KnowledgeCompiler.Hypergraph.Bisection
import KnowledgeCompiler.Proofs.Checked

/-! What a move does to the cut.

The pins of a hyperedge on each side tell whether it is cut. When a node changes its side, one pin of each of
its hyperedges does, if none repeats a pin, and what these hyperedges gain is what the cut loses.
-/

namespace KnowledgeCompiler.Hypergraph

-----------------------------------------------------------------------------------------
-- Tallies
-----------------------------------------------------------------------------------------

/-- The number of pins on each side. -/
def tally (sides : Array Bool) (pins : List Nat) : PerSide :=
  { left := pins.countP fun pin => !sides.getD pin false
    right := pins.countP fun pin => sides.getD pin false }

/-- The number of nodes on each side. -/
def census (sides : Array Bool) : PerSide :=
  { left := sides.count false, right := sides.count true }

/-- Neither side has more than the largest number of nodes. -/
def Balanced (largest : Nat) (sides : Array Bool) : Prop := ∀ side, sides.count side ≤ largest

/-- Whether there is something on both sides. -/
def PerSide.split (counts : PerSide) : Bool := decide (0 < counts.left ∧ 0 < counts.right)

/-- The number of hyperedges with pins on both sides. -/
def cutSize (h : Hypergraph) (sides : Array Bool) : Nat :=
  h.edges.toList.countP fun pins => (tally sides pins).split

/-- The division after a node has changed its side. -/
def flip (sides : Array Bool) (node : Nat) : Array Bool := sides.modify node (!·)

/-- A hypergraph whose hyperedges are sets of nodes, each listed at its nodes. -/
structure Simple (h : Hypergraph) : Prop where
  inside : ∀ pins ∈ h.edges.toList, ∀ pin ∈ pins, pin < h.nodeCount
  distinct : ∀ pins ∈ h.edges.toList, pins.Nodup
  incident
    : ∀ node < h.nodeCount,
        h.edgesOf node = (h.edges.toList.zipIdx.filter fun entry => node ∈ entry.1).map Prod.snd

variable {h : Hypergraph} {sides : Array Bool} {pins : List Nat} {node : Nat}

theorem spans_eq (inside : ∀ pin ∈ pins, pin < sides.size)
    : spans sides pins = .ok (tally sides pins).split := by
  have side : ∀ pin ∈ pins, sideOf sides pin = .ok (sides.getD pin false) := by
    intro pin member
    simp [sideOf, Array.getD_eq_getD_getElem?, inside pin member]
    rfl
  have other : ∀ pin ∈ pins, (do return !(← sideOf sides pin) : Checked Bool)
      = .ok (!sides.getD pin false) := by
    intro pin member
    rw [side pin member]
    rfl
  rw [spans, Checked.anyM_ok side, PerSide.split, tally]
  simp only [List.countP_pos_iff]
  cases right : pins.any fun pin => sides.getD pin false with
  | false =>
      have none : ¬ ∃ pin ∈ pins, sides.getD pin false = true := by simpa using right
      rw [decide_eq_false fun both => none both.2]
      rfl
  | true =>
      have some : ∃ pin ∈ pins, sides.getD pin false = true := by simpa using right
      simp only [some, and_true]
      refine (Checked.anyM_ok other).trans (congrArg Except.ok ?_)
      rw [Bool.eq_iff_iff, List.any_eq_true, decide_eq_true_iff]

/-- A pin has its own side among those that count. -/
theorem tally_pos (member : node ∈ pins) : 0 < (tally sides pins).on (sides.getD node false) := by
  cases side : sides.getD node false with
  | false => exact List.countP_pos_iff.mpr ⟨node, member, by simp [side]⟩
  | true => exact List.countP_pos_iff.mpr ⟨node, member, side⟩

/-- Pins on different sides are on both. -/
theorem split_of_ne {a b : Nat} (left : a ∈ pins) (right : b ∈ pins) (insideA : a < sides.size)
    (insideB : b < sides.size) (apart : ¬ sides[a]? = sides[b]?)
    : (tally sides pins).split = true := by
  have value {pin : Nat} (inside : pin < sides.size) : sides[pin]? = some (sides.getD pin false) := by
    rw [Array.getD_eq_getD_getElem?, Array.getElem?_eq_getElem inside]
    rfl
  rw [value insideA, value insideB] at apart
  have first : 0 < (tally sides pins).on (sides.getD a false) := tally_pos left
  have second : 0 < (tally sides pins).on (sides.getD b false) := tally_pos right
  rw [PerSide.split, decide_eq_true_iff]
  cases sideA : sides.getD a false <;> cases sideB : sides.getD b false
    <;> simp_all [PerSide.on]

theorem cut_eq (inside : ∀ pins ∈ h.edges.toList, ∀ pin ∈ pins, pin < sides.size)
    : h.cut sides = .ok (h.cutSize sides) := by
  rw [cut, Checked.filterChecked_ok fun pins member => spans_eq (inside pins member), cutSize,
    List.countP_eq_length_filter]
  rfl

-----------------------------------------------------------------------------------------
-- Construction
-----------------------------------------------------------------------------------------

theorem ofEdges_ok {nodeCount : Nat} {edges : List (List Nat)} (room : nodeCount ≤ largestNodeCount)
    (inside : ∀ pins ∈ edges, ∀ pin ∈ pins, pin < nodeCount)
    : ∃ h, ofEdges nodeCount edges = .ok h ∧ h.nodeCount = nodeCount ∧ h.edges = edges.toArray := by
  have all : (edges.all fun pins => pins.all (· < nodeCount)) = true := by
    simpa [List.all_eq_true] using inside
  rw [ofEdges, if_neg (Nat.not_lt.mpr room), if_pos all]
  exact ⟨_, rfl, rfl, rfl⟩

/-- A hypergraph has the nodes and the hyperedges that it is made of. -/
theorem ofEdges_spec {nodeCount : Nat} {edges : List (List Nat)} (built : ofEdges nodeCount edges = .ok h)
    : h.nodeCount = nodeCount ∧ h.edges.toList = edges := by
  rw [ofEdges] at built
  split at built
  · cases built
  split at built
  · cases built
    exact ⟨rfl, rfl⟩
  · cases built

/-- Entering the pins of one hyperedge adds it once for each time that the node is a pin; induction on the
pins.
-/
theorem getElem?_enterPins (edge : Nat) (pins : List Nat) (lists : Array (List Nat)) (node : Nat)
    : (pins.foldr (fun pin lists => lists.modify pin (edge :: ·)) lists)[node]?
      = lists[node]?.map (((pins.filter fun pin => pin = node).map fun _ => edge) ++ ·) := by
  induction pins with
  | nil => simp
  | cons pin rest ih =>
      rw [List.foldr_cons, Array.getElem?_modify, ih]
      by_cases same : pin = node
      · simp [same, Function.comp_def]
      · simp [same]

/-- The hyperedges of a node are those that have it as a pin; induction on the numbered hyperedges. -/
theorem getElem?_enterEdges (entries : List (List Nat × Nat)) (distinct : ∀ entry ∈ entries, entry.1.Nodup)
    (lists : Array (List Nat)) (node : Nat)
    : (entries.foldr
        (fun edge lists => edge.1.foldr (fun pin lists => lists.modify pin (edge.2 :: ·)) lists)
        lists)[node]?
      = lists[node]?.map (((entries.filter fun entry => node ∈ entry.1).map Prod.snd) ++ ·) := by
  induction entries with
  | nil => simp
  | cons entry rest ih =>
      obtain ⟨first, later⟩ := List.forall_mem_cons.mp distinct
      have own : (entry.1.filter fun pin => pin = node).map (fun _ => entry.2)
          = if node ∈ entry.1 then [entry.2] else [] := by
        rw [List.filter_eq, first.count]
        split <;> rfl
      rw [List.foldr_cons, getElem?_enterPins, ih later, own]
      by_cases member : node ∈ entry.1
      · simp [member, Function.comp_def]
      · simp [member, Function.comp_def]

/-- A hypergraph of hyperedges that repeat no pin is simple. -/
theorem simple_ofEdges {nodeCount : Nat} {edges : List (List Nat)} (built : ofEdges nodeCount edges = .ok h)
    (distinct : ∀ pins ∈ edges, pins.Nodup)
    : h.nodeCount = nodeCount ∧ h.edges.toList = edges ∧ h.Simple := by
  rw [ofEdges] at built
  split at built
  · cases built
  split at built
  · rename_i inside
    cases built
    refine ⟨rfl, rfl, ?_, distinct, fun node below => ?_⟩
    · simpa [List.all_eq_true] using inside
    · have entered := getElem?_enterEdges edges.zipIdx
        (fun entry member => distinct entry.1 (List.fst_mem_of_mem_zipIdx member))
        (Array.replicate nodeCount []) node
      have here : (Array.replicate nodeCount ([] : List Nat))[node]? = some [] :=
        by rw [Array.getElem?_replicate, if_pos below]
      rw [here] at entered
      rw [edgesOf, Array.getD_eq_getD_getElem?]
      dsimp only
      rw [entered]
      simp
  · cases built

-----------------------------------------------------------------------------------------
-- Moves
-----------------------------------------------------------------------------------------

@[simp]
theorem size_flip (sides : Array Bool) (node : Nat) : (flip sides node).size = sides.size := by
  simp [flip]

theorem getElem?_flip (sides : Array Bool) (node other : Nat)
    : (flip sides node)[other]? = if node = other then sides[other]?.map (!·) else sides[other]? :=
  Array.getElem?_modify

/-- Changing the side twice changes nothing. -/
theorem flip_flip (sides : Array Bool) (node : Nat) : flip (flip sides node) node = sides := by
  refine Array.ext_getElem? fun other => ?_
  rw [getElem?_flip, getElem?_flip]
  split
  · simp [Function.comp_def]
  · rfl

theorem flip_comm (sides : Array Bool) (a b : Nat) : flip (flip sides a) b = flip (flip sides b) a := by
  refine Array.ext_getElem? fun other => ?_
  simp only [getElem?_flip]
  split
  · split <;> rfl
  · rfl

/-- A later change of side can be made first; induction on the changes. -/
theorem foldl_flip_comm (nodes : List Nat) (sides : Array Bool) (node : Nat)
    : nodes.foldl flip (flip sides node) = flip (nodes.foldl flip sides) node := by
  induction nodes generalizing sides with
  | nil => rfl
  | cons other rest ih => rw [List.foldl_cons, List.foldl_cons, flip_comm, ih]

theorem getD_flip (below : node < sides.size) (other : Nat)
    : (flip sides node).getD other false
      = if node = other then !sides.getD other false else sides.getD other false := by
  simp only [Array.getD_eq_getD_getElem?, getElem?_flip]
  split
  · rename_i same
    subst same
    simp [below]
  · rfl

theorem flip_eq_setIfInBounds (sides : Array Bool) (node : Nat)
    : sides.setIfInBounds node (!sides.getD node false) = flip sides node := by
  refine Array.ext_getElem? fun other => ?_
  rw [getElem?_flip, Array.getElem?_setIfInBounds]
  split
  · rename_i same
    subst same
    by_cases below : node < sides.size
    · simp [below]
    · simp [below]
  · rfl

/-- A count grows by one if one member more counts. -/
theorem countP_succ {α : Type} [DecidableEq α] {items : List α} {p q : α → Bool} {a : α} (distinct : items.Nodup)
    (member : a ∈ items) (others : ∀ b ∈ items, b ≠ a → p b = q b) (before : p a = false)
    (after : q a = true)
    : items.countP q = items.countP p + 1 := by
  have perm := List.perm_cons_erase member
  have rest : (items.erase a).countP q = (items.erase a).countP p := by
    refine List.countP_congr fun b known => ?_
    obtain ⟨differ, inside⟩ := distinct.mem_erase_iff.mp known
    rw [others b inside differ]
  rw [perm.countP_eq, perm.countP_eq, List.countP_cons_of_pos after,
    List.countP_cons_of_neg (by simp [before]), rest]

/-- The tally of a hyperedge changes with one of its pins. -/
theorem tally_flip (distinct : pins.Nodup) (below : node < sides.size)
    : tally (flip sides node) pins
      = if node ∈ pins then (tally sides pins).moveFrom (sides.getD node false) else tally sides pins := by
  have elsewhere : ∀ pin, pin ≠ node → (flip sides node).getD pin false = sides.getD pin false := by
    intro pin differ
    rw [getD_flip below, if_neg (Ne.symm differ)]
  have here : (flip sides node).getD node false = !sides.getD node false := by
    rw [getD_flip below, if_pos rfl]
  by_cases member : node ∈ pins
  · rw [if_pos member]
    cases side : sides.getD node false with
    | false =>
        rw [side] at here
        have right := countP_succ (p := fun pin => sides.getD pin false)
          (q := fun pin => (flip sides node).getD pin false) distinct member
          (fun pin _ differ => (elsewhere pin differ).symm) side here
        have left := countP_succ (p := fun pin => !(flip sides node).getD pin false)
          (q := fun pin => !sides.getD pin false) distinct member
          (fun pin _ differ => by rw [elsewhere pin differ]) (by simp [here]) (by simp [side])
        simp only [tally, PerSide.moveFrom, right, left]
        simp
    | true =>
        rw [side] at here
        have right := countP_succ (p := fun pin => (flip sides node).getD pin false)
          (q := fun pin => sides.getD pin false) distinct member
          (fun pin _ differ => elsewhere pin differ) here side
        have left := countP_succ (p := fun pin => !sides.getD pin false)
          (q := fun pin => !(flip sides node).getD pin false) distinct member
          (fun pin _ differ => by rw [elsewhere pin differ]) (by simp [side]) (by simp [here])
        simp only [tally, PerSide.moveFrom, right, left]
        simp
  · rw [if_neg member]
    have same : ∀ pin ∈ pins, (flip sides node).getD pin false = sides.getD pin false :=
      fun pin known => elsewhere pin fun equal => member (equal ▸ known)
    simp only [tally]
    congr 1
    · exact List.countP_congr fun pin member => by rw [same pin member]
    · exact List.countP_congr fun pin member => by rw [same pin member]

theorem on_census (sides : Array Bool) (side : Bool) : (census sides).on side = sides.count side := by
  cases side <;> rfl

theorem census_pos (below : node < sides.size) : 0 < (census sides).on (sides.getD node false) := by
  have member : sides.getD node false ∈ sides := by
    rw [Array.getD_eq_getD_getElem?, Array.getElem?_eq_getElem below]
    exact Array.getElem_mem below
  cases side : sides.getD node false with
  | false => exact Array.count_pos_iff.mpr (side ▸ member)
  | true => exact Array.count_pos_iff.mpr (side ▸ member)

/-- One node changes its side. -/
theorem census_flip (below : node < sides.size)
    : census (flip sides node) = (census sides).moveFrom (sides.getD node false) := by
  have value : sides.getD node false = sides[node] := by
    rw [Array.getD_eq_getD_getElem?, Array.getElem?_eq_getElem below]
    rfl
  have positive := census_pos below
  rw [← flip_eq_setIfInBounds, Array.setIfInBounds, dif_pos below]
  cases side : sides.getD node false with
  | false => simp [census, PerSide.moveFrom, Array.count_set, ← value, side]
  | true => simp [census, PerSide.moveFrom, Array.count_set, ← value, side]

/-- Every node is on one of the two sides. -/
theorem census_add (sides : Array Bool) : (census sides).left + (census sides).right = sides.size := by
  have split := List.count_false_add_count_true sides.toList
  rwa [Array.count_toList, Array.count_toList, Array.length_toList] at split

end KnowledgeCompiler.Hypergraph
