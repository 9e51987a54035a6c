import Mathlib.Data.Finset.Range
import Mathlib.Logic.Relation
import KnowledgeCompiler.TwoSat
import KnowledgeCompiler.Proofs.Assignment
import KnowledgeCompiler.Proofs.Checked

/-! The two searches through an implication graph.

The first one lists the nodes so that where one node leads to another, some node that goes both ways with
the first comes no later than the second. The second one gives a label to everything that can be reached.
-/

namespace KnowledgeCompiler.TwoSat

/-- There is an edge from one node to another. -/
def Arrow (graph : Array (List Nat)) (i j : Nat) : Prop := j ∈ graph.getD i []

/-- There is a path from one node to another. -/
abbrev Reaches (graph : Array (List Nat)) : Nat → Nat → Prop := Relation.ReflTransGen (Arrow graph)

/-- The positions that still carry a given mark. -/
def positionsWith {α : Type} [DecidableEq α] (mark : α) (marks : Array α) : Finset Nat :=
  (Finset.range marks.size).filter fun i => marks[i]? = some mark

theorem mem_positionsWith {α : Type} [DecidableEq α] {mark : α} {marks : Array α} {i : Nat}
    : i ∈ positionsWith mark marks ↔ marks[i]? = some mark := by
  rw [positionsWith, Finset.mem_filter, Finset.mem_range, and_iff_right_iff_imp]
  intro found
  exact (Array.getElem?_eq_some_iff.mp found).1

/-- Another mark at a position leaves fewer positions with the old one. -/
theorem card_positionsWith_lt {α : Type} [DecidableEq α] {mark other : α} {marks : Array α} {next : Nat}
    (differ : other ≠ mark) (found : marks[next]? = some mark)
    : (positionsWith mark (marks.setIfInBounds next other)).card < (positionsWith mark marks).card := by
  have inside : next < marks.size := (Array.getElem?_eq_some_iff.mp found).1
  refine Finset.card_lt_card ⟨fun i member => ?_, fun back => ?_⟩
  · rw [mem_positionsWith] at member ⊢
    have away : i ≠ next := by
      rintro rfl
      simp [inside, differ] at member
    simpa [Ne.symm away] using member
  · have member := mem_positionsWith.mp (back (mem_positionsWith.mpr found))
    simp [inside, differ] at member

-----------------------------------------------------------------------------------------
-- Labelling
-----------------------------------------------------------------------------------------

/-- A position has a label. -/
def Labelled (labels : Array (Option Nat)) (i : Nat) : Prop := ∃ k, labels[i]? = some (some k)

/-- What labelling has done when some nodes have been looked at: old labels are kept, new labels are the
given one, they are on nodes that can be reached from a start, and what is behind a new label has a
label.
-/
structure Spreading (graph : Array (List Nat)) (label start : Nat) (looked : List Nat)
    (before after : Array (Option Nat)) : Prop where
  size : after.size = before.size
  kept : ∀ {i k : Nat}, before[i]? = some (some k) → after[i]? = some (some k)
  fresh : ∀ {i k : Nat}, before[i]? = some none → after[i]? = some (some k) → k = label
  reached : ∀ {i : Nat}, before[i]? = some none → Labelled after i → Reaches graph start i
  closed
    : ∀ {i j : Nat},
        before[i]? = some none
        → Labelled after i
        → Arrow graph i j
        → j < before.size
        → Labelled after j
  seen : ∀ j ∈ looked, j < before.size → Labelled after j

variable {graph : Array (List Nat)} {label start : Nat} {looked : List Nat}
  {before after : Array (Option Nat)}

theorem Spreading.labelled (spreading : Spreading graph label start looked before after) {i : Nat}
    (old : Labelled before i)
    : Labelled after i := by
  obtain ⟨k, found⟩ := old
  exact ⟨k, spreading.kept found⟩

/-- A position without a label either stays so or gets the new one. -/
theorem none_or_labelled {labels : Array (Option Nat)} {i : Nat} (inside : i < labels.size)
    : labels[i]? = some none ∨ Labelled labels i := by
  rw [Labelled, Array.getElem?_eq_getElem inside]
  cases labels[i] with
  | none => exact .inl rfl
  | some k => exact .inr ⟨k, rfl⟩

theorem not_labelled_of_none {labels : Array (Option Nat)} {i : Nat} (none_ : labels[i]? = some none)
    : ¬ Labelled labels i := by
  rintro ⟨k, found⟩
  rw [none_] at found
  simp at found

/-- Looking at a node that has no label: it is labelled, and so is what can be reached from it. -/
theorem Spreading.step {next : Nat} {last : Array (Option Nat)}
    (spreading : Spreading graph label start looked before after) (arrow : Arrow graph start next)
    (inside : next < before.size) (open_ : after[next]? = some none)
    (rest : Spreading graph label next (graph.getD next []) (after.setIfInBounds next (some label))
      last)
    : Spreading graph label start (next :: looked) before last := by
  have size : (after.setIfInBounds next (some label)).size = before.size := by simp [spreading.size]
  have insideAfter : next < after.size := by rw [spreading.size]; exact inside
  have marked : (after.setIfInBounds next (some label))[next]? = some (some label) := by
    simp [insideAfter]
  have other : ∀ {i}, i ≠ next → (after.setIfInBounds next (some label))[i]? = after[i]? := by
    intro i differ
    simp [Ne.symm differ]
  have carried : ∀ {i}, Labelled after i → Labelled last i := by
    intro i old
    by_cases same : i = next
    · exact absurd (same ▸ old) (not_labelled_of_none open_)
    · obtain ⟨k, found⟩ := old
      exact ⟨k, rest.kept ((other same).trans found)⟩
  have open_before : ∀ {i}, before[i]? = some none → after[i]? = some none ∨ Labelled after i := by
    intro i none_
    refine none_or_labelled ?_
    rw [spreading.size]
    exact (Array.getElem?_eq_some_iff.mp none_).1
  refine ⟨rest.size.trans size, ?_, ?_, ?_, ?_, ?_⟩
  · intro i k found
    have still := spreading.kept found
    by_cases same : i = next
    · rw [same, open_] at still
      simp at still
    · exact rest.kept ((other same).trans still)
  · intro i k none_ found
    rcases open_before none_ with still | ⟨m, already⟩
    · by_cases same : i = next
      · subst same
        rw [rest.kept marked] at found
        exact (Option.some.inj (Option.some.inj found)).symm
      · exact rest.fresh ((other same).trans still) found
    · have differ : i ≠ next := fun same => by simp [same, open_] at already
      have kept := rest.kept ((other differ).trans already)
      rw [kept] at found
      rw [← Option.some.inj (Option.some.inj found)]
      exact spreading.fresh none_ already
  · intro i none_ found
    rcases open_before none_ with still | already
    · by_cases same : i = next
      · exact same ▸ Relation.ReflTransGen.single arrow
      · exact .head arrow (rest.reached ((other same).trans still) found)
    · exact spreading.reached none_ already
  · intro i j none_ found edge there
    rcases open_before none_ with still | already
    · by_cases same : i = next
      · exact rest.seen j (same ▸ edge) (size ▸ there)
      · exact rest.closed ((other same).trans still) found edge (size ▸ there)
    · exact carried (spreading.closed none_ already edge there)
  · refine List.forall_mem_cons.mpr ⟨fun _ => ⟨label, rest.kept marked⟩, fun j member there => ?_⟩
    exact carried (spreading.seen j member there)

theorem Spreading.look {next : Nat} (spreading : Spreading graph label start looked before after)
    (known : next < before.size → Labelled after next)
    : Spreading graph label start (next :: looked) before after :=
  { spreading with seen := List.forall_mem_cons.mpr ⟨known, spreading.seen⟩ }

/-- Nothing has been looked at yet. -/
theorem Spreading.refl : Spreading graph label start [] before before :=
  ⟨rfl, id, fun none_ found => by simp [none_] at found, fun none_ found => absurd found (not_labelled_of_none none_),
    fun none_ found => absurd found (not_labelled_of_none none_), by simp⟩

/-- What has no label later had none before. -/
theorem Spreading.none_before {i : Nat} (spreading : Spreading graph label start looked before after)
    (none_ : after[i]? = some none)
    : before[i]? = some none := by
  have inside : i < before.size := by
    rw [← spreading.size]
    exact (Array.getElem?_eq_some_iff.mp none_).1
  rcases none_or_labelled inside with still | old
  · exact still
  · exact absurd (spreading.labelled old) (not_labelled_of_none none_)

/-- Labelling one more position leaves fewer positions without a label. -/
theorem Spreading.fewer {next : Nat} (spreading : Spreading graph label start looked before after)
    (open_ : after[next]? = some none)
    : (positionsWith none (after.setIfInBounds next (some label))).card < (positionsWith none before).card := by
  refine Nat.lt_of_lt_of_le (card_positionsWith_lt (by simp) open_) (Finset.card_le_card fun i member => ?_)
  rw [mem_positionsWith] at member ⊢
  exact spreading.none_before member

/-- The successors of a node are looked at in turn, given that the search below them labels what can be reached;
induction on the successors.
-/
theorem Spreading.foldl {fuel : Nat} {nexts : List Nat}
    (below : ∀ labels next, (positionsWith none labels).card < fuel →
      Spreading graph label next (graph.getD next []) labels (spread graph label fuel labels next))
    (enough : (positionsWith none before).card ≤ fuel) (arrows : ∀ next ∈ nexts, Arrow graph start next)
    (spreading : Spreading graph label start looked before after)
    : Spreading graph label start (nexts.reverse ++ looked) before
        (nexts.foldl (fun labels next =>
          if (labels.getD next (some label)).isSome then labels
          else spread graph label fuel (labels.setIfInBounds next (some label)) next) after) := by
  induction nexts generalizing looked after with
  | nil => exact spreading
  | cons next rest ih =>
      obtain ⟨arrow, arrowsRest⟩ := List.forall_mem_cons.mp arrows
      rw [List.foldl_cons, List.reverse_cons, List.append_assoc, List.singleton_append]
      refine ih arrowsRest ?_
      by_cases inside : next < before.size
      · have insideAfter : next < after.size := by rw [spreading.size]; exact inside
        rcases none_or_labelled insideAfter with open_ | ⟨k, known⟩
        · have unlabelled : (after.getD next (some label)).isSome = false := by
            simp [Array.getD_eq_getD_getElem?, open_]
          rw [unlabelled, if_neg (by simp)]
          exact spreading.step arrow inside open_ (below _ _ (Nat.lt_of_lt_of_le (spreading.fewer open_) enough))
        · have labelled : (after.getD next (some label)).isSome = true := by
            simp [Array.getD_eq_getD_getElem?, known]
          rw [if_pos labelled]
          exact spreading.look fun _ => ⟨k, known⟩
      · have outside : ¬ next < after.size := by rw [spreading.size]; exact inside
        have labelled : (after.getD next (some label)).isSome = true := by
          simp [Array.getD_eq_getD_getElem?, outside]
        rw [if_pos labelled]
        exact spreading.look fun there => absurd there inside

/-- With fuel for each position without a label, everything that can be reached is labelled; induction on the fuel. -/
theorem spread_spec (graph : Array (List Nat)) (label : Nat) (fuel : Nat)
    (labels : Array (Option Nat)) (node : Nat)
    (enough : (positionsWith none labels).card < fuel)
    : Spreading graph label node (graph.getD node []) labels (spread graph label fuel labels node) := by
  induction fuel generalizing labels node with
  | zero => exact absurd enough (Nat.not_lt_zero _)
  | succ fuel ih =>
      rw [spread]
      have done := Spreading.refl.foldl ih (Nat.le_of_lt_succ enough) fun next (member : next ∈ graph.getD node []) =>
        member
      refine { done with seen := fun j member => done.seen j ?_ }
      simpa using member

-----------------------------------------------------------------------------------------
-- The order in which a search ends
-----------------------------------------------------------------------------------------

/-- A node comes no later than another one in a list. -/
def Before (order : List Nat) (w z : Nat) : Prop :=
  ∃ front back, order = front ++ w :: back ∧ z ∈ w :: back

theorem Before.append_left {order : List Nat} {w z : Nat} (front : List Nat) (before : Before order w z)
    : Before (front ++ order) w z := by
  obtain ⟨first, back, rfl, member⟩ := before
  exact ⟨front ++ first, back, by simp, member⟩

theorem Before.append_right {order : List Nat} {w z : Nat} (back : List Nat) (before : Before order w z)
    : Before (order ++ back) w z := by
  obtain ⟨front, rest, rfl, member⟩ := before
  refine ⟨front, rest ++ back, by simp, ?_⟩
  rw [← List.cons_append]
  exact List.mem_append_left _ member

theorem Before.of_mem {new old : List Nat} {w z : Nat} (first : w ∈ new) (second : z ∈ old)
    : Before (new ++ old) w z := by
  obtain ⟨front, back, rfl⟩ := List.append_of_mem first
  exact ⟨front, back ++ old, by simp, by simp [second]⟩

/-- An edge to a node that a search has not seen. -/
def Opens (graph : Array (List Nat)) (search : Search) (i j : Nat) : Prop :=
  Arrow graph i j ∧ search.seen[j]? = some false

theorem reaches_of_opens {search : Search} {u z : Nat}
    (path : Relation.ReflTransGen (Opens graph search) u z)
    : Reaches graph u z := by
  induction path with
  | refl => exact .refl
  | tail _ step ih => exact ih.tail step.1

/-- What a search has done in between: it has seen and ended the new nodes, all that is behind them has
been seen, and where one new node leads to another one through nodes that were not seen before, a node
that goes both ways with the first one comes no later than the second one.
-/
structure Visiting (graph : Array (List Nat)) (before after : Search) (new : List Nat) : Prop where
  size : after.seen.size = before.seen.size
  finished : after.finished = new ++ before.finished
  seen : ∀ i, after.seen[i]? = some true ↔ before.seen[i]? = some true ∨ i ∈ new
  unseen : ∀ i ∈ new, before.seen[i]? = some false
  nodup : new.Nodup
  closed : ∀ {i j}, i ∈ new → Arrow graph i j → j < before.seen.size → after.seen[j]? = some true
  ordered
    : ∀ {u z},
        u ∈ new
        → z ∈ new
        → Relation.ReflTransGen (Opens graph before) u z
        → ∃ w, Reaches graph u w ∧ Reaches graph w u ∧ Before new w z

section Visiting

variable {first middle last : Search} {new old : List Nat}

theorem Visiting.refl (graph : Array (List Nat)) (search : Search) : Visiting graph search search [] :=
  ⟨rfl, rfl, by simp, by simp, .nil, by simp, by simp⟩

/-- A node that was not seen is new or still not seen. -/
theorem Visiting.mem_or_unseen (visiting : Visiting graph first middle old) {i : Nat}
    (open_ : first.seen[i]? = some false)
    : i ∈ old ∨ middle.seen[i]? = some false := by
  have inside : i < middle.seen.size := by
    rw [visiting.size]
    exact (Array.getElem?_eq_some_iff.mp open_).1
  cases state : middle.seen[i]? with
  | none => simp [inside] at state
  | some value =>
      cases value with
      | true =>
          rcases (visiting.seen i).mp state with seen | new
          · rw [open_] at seen
            simp at seen
          · exact .inl new
      | false => exact .inr rfl

/-- A node that is not seen was not seen before. -/
theorem Visiting.was_unseen (visiting : Visiting graph first middle old) {i : Nat}
    (open_ : middle.seen[i]? = some false)
    : first.seen[i]? = some false := by
  have inside : i < first.seen.size := by
    rw [← visiting.size]
    exact (Array.getElem?_eq_some_iff.mp open_).1
  cases state : first.seen[i]? with
  | none => simp [inside] at state
  | some value =>
      cases value with
      | true =>
          have seen := (visiting.seen i).mpr (.inl state)
          rw [open_] at seen
          simp at seen
      | false => rfl

/-- A path through nodes that were not seen does not leave the new nodes. -/
theorem Visiting.path_stays (visiting : Visiting graph first middle old) {u z : Nat} (inside : u ∈ old)
    (path : Relation.ReflTransGen (Opens graph first) u z)
    : z ∈ old := by
  induction path with
  | refl => exact inside
  | @tail b d _ step ih =>
      obtain ⟨arrow, open_⟩ := step
      have there : d < first.seen.size := (Array.getElem?_eq_some_iff.mp open_).1
      have seen := visiting.closed ih arrow there
      rcases (visiting.seen d).mp seen with before | new
      · rw [open_] at before
        simp at before
      · exact new

/-- Two stretches of a search in sequence. -/
theorem Visiting.trans (start : Visiting graph first middle old) (rest : Visiting graph middle last new)
    : Visiting graph first last (new ++ old) where
  size := rest.size.trans start.size
  finished := by rw [rest.finished, start.finished, List.append_assoc]
  seen i := by
    rw [rest.seen, start.seen, List.mem_append]
    grind
  unseen i member := by
    rcases List.mem_append.mp member with later | earlier
    · exact start.was_unseen (rest.unseen i later)
    · exact start.unseen i earlier
  nodup := by
    refine List.nodup_append.mpr ⟨rest.nodup, start.nodup, fun i later j earlier same => ?_⟩
    have seen := (start.seen i).mpr (.inr (same ▸ earlier))
    rw [rest.unseen i later] at seen
    simp at seen
  closed {i j} member arrow inside := by
    rcases List.mem_append.mp member with later | earlier
    · exact rest.closed later arrow (start.size ▸ inside)
    · exact (rest.seen j).mpr (.inl (start.closed earlier arrow inside))
  ordered {u z} left right path := by
    rcases List.mem_append.mp left with later | earlier
    · rcases List.mem_append.mp right with target | target
      · -- A path that entered the old nodes would not come back to the new ones.
        have notOld : z ∉ old := fun inside => by
          have seen := (start.seen z).mpr (.inr inside)
          rw [rest.unseen z target] at seen
          simp at seen
        have path : Relation.ReflTransGen (Opens graph middle) u z := by
          clear left later
          induction path using Relation.ReflTransGen.head_induction_on with
          | refl => exact .refl
          | @head b d step tail ih =>
              refine .head ⟨step.1, ?_⟩ ih
              rcases start.mem_or_unseen step.2 with inside | open_
              · exact absurd (start.path_stays inside tail) notOld
              · exact open_
        obtain ⟨w, forth, back, order⟩ := rest.ordered later target path
        exact ⟨w, forth, back, order.append_right old⟩
      · exact ⟨u, .refl, .refl, .of_mem later target⟩
    · have target := start.path_stays earlier path
      obtain ⟨w, forth, back, order⟩ := start.ordered earlier target path
      exact ⟨w, forth, back, order.append_left new⟩

/-- A node is seen, what is behind it is searched, and then it ends. -/
theorem Visiting.node {node : Nat} (open_ : first.seen[node]? = some false)
    (below : Visiting graph { first with seen := first.seen.setIfInBounds node true } middle old)
    (reached : ∀ i ∈ old, Reaches graph node i)
    (looked : ∀ j, Arrow graph node j → j < first.seen.size → middle.seen[j]? = some true)
    : Visiting graph first { middle with finished := node :: middle.finished } (node :: old) := by
  have inside : node < first.seen.size := (Array.getElem?_eq_some_iff.mp open_).1
  have other : ∀ {i}, i ≠ node → (first.seen.setIfInBounds node true)[i]? = first.seen[i]? := by
    intro i differ
    simp [Ne.symm differ]
  have here : (first.seen.setIfInBounds node true)[node]? = some true := by simp [inside]
  have fresh : ∀ i ∈ old, i ≠ node := by
    rintro i member rfl
    have unseen := below.unseen i member
    rw [here] at unseen
    simp at unseen
  refine ⟨?_, ?_, fun i => ?_, ?_, ?_, ?_, ?_⟩
  · exact below.size.trans (by simp)
  · simp [below.finished]
  · rw [below.seen, List.mem_cons]
    by_cases same : i = node
    · simp [same, inside]
    · rw [other same]
      simp [same]
  · refine List.forall_mem_cons.mpr ⟨open_, fun i member => ?_⟩
    rw [← other (fresh i member)]
    exact below.unseen i member
  · exact List.nodup_cons.mpr ⟨fun member => fresh node member rfl, below.nodup⟩
  · intro i j member arrow there
    rcases List.mem_cons.mp member with rfl | later
    · exact looked j arrow there
    · exact below.closed later arrow (by simpa using there)
  · intro u z left right path
    have fromNode : Reaches graph node u := by
      rcases List.mem_cons.mp left with rfl | later
      · exact .refl
      · exact reached u later
    by_cases back : Relation.ReflTransGen (Opens graph first) u node
    · exact ⟨node, reaches_of_opens back, fromNode, [], old, rfl, right⟩
    · -- The path avoids the node, so it lies in what was searched behind it.
      have away : ∀ {b}, Relation.ReflTransGen (Opens graph first) u b → b ≠ node :=
        fun path same => back (same ▸ path)
      have avoiding : ∀ {z}, Relation.ReflTransGen (Opens graph first) u z → Relation.ReflTransGen
          (Opens graph { first with seen := first.seen.setIfInBounds node true }) u z := by
        intro z path
        induction path with
        | refl => exact .refl
        | tail before step ih =>
            exact ih.tail ⟨step.1, (other (away (before.tail step))).trans step.2⟩
      have source : u ∈ old := (List.mem_cons.mp left).resolve_left (away .refl)
      have target : z ∈ old := (List.mem_cons.mp right).resolve_left (away path)
      obtain ⟨w, forth, back, order⟩ := below.ordered source target (avoiding path)
      exact ⟨w, forth, back, order.append_left [node]⟩

end Visiting

/-- Nodes are looked at in turn, and those not seen are searched; induction on the nodes. -/
theorem visitEach_spec {visit : Search → Nat → Search} {start : Search} {source : Nat → Prop}
    (visits : ∀ {current : Search} {next : Nat} {new : List Nat}, Visiting graph start current new
      → current.seen[next]? = some false
      → ∃ more, Visiting graph current
            (visit { current with seen := current.seen.setIfInBounds next true } next) (next :: more)
          ∧ ∀ i ∈ more, Reaches graph next i)
    {nexts new : List Nat} {current : Search} (visiting : Visiting graph start current new)
    (reached : ∀ i ∈ new, source i) (sources : ∀ next ∈ nexts, source next)
    (onward : ∀ {i j}, source i → Reaches graph i j → source j)
    : ∃ more, Visiting graph start
          (nexts.foldl (fun search next =>
            if search.seen.getD next true then search
            else visit { search with seen := search.seen.setIfInBounds next true } next) current) more
        ∧ (∀ i ∈ more, source i)
        ∧ (∀ i ∈ new, i ∈ more)
        ∧ ∀ next ∈ nexts, next < start.seen.size
          → (nexts.foldl (fun search next =>
              if search.seen.getD next true then search
              else visit { search with seen := search.seen.setIfInBounds next true } next)
            current).seen[next]? = some true := by
  induction nexts generalizing current new with
  | nil => exact ⟨new, visiting, reached, fun _ => id, by simp⟩
  | cons next rest ih =>
      obtain ⟨sourceNext, sourcesRest⟩ := List.forall_mem_cons.mp sources
      rw [List.foldl_cons]
      cases state : current.seen.getD next true with
      | true =>
          rw [if_pos rfl]
          obtain ⟨more, total, all, kept, looked⟩ := ih visiting reached sourcesRest
          refine ⟨more, total, all, kept, List.forall_mem_cons.mpr ⟨fun inside => ?_, looked⟩⟩
          have there : next < current.seen.size := visiting.size ▸ inside
          have seen : current.seen[next]? = some true := by
            simpa [Array.getD_eq_getD_getElem?, there] using state
          rw [total.seen]
          rcases (visiting.seen next).mp seen with before | listed
          · exact .inl before
          · exact .inr (kept next listed)
      | false =>
          rw [if_neg (by simp)]
          have open_ : current.seen[next]? = some false := by
            cases found : current.seen[next]? with
            | none => simp [Array.getD_eq_getD_getElem?, found] at state
            | some value =>
                simp only [Array.getD_eq_getD_getElem?, found, Option.getD_some] at state
                rw [state]
          obtain ⟨behind, stretch, reach⟩ := visits visiting open_
          have together := visiting.trans stretch
          obtain ⟨more, total, all, kept, looked⟩ := ih together
            (fun i member => by
              rcases List.mem_append.mp member with later | earlier
              · rcases List.mem_cons.mp later with rfl | behind
                · exact sourceNext
                · exact onward sourceNext (reach i behind)
              · exact reached i earlier) sourcesRest
          refine ⟨more, total, all, fun i member => kept i (List.mem_append_right _ member),
            List.forall_mem_cons.mpr ⟨fun _ => ?_, looked⟩⟩
          exact (total.seen next).mpr (.inr (kept next (by simp)))

/-- With fuel for each node that was not seen, a search ends with everything behind the node; induction
on the fuel.
-/
theorem visit_spec (graph : Array (List Nat)) (fuel : Nat) (search : Search) (node : Nat)
    (open_ : search.seen[node]? = some false)
    (enough : (positionsWith false search.seen).card ≤ fuel)
    : ∃ new, Visiting graph search
          (Search.visit graph fuel { search with seen := search.seen.setIfInBounds node true } node)
          (node :: new)
        ∧ ∀ i ∈ new, Reaches graph node i := by
  induction fuel generalizing search node with
  | zero =>
      have some_ : 0 < (positionsWith false search.seen).card :=
        Finset.card_pos.mpr ⟨node, mem_positionsWith.mpr open_⟩
      exact absurd some_ (Nat.not_lt.mpr enough)
  | succ fuel ih =>
      have marked : (positionsWith false (search.seen.setIfInBounds node true)).card ≤ fuel :=
        Nat.le_of_lt_succ (Nat.lt_of_lt_of_le (card_positionsWith_lt (by simp) open_) enough)
      have visits : ∀ {current : Search} {next : Nat} {new : List Nat},
          Visiting graph { search with seen := search.seen.setIfInBounds node true } current new
          → current.seen[next]? = some false
          → ∃ more, Visiting graph current
                (Search.visit graph fuel
                  { current with seen := current.seen.setIfInBounds next true } next) (next :: more)
              ∧ ∀ i ∈ more, Reaches graph next i := by
        intro current next new visiting unseen
        refine ih current next unseen (Nat.le_trans (Finset.card_le_card fun i member => ?_) marked)
        rw [mem_positionsWith] at member ⊢
        exact visiting.was_unseen member
      obtain ⟨new, visiting, reached, _, looked⟩ := visitEach_spec visits (Visiting.refl graph _)
        (by simp) (fun next (member : Arrow graph node next) => Relation.ReflTransGen.single member)
        fun first second => first.trans second
      exact ⟨new, visiting.node open_ reached fun j arrow inside =>
        looked j arrow (by simpa using inside), reached⟩

/-- The order in which a search ends lists all nodes, and where one node leads to another one, a node that
goes both ways with the first one comes no later than the second one.
-/
theorem finishingOrder_spec (graph : Array (List Nat))
    (bounded : ∀ {i j}, Arrow graph i j → j < graph.size)
    : (finishingOrder graph).Nodup
      ∧ (∀ i, i < graph.size → i ∈ finishingOrder graph)
      ∧ ∀ {u z}, u < graph.size → Reaches graph u z
        → ∃ w, Reaches graph u w ∧ Reaches graph w u ∧ Before (finishingOrder graph) w z := by
  let start : Search := { seen := Array.replicate graph.size false }
  have size : start.seen.size = graph.size := by simp [start]
  have unseen : ∀ {i}, i < graph.size → start.seen[i]? = some false := by
    intro i inside
    simp [start, inside]
  have visits : ∀ {current : Search} {next : Nat} {new : List Nat}, Visiting graph start current new
      → current.seen[next]? = some false
      → ∃ more, Visiting graph current
            (Search.visit graph graph.size
              { current with seen := current.seen.setIfInBounds next true } next) (next :: more)
          ∧ ∀ i ∈ more, Reaches graph next i := by
    intro current next new visiting open_
    refine visit_spec graph graph.size current next open_ ?_
    calc (positionsWith false current.seen).card ≤ (Finset.range current.seen.size).card :=
          Finset.card_filter_le _ _
      _ = graph.size := by rw [Finset.card_range, visiting.size, size]
  obtain ⟨all, visiting, _, _, looked⟩ :=
    @visitEach_spec graph _ start (fun _ => True) visits (List.range graph.size) [] start
      (Visiting.refl graph start) (by simp) (by simp) (by simp)
  have order : finishingOrder graph = all := visiting.finished.trans (List.append_nil all)
  have listed : ∀ i, i < graph.size → i ∈ all := by
    intro i inside
    have seen := looked i (List.mem_range.mpr inside) (size ▸ inside)
    rcases (visiting.seen i).mp seen with before | new
    · rw [unseen inside] at before
      simp at before
    · exact new
  rw [order]
  refine ⟨visiting.nodup, listed, fun {u z} inside path => ?_⟩
  have open_ : Relation.ReflTransGen (Opens graph start) u z ∧ z < graph.size := by
    induction path with
    | refl => exact ⟨.refl, inside⟩
    | tail _ arrow ih => exact ⟨ih.1.tail ⟨arrow, unseen (bounded arrow)⟩, bounded arrow⟩
  exact visiting.ordered (listed u inside) (listed z open_.2) open_.1

end KnowledgeCompiler.TwoSat
