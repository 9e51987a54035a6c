import KnowledgeCompiler.Proofs.Circuit.Exactness
import KnowledgeCompiler.Proofs.Circuit.RelocatedQueries
import KnowledgeCompiler.Proofs.Nnf.Written

/-! Writing a sub-circuit and reading its text.

The circuit that is read mirrors the sub-circuit: its nodes are those below the root in bottom-up order, and children
are named by their positions. In this circuit the bottom-up order is the order by number. So its own text names each
child by its number, and is read as the same circuit.
-/

namespace KnowledgeCompiler.Nnf

open Relation
open KnowledgeCompiler.Circuit (Lists Relocates Resembles)
open KnowledgeCompiler.Action (outcome)

variable {c d : Circuit} {root id : NodeId} {order : List NodeId} {entries : List Entry} {i : Nat}
variable {position : NodeId → Nat} {gate gate' : Gate} {entry other : Entry}

-----------------------------------------------------------------------------------------
-- Gates of entries of gates
-----------------------------------------------------------------------------------------

/-- A list without repetitions in ascending order. -/
theorem ofList_perm {ids : List NodeId} (nodup : ids.Nodup) : (SortedSet.ofList ids).toList.Perm ids :=
  (List.perm_ext_iff_of_nodup (SortedSet.nodup _) nodup).mpr fun _ => SortedSet.mem_ofList

/-- The entry of a gate has the same gate, with the children at their positions. -/
theorem entryOf?_moved (same : entryOf? position gate = some entry) (inhabited : gate.Inhabited)
    (nodup : (gate.children.map position).Nodup) (decides : gate.decision ≠ some 0)
    : gate.Moved position entry.gate := by
  cases gate with
  | constant value => cases value <;> (cases same; exact .constant _)
  | literal l =>
      cases same
      exact .literal l
  | and children =>
      cases same
      have some_ : children.map position ≠ [] := mt List.map_eq_nil_iff.mp inhabited
      rw [Entry.gate, if_neg some_]
      exact .and (ofList_perm nodup)
  | or decision children =>
      cases same
      have some_ : children.map position ≠ [] := mt List.map_eq_nil_iff.mp inhabited
      have kept : (Entry.disjunction (decision.getD 0) (children.map position)).decision = decision := by
        cases decision with
        | none => rfl
        | some v => exact if_neg (not_or.mpr ⟨fun zero => decides (congrArg some zero), some_⟩)
      rw [Entry.gate, if_neg some_, kept]
      exact .or (ofList_perm nodup)
  | mapping names child | twoCnf formula | horn formula => cases same

/-- Ascending children, each at its own number. -/
theorem map_fixed {children : List NodeId}
    (fixed : ∀ child ∈ (SortedSet.ofList children).toList, position child = child)
    : (SortedSet.ofList children).toList.map position = (SortedSet.ofList children).toList :=
  (List.map_congr_left fixed).trans (List.map_id' _)

/-- If each child is at its own number, the entry of the gate of an entry has this gate again. -/
theorem gate_of_entryOf?_gate (same : entryOf? position entry.gate = some other)
    (fixed : ∀ child ∈ entry.gate.children, position child = child)
    : other.gate = entry.gate := by
  cases entry with
  | literal l =>
      cases same
      rfl
  | conjunction children =>
      by_cases none_ : children = []
      · rw [Entry.gate, if_pos none_] at same ⊢
        cases same
        rfl
      · rw [Entry.gate, if_neg none_] at same fixed ⊢
        cases same
        rw [map_fixed fixed, Entry.gate, if_neg (mt SortedSet.toList_ofList_eq_nil.mp none_),
          SortedSet.toList_ofList (SortedSet.ofList children).ascending]
  | disjunction v children =>
      by_cases none_ : children = []
      · rw [Entry.gate, if_pos none_] at same ⊢
        cases same
        rfl
      · rw [Entry.gate, if_neg none_] at same fixed ⊢
        have some_ : (SortedSet.ofList children).toList ≠ [] := mt SortedSet.toList_ofList_eq_nil.mp none_
        cases same
        rw [map_fixed fixed, Entry.gate, if_neg some_, SortedSet.toList_ofList (SortedSet.ofList children).ascending]
        by_cases zero : v = 0 <;> simp [Entry.decision, zero, none_, some_]

-----------------------------------------------------------------------------------------
-- The circuit that is read
-----------------------------------------------------------------------------------------

/-- The circuit has a node for each node of a list, with the same gate and the positions of its children, and the last
one is the root.
-/
structure Mirrors (c : Circuit) (order : List NodeId) (d : Circuit) : Prop where
  size : d.nodes.size = order.length
  gates
    : ∀ {i id}, order[i]? = some id
      → ∃ gate gate', c.gate? id = some gate ∧ d.gate? i = some gate' ∧ gate.Moved order.idxOf gate'
  root : d.root = some (order.length - 1)

/-- The circuit with the entries of the nodes below a root mirrors them. -/
theorem mirrors_of_entered (lists : c.Lists root order) (wired : c.Wired) (decided : c.Decided)
    (positive : ∀ {id gate}, c.gate? id = some gate → gate.decision ≠ some 0)
    (entered : Entered c order.idxOf order entries) (read : ReadAs entries d)
    : Mirrors c order d where
  size := read.size.trans (List.Forall₂.length_eq entered).symm
  gates {i id} there := by
    obtain ⟨gate, entry, found, same, here⟩ := entered.entry there
    have listed : ∀ child ∈ gate.children, child ∈ order := fun child member =>
      lists.child_mem (List.mem_of_getElem? there) ⟨gate, found, member⟩
    have nodup := Circuit.nodup_positions (wired.nodup found) listed
    have moved := entryOf?_moved same (decided.inhabited found) nodup (positive found)
    refine ⟨gate, entry.gate, found, ?_, moved⟩
    rw [read.gates, here, Option.map_some]
  root := by rw [read.root, List.Forall₂.length_eq entered]

/-- The children of a node are the positions of the children that it had. -/
theorem Mirrors.isChild_iff {child : NodeId} (mirrors : Mirrors c order d) (there : order[i]? = some id)
    : d.IsChild child i ↔ ∃ old, c.IsChild old id ∧ order.idxOf old = child := by
  obtain ⟨gate, gate', found, found', moved⟩ := mirrors.gates there
  constructor
  · intro link
    obtain ⟨other, same, member⟩ := link
    obtain rfl := Option.some.inj (found'.symm.trans same)
    obtain ⟨old, inside, position⟩ := List.mem_map.mp (moved.children.mem_iff.mp member)
    exact ⟨old, ⟨gate, found, inside⟩, position⟩
  · intro some_
    obtain ⟨old, ⟨other, same, member⟩, rfl⟩ := some_
    obtain rfl := Option.some.inj (found.symm.trans same)
    exact ⟨gate', found', moved.children.mem_iff.mpr (List.mem_map_of_mem member)⟩

section Mirrored

variable (mirrors : Mirrors c order d) (lists : c.Lists root order)

include mirrors lists

/-- Each node is found at its position. -/
theorem Mirrors.relocates : c.Relocates d root order.idxOf :=
  ⟨fun below => mirrors.gates (Circuit.getElem?_idxOf (lists.members.mpr below))⟩

/-- What is below the root is below the last node; induction on the path upwards. -/
theorem Mirrors.below (path : ReflTransGen c.IsChild id root)
    : ReflTransGen d.IsChild (order.idxOf id) (order.length - 1) := by
  rw [← lists.idxOf_root]
  induction path using ReflTransGen.head_induction_on with
  | refl => exact .refl
  | head link above ih =>
      have there := Circuit.getElem?_idxOf (lists.members.mpr above)
      exact .head ((mirrors.isChild_iff there).mpr ⟨_, link, rfl⟩) ih

/-- In bottom-up order all nodes are in the order of their numbers. -/
theorem Mirrors.bottomUp (wired : c.Wired) (wired' : d.Wired) (present : root < c.nodes.size)
    (same : order = c.bottomUp (c.dominated root))
    : d.bottomUp (d.dominated (order.length - 1)) = List.range order.length := by
  have some_ : 0 < order.length := List.length_pos_of_mem (lists.members.mpr .refl)
  have last : order.length - 1 < d.nodes.size := by
    rw [mirrors.size]
    exact Nat.sub_lt some_ Nat.one_pos
  have staged : d.Staged := by
    intro reach i j le bound early child link
    rw [mirrors.size] at bound
    have there := List.getElem?_eq_getElem bound
    have here := List.getElem?_eq_getElem (Nat.lt_of_le_of_lt le bound)
    obtain ⟨old, before, rfl⟩ := (mirrors.isChild_iff here).mp link
    refine wired.positions_staged present same here there le (fun other above => ?_) old before
    exact early _ ((mirrors.isChild_iff there).mpr ⟨other, above, rfl⟩)
  have all : ∀ id, id ∈ d.dominated (order.length - 1) ↔ id < d.nodes.size := by
    intro id
    rw [wired'.mem_dominated_iff last]
    constructor
    · intro path
      rcases ReflTransGen.cases_head path with same | ⟨parent, ⟨gate, found, listed⟩, _⟩
      · exact same ▸ last
      · exact wired'.closed found id listed
    · intro bound
      rw [mirrors.size] at bound
      have there := List.getElem?_eq_getElem bound
      have path := mirrors.below lists (lists.members.mp (List.getElem_mem bound))
      rwa [lists.idxOf_eq there] at path
  rw [wired'.bottomUp_eq_range staged all, mirrors.size]

end Mirrored

-----------------------------------------------------------------------------------------
-- Reading and writing again
-----------------------------------------------------------------------------------------

/-- The text is read as the circuit, and no warning is recorded. -/
def Restores (text : String) (d : Circuit) : Prop :=
  ∀ journal : Journal, ∃ journal', readBytes (Text.encode text.toList) ⟨.empty, journal⟩ = .ok () ⟨d, journal'⟩
    ∧ journal'.lines .warn = journal.lines .warn

theorem Restores.reachable {text : String} (restores : Restores text d) : d.Reachable := by
  obtain ⟨journal, run, _⟩ := restores {}
  exact .read run

/-- The text of a sub-circuit is read as the circuit that its entries make. -/
theorem Writes.restores {text : String} (writes : Writes c root order entries text)
    : ∃ made, Reading entries made ∧ Restores text (finished made) := by
  obtain ⟨made, _, reading, _⟩ := readText_of_spells writes.spells writes.proper {}
  refine ⟨made, reading, fun journal => ?_⟩
  obtain ⟨again, journal', reading', run, quiet⟩ := readText_of_spells writes.spells writes.proper journal
  obtain rfl := reading.unique reading'
  refine ⟨journal', ?_, quiet writes.announced⟩
  rw [readBytes_encode, run]

theorem inRange_finished (reading : Reading entries c) : (finished c).InRange := by
  intro id gate found
  rw [reading.finished.gates, ← reading.gate?] at found
  exact reading.inRange found

theorem idxOf_range {count : Nat} {id : NodeId} (inside : id < count) : (List.range count).idxOf id = id := by
  obtain ⟨bound, same⟩ := List.getElem?_eq_some_iff.mp (List.getElem?_range inside)
  have position := List.nodup_range.idxOf_getElem id bound
  rwa [same] at position

/-- The format has a line for each gate of an entry. -/
theorem entryOf?_gate_ne_none (entry : Entry) : entryOf? position entry.gate ≠ none := by
  cases entry with
  | literal l => exact Option.some_ne_none _
  | conjunction children | disjunction v children =>
      rw [Entry.gate]
      split <;> exact Option.some_ne_none _

/-- If the nodes of a circuit that is read are in the order of their numbers, the gates of their entries are those of
the entries that were read.
-/
theorem gates_renumbered {others : List Entry} (reading : Reading entries c)
    (entered : Entered (finished c) (List.range entries.length).idxOf (List.range entries.length) others)
    : others.map Entry.gate = entries.map Entry.gate := by
  have count : others.length = entries.length := by rw [← List.Forall₂.length_eq entered, List.length_range]
  apply List.ext_getElem?
  intro i
  rw [List.getElem?_map, List.getElem?_map]
  rcases Nat.lt_or_ge i entries.length with bound | beyond
  · obtain ⟨gate, other, found, same, there⟩ := entered.entry (List.getElem?_range bound)
    rw [reading.finished.gates] at found
    obtain ⟨entry, here, rfl⟩ := Option.map_eq_some_iff.mp found
    have kept : other.gate = entry.gate := by
      refine gate_of_entryOf?_gate same fun child listed => idxOf_range ?_
      have earlier := (reading.sound here).named child (Entry.mem_children_gate.mp listed)
      rw [List.length_take] at earlier
      exact Nat.lt_of_lt_of_le earlier (Nat.min_le_right ..)
    rw [there, here, Option.map_some, Option.map_some, kept]
  · rw [List.getElem?_eq_none beyond, List.getElem?_eq_none (count ▸ beyond)]

/-- If the nodes of a circuit that is read are in the order of their numbers, its own text is read as the same circuit.
-/
theorem exists_rewrite (reading : Reading entries c) (reachable : (finished c).Reachable)
    (few : entries.length < 4294967296) (some_ : entries ≠ [])
    (numbered : (finished c).bottomUp ((finished c).dominated (entries.length - 1)) = List.range entries.length)
    : ∃ text, (∀ journal, write (entries.length - 1) ⟨finished c, journal⟩ = .ok text ⟨finished c, journal⟩)
      ∧ Restores text (finished c) := by
  have consistent := reachable.consistent
  have size := reading.finished.size
  have present : entries.length - 1 < (finished c).nodes.size := by
    rw [size]
    exact Nat.sub_lt (List.length_pos_of_ne_nil some_) Nat.one_pos
  have expressible : ¬ ∃ id ∈ List.range entries.length, Lacks (finished c) (List.range entries.length).idxOf id := by
    intro lacking
    obtain ⟨id, member, gate, found, none_⟩ := lacking
    rw [reading.finished.gates] at found
    obtain ⟨entry, _, rfl⟩ := Option.map_eq_some_iff.mp found
    exact entryOf?_gate_ne_none entry none_
  obtain ⟨others, text, writes⟩ := exists_writes consistent.upToDate consistent.decided (inRange_finished reading)
    (size ▸ few) present numbered.symm expressible
  obtain ⟨made, reading', restores⟩ := writes.restores
  have same := gates_renumbered reading writes.entered
  obtain rfl : made = c := (same ▸ reading'.transcribes).unique reading.transcribes
  exact ⟨text, writes.written, restores⟩

/-- The text of a sub-circuit is read as a circuit that mirrors it, and the text of this circuit is read as the circuit
itself.
-/
theorem Writes.mirrored {text : String} (writes : Writes c root order entries text) (consistent : c.Consistent)
    (inRange : c.InRange) (few : c.nodes.size < 4294967296) (present : root < c.nodes.size)
    (same : order = c.bottomUp (c.dominated root))
    : ∃ d, Restores text d ∧ Mirrors c order d ∧ d.InRange
      ∧ ∃ text', (∀ journal, write (order.length - 1) ⟨d, journal⟩ = .ok text' ⟨d, journal⟩) ∧ Restores text' d := by
  have upToDate := consistent.upToDate
  have lists : c.Lists root order := same ▸ upToDate.toWired.lists present
  obtain ⟨made, reading, restores⟩ := writes.restores
  have positive : ∀ {id gate}, c.gate? id = some gate → gate.decision ≠ some 0 := fun found zero =>
    absurd (upToDate.vars_bound inRange (consistent.decided.decides found zero)).1 (Nat.lt_irrefl 0)
  have mirrors := mirrors_of_entered lists upToDate.toWired consistent.decided positive writes.entered reading.finished
  have count := List.Forall₂.length_eq writes.entered
  refine ⟨finished made, restores, mirrors, inRange_finished reading, ?_⟩
  have wired' := restores.reachable.consistent.upToDate.toWired
  have numbered := mirrors.bottomUp lists upToDate.toWired wired' present same
  have short := Nat.lt_of_le_of_lt (length_le_size lists upToDate present) few
  rw [count] at numbered short ⊢
  exact exists_rewrite reading restores.reachable short writes.spells.some_ numbered

/-- The format lacks a node in the list of the nodes below a root just if there is a renaming or a formula below. -/
theorem exists_lacks_iff (lists : c.Lists root order)
    : (∃ id ∈ order, Lacks c position id) ↔ ∃ id gate, ReflTransGen c.IsChild id root ∧ c.gate? id = some gate
        ∧ (gate.kind = .mapping ∨ gate.kind = .twoCnf ∨ gate.kind = .horn) := by
  refine exists_congr fun id => ?_
  rw [lists.members, exists_and_left]
  refine and_congr_right fun _ => exists_congr fun gate => ?_
  rw [entryOf?_eq_none]

/-- Writing a sub-circuit fails just if there is a renaming or a formula in it. Otherwise its text is read without a
warning as a circuit that mirrors it. The last node has the derived data of the root, and queries come to the same up to
the nodes that errors name. The text of this circuit is read as the circuit itself, so further texts are the same.
-/
theorem write_read_round_trip {s : Journaled Circuit} (reachable : s.state.Reachable) (inRange : s.state.InRange)
    (few : s.state.nodes.size < 4294967296) (present : root < s.state.nodes.size)
    : ((∃ id, write root s = .error (.error (.notSerializable id)) s)
        ↔ ∃ id gate, ReflTransGen s.state.IsChild id root ∧ s.state.gate? id = some gate
          ∧ (gate.kind = .mapping ∨ gate.kind = .twoCnf ∨ gate.kind = .horn))
      ∧ ((¬ ∃ id, write root s = .error (.error (.notSerializable id)) s)
        → ∃ order text d, Build.topologicalOrder root s = .ok order s ∧ order.getLast? = some root
          ∧ write root s = .ok text s ∧ Restores text d ∧ Mirrors s.state order d
          ∧ s.state.Resembles d root (order.length - 1)
          ∧ (∀ journal literals visits marked memoize, (∀ l ∈ literals, Lit.var l < 2147483648)
            → outcome (Build.modelCount (order.length - 1) literals memoize) ⟨d, journal⟩
                = Outcome.relocate order.idxOf (outcome (Build.modelCount root literals memoize) s)
              ∧ outcome (Build.isSatisfiableBy visits (order.length - 1) literals marked memoize) ⟨d, journal⟩
                = Outcome.relocate order.idxOf (outcome (Build.isSatisfiableBy visits root literals marked memoize) s)
              ∧ outcome (Build.minimumCardinality (order.length - 1) literals marked memoize) ⟨d, journal⟩
                = Outcome.relocate order.idxOf (outcome (Build.minimumCardinality root literals marked memoize) s))
          ∧ ∃ text', (∀ journal, write (order.length - 1) ⟨d, journal⟩ = .ok text' ⟨d, journal⟩)
            ∧ Restores text' d) := by
  have consistent := reachable.consistent
  have upToDate := consistent.upToDate
  obtain ⟨order, same⟩ : ∃ order, order = s.state.bottomUp (s.state.dominated root) := ⟨_, rfl⟩
  have lists : s.state.Lists root order := same ▸ upToDate.toWired.lists present
  rw [← @exists_lacks_iff s.state root order order.idxOf lists]
  by_cases lacking : ∃ id ∈ order, Lacks s.state order.idxOf id
  · obtain ⟨id, _, _, failed⟩ := write_fails upToDate.toWired present same lacking
    exact ⟨iff_of_true ⟨id, failed⟩ lacking, fun done => absurd ⟨id, failed⟩ done⟩
  · obtain ⟨entries, text, writes⟩ := exists_writes upToDate consistent.decided inRange few present same lacking
    have written : write root s = .ok text s := writes.written s.journal
    have never : ¬ ∃ id, write root s = .error (.error (.notSerializable id)) s := by
      intro failed
      obtain ⟨id, failed⟩ := failed
      rw [written] at failed
      cases failed
    refine ⟨iff_of_false never lacking, fun _ => ?_⟩
    obtain ⟨d, restores, mirrors, inRange', again⟩ := writes.mirrored consistent inRange few present same
    have reachable' := restores.reachable
    have relocates := mirrors.relocates lists
    have ordered : Build.topologicalOrder root s = .ok order s := same ▸ topologicalOrder_eq present
    refine ⟨order, text, d, ordered, lists.last, written, restores, mirrors, ?_, ?_, again⟩
    · rw [← lists.idxOf_root]
      exact relocates.resembles upToDate reachable'.consistent.upToDate inRange inRange' .refl
    · intro journal literals visits marked memoize small
      rw [← lists.idxOf_root]
      exact @Build.queries_relocate root order.idxOf literals s ⟨d, journal⟩ reachable reachable' inRange inRange'
        relocates small visits marked memoize

/-- The kinds of the dominated nodes tell that no renaming and no formula is below. -/
theorem expressible_of_kinds (wired : c.Wired) (present : root < c.nodes.size)
    (kinds : ∀ id ∈ (c.dominated root).toList, ∀ gate ∈ c.gate? id,
      gate.kind ≠ .mapping ∧ gate.kind ≠ .twoCnf ∧ gate.kind ≠ .horn)
    : ¬ ∃ id gate, ReflTransGen c.IsChild id root ∧ c.gate? id = some gate
      ∧ (gate.kind = .mapping ∨ gate.kind = .twoCnf ∨ gate.kind = .horn) := by
  intro some_
  obtain ⟨id, gate, below, found, kind⟩ := some_
  obtain ⟨mapping, twoCnf, horn⟩ := kinds id ((wired.mem_dominated_iff present).mpr below) gate found
  tauto

/-- The equivalence of two variables has a text, and its nodes are found again. The renamed equivalence has none. -/
theorem round_trip_equivalence
    : (∃ id, write 7 Circuit.equivalence = .error (.error (.notSerializable id)) Circuit.equivalence)
      ∧ ∃ order text d, write 6 Circuit.equivalence = .ok text Circuit.equivalence ∧ Restores text d
        ∧ Mirrors Circuit.equivalence.state order d ∧ Circuit.equivalence.state.Resembles d 6 (order.length - 1) := by
  have reachable := Circuit.equivalence_reachable
  have few : Circuit.equivalence.state.nodes.size < 4294967296 := by decide +kernel
  have present : 6 < Circuit.equivalence.state.nodes.size := by decide +kernel
  obtain ⟨node, found, _, renames⟩ := Circuit.equivalence_node
  have refused := (write_read_round_trip reachable Circuit.equivalence_inRange few (Circuit.lt_of_node? found)).1
  obtain ⟨lacking, round⟩ := @write_read_round_trip 6 _ reachable Circuit.equivalence_inRange few present
  refine ⟨refused.mpr ⟨7, node.gate, .refl, Circuit.gate?_of_node? found, .inl renames⟩, ?_⟩
  have expressible := expressible_of_kinds reachable.consistent.upToDate.toWired present (by decide +kernel)
  obtain ⟨order, text, d, _, _, written, restores, mirrors, resembles, _⟩ := round (mt lacking.mp expressible)
  exact ⟨order, text, d, written, restores, mirrors, resembles⟩

end KnowledgeCompiler.Nnf
