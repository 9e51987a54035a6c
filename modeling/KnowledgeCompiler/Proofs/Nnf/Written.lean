import KnowledgeCompiler.Proofs.Circuit.Listing
import KnowledgeCompiler.Proofs.Circuit.Revision
import KnowledgeCompiler.Proofs.Nnf.Acceptance
import KnowledgeCompiler.Proofs.Nnf.Writer

/-! The text of a sub-circuit.

If the format has a line for each node below a root, the text spells the entries of these nodes in bottom-up order, and
its header matches them. Otherwise writing fails.
-/

namespace KnowledgeCompiler.Nnf

open Relation
open KnowledgeCompiler.Circuit (Lists)

variable {c : Circuit} {root id : NodeId} {order : List NodeId} {entries : List Entry} {i : Nat}

-----------------------------------------------------------------------------------------
-- Positions
-----------------------------------------------------------------------------------------

theorem topologicalOrder_eq {s : Journaled Circuit} (present : root < s.state.nodes.size)
    : Build.topologicalOrder root s = .ok (s.state.bottomUp (s.state.dominated root)) s := by
  obtain ⟨node, found⟩ := s.state.exists_node present
  rw [Build.topologicalOrder, Build.dominated, Action.discard_bind]
  show EStateM.bind (EStateM.bind (Build.node root) _) _ s = _
  rw [EStateM.bind, EStateM.bind, node_eq found]
  rfl

/-- The table of positions. -/
theorem getD_positions (nodup : order.Nodup) (member : id ∈ order)
    : (Std.TreeMap.ofList order.zipIdx).getD id 0 = order.idxOf id := by
  refine Std.TreeMap.getD_ofList_of_mem Std.ReflCmp.compare_self ?_ (List.mk_mem_zipIdx_iff_getElem?.mpr
    (Circuit.getElem?_idxOf member))
  have keys : order.zipIdx.map Prod.fst = order := List.zipIdx_map_fst 0 order
  rw [← keys, List.Nodup, List.pairwise_map] at nodup
  exact nodup.imp fun differ same => differ (Std.LawfulEqCmp.eq_of_compare same)

theorem line?_congr {position position' : NodeId → Nat} {gate : Gate}
    (same : ∀ child ∈ gate.children, position child = position' child)
    : line? position gate = line? position' gate := by
  cases gate with
  | constant value => cases value <;> rfl
  | and children | or decision children =>
      have mapped : (children.map fun child => toString (position child))
          = children.map fun child => toString (position' child) :=
        List.map_congr_left fun child member => by rw [same child member]
      simp only [line?, mapped]
  | literal l | mapping names child | twoCnf formula | horn formula => rfl

/-- Lines depend on the positions of children only; induction on the nodes. -/
theorem lines_congr {position position' : NodeId → Nat}
    (same : ∀ id ∈ order, ∀ child, c.IsChild child id → position child = position' child)
    : lines c position order = lines c position' order := by
  induction order with
  | nil => rfl
  | cons id rest ih =>
      obtain ⟨here, later⟩ := List.forall_mem_cons.mp same
      rw [lines, lines, ih later]
      cases found : c.node? id with
      | none => rfl
      | some node =>
          have line := line?_congr fun child member => here child ⟨node.gate, Circuit.gate?_of_node? found, member⟩
          rw [Option.bind_some, Option.bind_some, line]

/-- The node at a position has the entry at that position; induction on the nodes. -/
theorem Entered.entry {position : NodeId → Nat} (entered : Entered c position order entries)
    (there : order[i]? = some id)
    : ∃ gate entry, c.gate? id = some gate ∧ entryOf? position gate = some entry ∧ entries[i]? = some entry := by
  induction entered generalizing i with
  | nil => cases there
  | @cons first entry rest entries here _ ih =>
      cases i with
      | zero =>
          obtain rfl := Option.some.inj there
          obtain ⟨gate, found, same⟩ := here
          exact ⟨gate, entry, found, same, rfl⟩
      | succ i => exact ih there

/-- The entry at a position is that of the node at the position. -/
theorem Entered.node {position : NodeId → Nat} {entry : Entry} (entered : Entered c position order entries)
    (here : entries[i]? = some entry)
    : ∃ id gate, order[i]? = some id ∧ c.gate? id = some gate ∧ entryOf? position gate = some entry := by
  have bound := (List.getElem?_eq_some_iff.mp here).1
  rw [← List.Forall₂.length_eq entered] at bound
  obtain ⟨gate, other, found, same, there⟩ := entered.entry (List.getElem?_eq_getElem bound)
  obtain rfl := Option.some.inj (here.symm.trans there)
  exact ⟨order[i], gate, List.getElem?_eq_getElem bound, found, same⟩

-----------------------------------------------------------------------------------------
-- Entries of the nodes below a root
-----------------------------------------------------------------------------------------

section Listed

variable (lists : c.Lists root order) (upToDate : c.UpToDate) (entered : Entered c order.idxOf order entries)

include lists upToDate entered

/-- The variables of a node occur below its entry; induction from the children upwards. -/
theorem occursBelow_of_mem_varsOf {v : Var} (member : id ∈ order) (inside : v ∈ c.varsOf id)
    (early : order.idxOf id < i)
    : OccursBelow (entries.take i) v (order.idxOf id) := by
  induction id using upToDate.acyclic.induction with
  | _ id ih =>
      have there := Circuit.getElem?_idxOf member
      obtain ⟨gate, entry, found, same, here⟩ := entered.entry there
      rw [← List.getElem?_take_of_lt early] at here
      have mentioned := (upToDate.mem_varsOf found).mp inside
      have below : ∀ child ∈ gate.children, v ∈ c.varsOf child → OccursBelow (entries.take i) v (order.idxOf id) := by
        intro child listed inside
        have link : c.IsChild child id := ⟨gate, found, listed⟩
        have position := lists.idxOf_child_lt there link
        refine .child here ?_ (ih child link (lists.child_mem member link) inside (Nat.lt_trans position early))
        rw [children_of_entryOf? same]
        exact List.mem_map_of_mem listed
      cases gate with
      | constant value => exact mentioned.elim
      | literal l =>
          cases same
          exact .literal here mentioned.symm
      | and children | or decision children =>
          obtain ⟨child, listed, inside⟩ := mentioned
          exact below child listed inside
      | mapping names child | twoCnf formula | horn formula => cases same

/-- Each entry may come after those before it. -/
theorem sound_entered (decided : c.Decided) : Sound entries := by
  intro i entry here
  obtain ⟨id, gate, there, found, same⟩ := entered.node here
  have member := List.mem_of_getElem? there
  have bound := (List.getElem?_eq_some_iff.mp here).1
  constructor
  · intro position listed
    rw [children_of_entryOf? same] at listed
    obtain ⟨child, inside, rfl⟩ := List.mem_map.mp listed
    rw [List.length_take, Nat.min_eq_left (Nat.le_of_lt bound)]
    exact lists.idxOf_child_lt there ⟨gate, found, inside⟩
  · intro v decides
    cases gate with
    | constant value => cases value <;> (cases same; simp [Entry.decision] at decides)
    | or decision children =>
        cases same
        rw [Entry.decision] at decides
        split at decides
        · cases decides
        · rename_i some_
          obtain ⟨w, rfl⟩ : ∃ w, decision = some w :=
            Option.ne_none_iff_exists'.mp fun none_ => some_ (.inl (by rw [none_]; rfl))
          obtain rfl := Option.some.inj decides
          obtain ⟨child, inside, occurs⟩ := (upToDate.mem_varsOf found).mp (decided.decides found rfl)
          have link : c.IsChild child id := ⟨_, found, inside⟩
          exact ⟨order.idxOf child, List.mem_map_of_mem inside, occursBelow_of_mem_varsOf lists upToDate entered
            (lists.child_mem member link) occurs (lists.idxOf_child_lt there link)⟩
    | literal l | and children =>
        cases same
        cases decides
    | mapping names child | twoCnf formula | horn formula => cases same

end Listed

-----------------------------------------------------------------------------------------
-- The announcement
-----------------------------------------------------------------------------------------

theorem foldl_add_eq {α : Type} (f : α → Nat) (items : List α) (start : Nat)
    : items.foldl (fun count item => count + f item) start = start + (items.map f).sum := by
  induction items generalizing start with
  | nil => rfl
  | cons item rest ih => rw [List.foldl_cons, ih, List.map_cons, List.sum_cons, Nat.add_assoc]

theorem foldl_max_le_iff {items : List Nat} {start bound : Nat}
    : items.foldl max start ≤ bound ↔ start ≤ bound ∧ ∀ n ∈ items, n ≤ bound := by
  induction items generalizing start with
  | nil => simp
  | cons n rest ih => rw [List.foldl_cons, ih, Nat.max_le, List.forall_mem_cons, and_assoc]

/-- Nodes have as many children as their entries; induction on the nodes. -/
theorem childCounts_entered {position : NodeId → Nat} (entered : Entered c position order entries)
    : ((c.nodesOf order).map fun node => node.children.length) = entries.map fun entry => entry.children.length := by
  induction entered with
  | nil => rfl
  | @cons id entry rest entries here _ ih =>
      obtain ⟨gate, found, same⟩ := here
      obtain ⟨node, there, rfl⟩ := Option.map_eq_some_iff.mp found
      have count : node.children.length = entry.children.length := by
        rw [children_of_entryOf? same, List.length_map]
        rfl
      rw [Circuit.nodesOf, List.filterMap_cons_some there, List.map_cons, List.map_cons, count]
      exact congrArg (entry.children.length :: ·) ih

section Announced

variable (upToDate : c.UpToDate) (entered : Entered c order.idxOf order entries)

include upToDate entered

/-- The header of the nodes matches their entries. -/
theorem announcement_matches : (announcement c order).Matches entries where
  nodes := List.Forall₂.length_eq entered
  edges := by
    show (c.nodesOf order).foldl (fun count node => count + node.children.length) 0 = _
    rw [foldl_add_eq (fun node : Node => node.children.length), childCounts_entered entered, Nat.zero_add]
  vars l listed := by
    obtain ⟨i, here⟩ := List.getElem?_of_mem listed
    obtain ⟨id, gate, there, found, same⟩ := entered.node here
    obtain ⟨node, present, rfl⟩ := Option.map_eq_some_iff.mp found
    obtain ⟨gate, literal⟩ : ∃ gate, node.gate = gate := ⟨_, rfl⟩
    have inside : l.var ∈ node.vars := by
      rw [← Circuit.varsOf_of_node? present, upToDate.mem_varsOf found]
      rw [literal] at same ⊢
      cases gate with
      | constant value => cases value <;> cases same
      | literal k =>
          cases same
          rfl
      | and children | or decision children | mapping names child | twoCnf formula | horn formula => cases same
    refine (foldl_max_le_iff.mp (Nat.le_refl _)).2 l.var (List.mem_flatMap.mpr ⟨node, ?_, inside⟩)
    exact Circuit.mem_nodesOf.mpr ⟨id, List.mem_of_getElem? there, present⟩

end Announced

-----------------------------------------------------------------------------------------
-- Numbers in range
-----------------------------------------------------------------------------------------

section Numbers

variable (lists : c.Lists root order) (upToDate : c.UpToDate) (inRange : c.InRange) (present : root < c.nodes.size)

include lists upToDate present

theorem length_le_size : order.length ≤ c.nodes.size := by
  have subset : order ⊆ List.range c.nodes.size := fun id member =>
    List.mem_range.mpr (lists.present upToDate.closed present member)
  simpa using (List.subperm_of_subset lists.nodup subset).length_le

omit lists present in
theorem children_le_size {gate : Gate} (found : c.gate? id = some gate) : gate.children.length ≤ c.nodes.size := by
  have subset : gate.children ⊆ List.range c.nodes.size := fun child member =>
    List.mem_range.mpr (upToDate.closed found child member)
  simpa using (List.subperm_of_subset (upToDate.nodup found) subset).length_le

include inRange

/-- The numbers of a gate below the root can be read back. -/
theorem legible_listed (decided : c.Decided) (few : c.nodes.size < 4294967296) {gate : Gate} (member : id ∈ order)
    (found : c.gate? id = some gate)
    : Legible order.idxOf gate where
  range := inRange found
  few := Nat.le_trans (children_le_size upToDate found) (Nat.le_trans (Nat.le_of_lt few) (by decide))
  near child listed := by
    have position := List.idxOf_lt_length_iff.mpr (lists.child_mem member ⟨gate, found, listed⟩)
    have length := length_le_size lists upToDate present
    unfold Text.largestWord
    omega
  decision v decides := by
    have bound := (upToDate.vars_bound inRange (decided.decides found decides)).2
    exact Nat.le_trans (Nat.le_of_lt bound) (by decide)

/-- The announced numbers can be read back. -/
theorem announcement_legible (few : c.nodes.size < 4294967296)
    : (announcement c order).nodes ≤ Text.largestWord ∧ (announcement c order).edges ≤ Text.largestWord
      ∧ (announcement c order).vars ≤ Text.largestHalf := by
  have length := length_le_size lists upToDate present
  refine ⟨?_, ?_, ?_⟩
  · show order.length ≤ Text.largestWord
    unfold Text.largestWord
    omega
  · show (c.nodesOf order).foldl (fun count node => count + node.children.length) 0 ≤ _
    have each : ∀ n ∈ (c.nodesOf order).map fun node => node.children.length, n ≤ c.nodes.size := by
      rw [List.forall_mem_map]
      intro node member
      obtain ⟨id, _, found⟩ := Circuit.mem_nodesOf.mp member
      exact children_le_size upToDate (Circuit.gate?_of_node? found)
    have count : (c.nodesOf order).length ≤ c.nodes.size := Nat.le_trans (List.length_filterMap_le _ _) length
    rw [foldl_add_eq (fun node : Node => node.children.length), Nat.zero_add]
    calc
      ((c.nodesOf order).map fun node => node.children.length).sum
      _ ≤ ((c.nodesOf order).map fun node => node.children.length).length • c.nodes.size :=
        List.sum_le_card_nsmul _ _ each
      _ ≤ c.nodes.size * c.nodes.size := by
        rw [List.length_map, smul_eq_mul]
        exact Nat.mul_le_mul_right _ count
      _ ≤ 4294967295 * 4294967295 := Nat.mul_le_mul (Nat.le_of_lt_succ few) (Nat.le_of_lt_succ few)
      _ ≤ Text.largestWord := by decide
  · refine foldl_max_le_iff.mpr ⟨Nat.zero_le _, fun v inside => ?_⟩
    obtain ⟨node, member, inside⟩ := List.mem_flatMap.mp inside
    obtain ⟨id, _, found⟩ := Circuit.mem_nodesOf.mp member
    have bound := (upToDate.vars_bound inRange (Circuit.varsOf_of_node? found ▸ inside)).2
    exact Nat.le_trans (Nat.le_of_lt bound) (by decide)

end Numbers

-----------------------------------------------------------------------------------------
-- Writing
-----------------------------------------------------------------------------------------

section Write

variable {s : Journaled Circuit} (wired : s.state.Wired) (present : root < s.state.nodes.size)

include wired present

/-- Writing lays out the header and the lines of the nodes below the root. -/
theorem write_eq (same : order = s.state.bottomUp (s.state.dominated root))
    : write root s = match lines s.state order.idxOf order with
      | .error id => .error (.error (.notSerializable id)) s
      | .ok body => .ok (String.join ((header s.state order :: body).map (· ++ "\n"))) s := by
  have lists : s.state.Lists root order := same ▸ wired.lists present
  have positions : lines s.state ((Std.TreeMap.ofList order.zipIdx).getD · 0) order
      = lines s.state order.idxOf order :=
    lines_congr fun id member child link => getD_positions lists.nodup (lists.child_mem member link)
  have ordered := topologicalOrder_eq present
  rw [← same] at ordered
  unfold write
  show EStateM.bind (Build.topologicalOrder root) _ s = _
  rw [EStateM.bind, ordered]
  show (match lines s.state ((Std.TreeMap.ofList order.zipIdx).getD · 0) order with
    | .error id => Action.fail (.notSerializable id)
    | .ok body => pure (String.join ((header s.state order :: body).map (· ++ "\n"))) : Build String) s = _
  rw [positions]
  cases lines s.state order.idxOf order <;> rfl

/-- If the format lacks a node below the root, writing stops at such a node. -/
theorem write_fails (same : order = s.state.bottomUp (s.state.dominated root))
    (lacking : ∃ id ∈ order, Lacks s.state order.idxOf id)
    : ∃ id ∈ order, Lacks s.state order.idxOf id ∧ write root s = .error (.error (.notSerializable id)) s := by
  have lists : s.state.Lists root order := same ▸ wired.lists present
  obtain ⟨id, member, lacks, failed⟩ := lines_fail (fun id => lists.present wired.closed present) lacking
  refine ⟨id, member, lacks, ?_⟩
  rw [write_eq wired present same, failed]

/-- If the format lacks no node below the root, writing succeeds. -/
theorem write_succeeds
    (expressible : ∀ id gate, ReflTransGen s.state.IsChild id root → s.state.gate? id = some gate
      → ¬ (gate.kind = .mapping ∨ gate.kind = .twoCnf ∨ gate.kind = .horn))
    : ∃ text, write root s = .ok text s := by
  obtain ⟨order, same⟩ : ∃ order, order = s.state.bottomUp (s.state.dominated root) := ⟨_, rfl⟩
  have lists : s.state.Lists root order := same ▸ wired.lists present
  obtain ⟨texts, written⟩ := @lines_succeed s.state order.idxOf order fun id member => by
    obtain ⟨node, found⟩ := s.state.exists_node (lists.present wired.closed present member)
    have here := Circuit.gate?_of_node? found
    exact ⟨node.gate, here, mt entryOf?_eq_none.mp (expressible id node.gate (lists.members.mp member) here)⟩
  exact ⟨_, by rw [write_eq wired present same, written]⟩

end Write

/-- The text of a sub-circuit spells the entries of its nodes. -/
structure Writes (c : Circuit) (root : NodeId) (order : List NodeId) (entries : List Entry) (text : String) : Prop where
  written : ∀ journal, write root ⟨c, journal⟩ = .ok text ⟨c, journal⟩
  entered : Entered c order.idxOf order entries
  spells : Spells (splitLines '\n' '\r' [] text.toList) (announcement c order) entries
  announced : (announcement c order).Matches entries
  proper : ∀ entry ∈ entries, entry.Proper

theorem forall_not_ignored {layout : List (List (List Char))} (spelled : List.Forall₂ Entry.Spelled layout entries)
    : ∀ words ∈ layout, ignored words = false := by
  induction spelled with
  | nil => exact List.forall_mem_nil _
  | cons here _ ih => exact List.forall_mem_cons.mpr ⟨here.not_ignored, ih⟩

/-- If the format lacks no node below the root, there is a text, and it can be read. -/
theorem exists_writes (upToDate : c.UpToDate) (decided : c.Decided) (inRange : c.InRange)
    (few : c.nodes.size < 4294967296) (present : root < c.nodes.size) (same : order = c.bottomUp (c.dominated root))
    (none_ : ¬ ∃ id ∈ order, Lacks c order.idxOf id)
    : ∃ entries text, Writes c root order entries text := by
  have lists : c.Lists root order := same ▸ upToDate.toWired.lists present
  have each : ∀ id ∈ order, ∃ gate entry, c.gate? id = some gate ∧ entryOf? order.idxOf gate = some entry := by
    intro id member
    obtain ⟨node, found⟩ := c.exists_node (lists.present upToDate.closed present member)
    have here := Circuit.gate?_of_node? found
    obtain ⟨entry, same⟩ := Option.ne_none_iff_exists'.mp fun lacking => none_ ⟨id, member, node.gate, here, lacking⟩
    exact ⟨node.gate, entry, here, same⟩
  obtain ⟨entries, entered⟩ := exists_entered each
  have legible : ∀ id ∈ order, ∀ gate, c.gate? id = some gate → Legible order.idxOf gate :=
    fun id member gate found => legible_listed lists upToDate inRange present decided few member found
  obtain ⟨texts, layout, written, laid, spelled⟩ := lines_spelled entered legible
  obtain ⟨nodes, edges, vars⟩ := announcement_legible lists upToDate inRange present few
  obtain ⟨words, first, announced⟩ := header_spelled nodes edges vars
  have counted : ∀ line ∈ words :: layout, ignored line = false :=
    List.forall_mem_cons.mpr ⟨announced.not_ignored, forall_not_ignored spelled⟩
  refine ⟨entries, String.join ((header c order :: texts).map (· ++ "\n")), fun journal => ?_, entered, ?_,
    announcement_matches upToDate entered, ?_⟩
  · rw [@write_eq root order ⟨c, journal⟩ upToDate.toWired present same, written]
  · refine ⟨⟨words, layout, ?_, announced, spelled⟩, ?_, sound_entered lists upToDate entered decided⟩
    · rw [splitLines_join (.cons first laid), contents_of_laid (.cons first laid) counted]
    · intro empty
      have some_ : order ≠ [] := List.ne_nil_of_mem (lists.members.mpr .refl)
      rw [empty] at entered
      exact some_ (List.forall₂_nil_right_iff.mp entered)
  · intro entry member
    obtain ⟨i, here⟩ := List.getElem?_of_mem member
    obtain ⟨id, gate, there, found, same⟩ := entered.node here
    exact (legible id (List.mem_of_getElem? there) gate found).proper same

end KnowledgeCompiler.Nnf
