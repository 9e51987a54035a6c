import KnowledgeCompiler.Proofs.Circuit.Root
import KnowledgeCompiler.Proofs.Nnf.Reader
import KnowledgeCompiler.Proofs.Text.Utf8

/-! The texts that are read, and what they are read as.

A text is read just if its lines spell a header and entries that may come in turn. The circuit has a node for each
entry, the last one is the root, and nothing else of the text matters.
-/

namespace KnowledgeCompiler.Nnf

open KnowledgeCompiler.Action (Accepts)

variable {lines texts : List (List Char)} {header : Header} {entries : List Entry} {seen seen' : Seen} {c d : Circuit}

-----------------------------------------------------------------------------------------
-- Announced numbers
-----------------------------------------------------------------------------------------

/-- A header that announces what follows. -/
structure Header.Matches (header : Header) (entries : List Entry) : Prop where
  nodes : header.nodes = entries.length
  edges : header.edges = (entries.map fun entry => entry.children.length).sum
  vars : ∀ l, Entry.literal l ∈ entries → l.var ≤ header.vars

/-- The numbers seen after entries; induction on the entries. -/
theorem foldl_after (seen : Seen) (entries : List Entry)
    : (entries.foldl Seen.after seen).header = seen.header
      ∧ (entries.foldl Seen.after seen).edges = seen.edges + (entries.map fun entry => entry.children.length).sum
      ∧ ∀ bound, (entries.foldl Seen.after seen).largest ≤ bound
        ↔ seen.largest ≤ bound ∧ ∀ l, Entry.literal l ∈ entries → l.var ≤ bound := by
  induction entries generalizing seen with
  | nil => simp
  | cons entry rest ih =>
      obtain ⟨same, edges, largest⟩ := ih (seen.after entry)
      rw [List.foldl_cons, same, edges]
      refine ⟨header_after seen entry, ?_, fun bound => ?_⟩
      · cases entry <;> simp [Seen.after, Entry.children, Nat.add_assoc]
      · rw [largest]
        cases entry with
        | literal l => simp [Seen.after, and_assoc]
        | conjunction children | disjunction v children => simp [Seen.after]

/-- The comparison changes no node, and records nothing if the header matches. -/
theorem compareHeader_eq (header : Header) (nodes : Nat) (seen : Seen) (s : Journaled Circuit)
    : ∃ journal, compareHeader header nodes seen s = .ok () ⟨s.state, journal⟩
      ∧ (nodes = header.nodes → seen.edges = header.edges → seen.largest ≤ header.vars → journal = s.journal) := by
  unfold compareHeader
  by_cases nodeCount : nodes = header.nodes <;> by_cases edgeCount : seen.edges = header.edges
    <;> by_cases varCount : header.vars < seen.largest
    <;> simp only [nodeCount, edgeCount, varCount, bne_self_eq_false, bne_iff_ne, ne_eq, not_false_eq_true, if_true,
      if_false, Bool.false_eq_true]
  all_goals first
    | exact ⟨_, rfl, fun _ _ few => absurd few (Nat.not_le.mpr varCount)⟩
    | exact ⟨_, rfl, by simp⟩

-----------------------------------------------------------------------------------------
-- Texts
-----------------------------------------------------------------------------------------

/-- The circuit at the end of a text: nodes are shared from now on, and the last one is the root. -/
def finished (c : Circuit) : Circuit :=
  Circuit.refreshRoot { c with sharing := true, root := some (c.nodes.size - 1) }

/-- What happens after the last line. -/
def conclude (seen : Seen) : Build Unit := do
  match seen.header with
  | none => stop 0 .missingHeader
  | some header =>
      let nodes := (← Action.current).nodes.size
      if nodes = 0 then
        stop 0 .noNodes
      compareHeader header nodes seen
      Build.setSharing true
      Build.setRoot (nodes - 1)

theorem node_eq {id : NodeId} {node : Node} {s : Journaled Circuit} (found : s.state.node? id = some node)
    : Build.node id s = .ok node s := by
  have current : (Action.current : Build Circuit) s = .ok s.state s := rfl
  rw [Build.node]
  show EStateM.bind Action.current _ s = _
  rw [EStateM.bind, current]
  dsimp only
  rw [found]
  rfl

theorem setRoot_eq {id : NodeId} {node : Node} {s : Journaled Circuit} (found : s.state.node? id = some node)
    : Build.setRoot id s = .ok () ⟨Circuit.refreshRoot { s.state with root := some id }, s.journal⟩ := by
  rw [Build.setRoot, Action.discard_bind]
  show EStateM.bind (Build.node id) _ s = _
  rw [EStateM.bind, node_eq found]
  rfl

/-- After a header and some nodes the circuit is finished. -/
theorem conclude_eq (announced : seen.header = some header) (s : Journaled Circuit) (some_ : s.state.nodes.size ≠ 0)
    : ∃ journal, conclude seen s = .ok () ⟨finished s.state, journal⟩
      ∧ (s.state.nodes.size = header.nodes → seen.edges = header.edges → seen.largest ≤ header.vars
        → journal = s.journal) := by
  obtain ⟨journal, compared, quiet⟩ := compareHeader_eq header s.state.nodes.size seen s
  refine ⟨journal, ?_, quiet⟩
  have last : s.state.nodes.size - 1 < s.state.nodes.size := Nat.sub_lt (Nat.pos_of_ne_zero some_) Nat.one_pos
  obtain ⟨node, found⟩ := s.state.exists_node last
  have rooted := @setRoot_eq (s.state.nodes.size - 1) node ⟨{ s.state with sharing := true }, journal⟩ found
  unfold conclude
  rw [announced]
  show (if s.state.nodes.size = 0 then _
    else EStateM.bind (compareHeader header s.state.nodes.size seen) _ : Build Unit) s = _
  rw [if_neg some_, EStateM.bind, compared]
  exact rooted

/-- Without a header or without nodes there is no circuit. -/
theorem conclude_fails (missing : seen.header = none ∨ c.nodes.size = 0) (journal : Journal)
    : ∃ cause s, conclude seen ⟨c, journal⟩ = .error (.error cause) s := by
  unfold conclude
  cases announced : seen.header with
  | none => exact ⟨_, _, rfl⟩
  | some header =>
      have none_ := missing.resolve_left (by simp [announced])
      refine ⟨.parse 0 .noNodes, ⟨c, journal⟩, ?_⟩
      show (if c.nodes.size = 0 then stop 0 .noNodes else _ : Build Unit) ⟨c, journal⟩ = _
      rw [if_pos none_]
      rfl

/-- The entries of lines without the least literal have complements. -/
theorem forall_proper {rest : List (List (List Char))} (spelled : List.Forall₂ Entry.Spelled rest entries)
    (moderate : ∀ words ∈ rest, Moderate words)
    : ∀ entry ∈ entries, entry.Proper := by
  induction spelled with
  | nil => simp
  | cons here _ ih =>
      obtain ⟨first, later⟩ := List.forall_mem_cons.mp moderate
      exact List.forall_mem_cons.mpr ⟨here.proper first, ih later⟩

theorem Spells.proper (spells : Spells lines header entries) (moderate : ∀ words ∈ contents lines, Moderate words)
    : ∀ entry ∈ entries, entry.Proper := by
  obtain ⟨first, rest, same, _, spelled⟩ := spells.spelled
  rw [same] at moderate
  exact forall_proper spelled fun words member => moderate words (List.mem_cons_of_mem first member)

/-- Lines whose entries have complements do not hold the least literal. -/
theorem forall_moderate {rest : List (List (List Char))} (spelled : List.Forall₂ Entry.Spelled rest entries)
    (proper : ∀ entry ∈ entries, entry.Proper)
    : ∀ words ∈ rest, Moderate words := by
  induction spelled with
  | nil => simp
  | cons here _ ih =>
      obtain ⟨first, later⟩ := List.forall_mem_cons.mp proper
      exact List.forall_mem_cons.mpr ⟨here.moderate first, ih later⟩

theorem Spells.moderate (spells : Spells lines header entries) (proper : ∀ entry ∈ entries, entry.Proper)
    : ∀ words ∈ contents lines, Moderate words := by
  obtain ⟨first, rest, same, announced, spelled⟩ := spells.spelled
  rw [same]
  exact List.forall_mem_cons.mpr ⟨announced.moderate, forall_moderate spelled proper⟩

/-- What reading the lines comes to: they are accepted with what they spell, or they spell nothing. -/
theorem readAll_spec (moderate : ∀ words ∈ contents lines, Moderate words) (journal : Journal)
    : match readAll (lines.map some) ⟨.empty, journal⟩ with
      | .ok _ s => ∃ header entries c, Spells lines header entries ∧ Reading entries c ∧ s.state = finished c
          ∧ (header.Matches entries → s.journal.lines .warn = journal.lines .warn)
      | .error (.error _) _ => ∀ header entries, ¬ Spells lines header entries
      | .error (.fault _) _ => False := by
  have ended := @readLines_opening 1 lines moderate journal
  have whole : readAll (lines.map some) ⟨.empty, journal⟩
      = EStateM.bind (readLines 1 (lines.map some) {}) conclude
        ⟨{ Circuit.empty with sharing := false }, journal⟩ := rfl
  rw [whole, EStateM.bind]
  split at ended
  · rename_i seen s run
    rw [run]
    obtain ⟨opening, quiet⟩ := ended
    dsimp only
    rcases opening with ⟨none_, rfl, _⟩ | ⟨header, first, rest, entries, same, announced, spelled, reading, rfl⟩
    · obtain ⟨cause, t, stopped⟩ := @conclude_fails {} s.state (.inl rfl) s.journal
      rw [stopped]
      intro header entries spells
      obtain ⟨first, rest, same, _⟩ := spells.spelled
      rw [none_] at same
      cases same
    · obtain ⟨kept, edges, largest⟩ := foldl_after { header := some header } entries
      by_cases some_ : entries = []
      · have none_ : s.state.nodes.size = 0 := by rw [reading.size, some_, List.length_nil]
        obtain ⟨cause, t, stopped⟩ := @conclude_fails (entries.foldl Seen.after { header := some header }) s.state
          (.inr none_) s.journal
        rw [stopped]
        intro header' entries' spells
        obtain ⟨first', rest', same', _, spelled'⟩ := spells.spelled
        obtain ⟨_, rfl⟩ := List.cons.inj (same.symm.trans same')
        exact spells.some_ ((forall₂_spelled_unique spelled' spelled).trans some_)
      · have positive : s.state.nodes.size ≠ 0 := by
          rw [reading.size]
          exact fun none_ => some_ (List.eq_nil_of_length_eq_zero none_)
        obtain ⟨journal', done, silent⟩ := conclude_eq kept s positive
        rw [done]
        refine ⟨header, entries, s.state, ⟨⟨first, rest, same, announced, spelled⟩, some_, reading.sound⟩, reading, rfl,
          fun matches_ => ?_⟩
        have zero : (0 : Nat) ≤ header.vars := Nat.zero_le _
        have unchanged := silent (reading.size.trans matches_.nodes.symm)
          (edges.trans ((Nat.zero_add _).trans matches_.edges.symm)) ((largest header.vars).mpr ⟨zero, matches_.vars⟩)
        exact (congrArg (Journal.lines · .warn) unchanged).trans quiet
  · rename_i run
    rw [run]
    intro header entries spells
    obtain ⟨c, reading⟩ := Reading.exists_of_sound spells.sound (spells.proper moderate)
    obtain ⟨first, rest, same, announced, spelled⟩ := spells.spelled
    exact ended _ c (.inr ⟨header, first, rest, entries, same, announced, spelled, reading, rfl⟩)
  · exact ended.elim

/-- A text that spells entries with complements is read, and no warning is recorded if the header matches. -/
theorem readText_of_spells {text : List Char} (spells : Spells (splitLines '\n' '\r' [] text) header entries)
    (proper : ∀ entry ∈ entries, entry.Proper) (journal : Journal)
    : ∃ c journal', Reading entries c ∧ readText text ⟨.empty, journal⟩ = .ok () ⟨finished c, journal'⟩
      ∧ (header.Matches entries → journal'.lines .warn = journal.lines .warn) := by
  have spec := readAll_spec (spells.moderate proper) journal
  rw [← readText] at spec
  split at spec
  · rename_i s run
    obtain ⟨header', entries', c, spells', reading, same, quiet⟩ := spec
    obtain ⟨rfl, rfl⟩ := spells.unique spells'
    refine ⟨c, s.journal, reading, ?_, quiet⟩
    rw [run, ← same]
  · exact absurd spells (spec header entries)
  · exact spec.elim

-----------------------------------------------------------------------------------------
-- What is read
-----------------------------------------------------------------------------------------

/-- The circuit has one node for each entry, by position, and the last one is the root. -/
structure ReadAs (entries : List Entry) (c : Circuit) : Prop where
  size : c.nodes.size = entries.length
  gates : ∀ id, c.gate? id = entries[id]?.map Entry.gate
  root : c.root = some (entries.length - 1)

theorem Reading.finished (reading : Reading entries c) : ReadAs entries (finished c) where
  size := by rw [Nnf.finished, (Circuit.refreshRoot_frame _).1, reading.size]
  gates id := by
    rw [← reading.gate?]
    exact congrArg (Option.map Node.gate) (Circuit.node?_of_nodes (Circuit.refreshRoot_frame _).1 id)
  root := by rw [Nnf.finished, Circuit.root_refreshRoot, reading.size]

/-- A text without the line of the least literal is read just if it spells a header and entries, and stops with an
error otherwise. The circuit has a node for each entry, and is the same for all texts that spell these entries.
-/
theorem accepts_iff_spells (text : List Char) (journal : Journal)
    (moderate : ∀ words ∈ contents (splitLines '\n' '\r' [] text), Moderate words)
    : ((∃ s, readBytes (Text.encode text) ⟨.empty, journal⟩ = .ok () s)
        ↔ ∃ header entries, Spells (splitLines '\n' '\r' [] text) header entries)
      ∧ ((¬ ∃ s, readBytes (Text.encode text) ⟨.empty, journal⟩ = .ok () s)
        → ∃ cause s, readBytes (Text.encode text) ⟨.empty, journal⟩ = .error (.error cause) s)
      ∧ ∀ header entries s, Spells (splitLines '\n' '\r' [] text) header entries
        → readBytes (Text.encode text) ⟨.empty, journal⟩ = .ok () s
        → ReadAs entries s.state
          ∧ ∀ text' header' journal' s', Spells (splitLines '\n' '\r' [] text') header' entries
            → readBytes (Text.encode text') ⟨.empty, journal'⟩ = .ok () s'
            → s'.state = s.state := by
  simp only [readBytes_encode]
  have spec := readAll_spec moderate journal
  rw [← readText] at spec
  refine ⟨⟨?_, ?_⟩, fun refused => ?_, ?_⟩
  · intro read
    obtain ⟨s, run⟩ := read
    rw [run] at spec
    obtain ⟨header, entries, c, spells, _⟩ := spec
    exact ⟨header, entries, spells⟩
  · intro spelled
    obtain ⟨header, entries, spells⟩ := spelled
    obtain ⟨c, journal', _, run, _⟩ := readText_of_spells spells (spells.proper moderate) journal
    exact ⟨_, run⟩
  · split at spec
    · rename_i s run
      exact absurd ⟨s, run⟩ refused
    · rename_i cause s run
      exact ⟨cause, s, run⟩
    · exact spec.elim
  · intro header entries s spells run
    have proper := spells.proper moderate
    obtain ⟨c, journal', reading, run', _⟩ := readText_of_spells spells proper journal
    obtain rfl := (EStateM.Result.ok.inj (run'.symm.trans run)).2
    refine ⟨reading.finished, fun text' header' journal' s' spells' other => ?_⟩
    obtain ⟨d, journal'', reading', other', _⟩ := readText_of_spells spells' proper journal'
    obtain rfl := (EStateM.Result.ok.inj (other'.symm.trans other)).2
    rw [reading.unique reading']

section Decision

/-- The entries of a decision on the first variable. -/
def decisionEntries : List Entry := [.literal 1, .literal (-1), .disjunction 1 [0, 1]]

/-- Lines spell them if they have their words after those of a header. -/
theorem spells_decision {first : List (List Char)} (announced : header.Spelled first)
    (same : contents lines = [first, [['L'], ['1']], [['L'], ['-', '1']], [['O'], ['1'], ['2'], ['0'], ['1']]])
    : Spells lines header decisionEntries where
  spelled := ⟨first, _, same, announced, .cons (.literal rfl (by decide)) (.cons (.literal rfl (by decide))
    (.cons (.disjunction rfl rfl (.cons rfl (.cons rfl .nil))) .nil))⟩
  some_ := List.cons_ne_nil _ _
  sound := by
    have leaf : ∀ earlier l, (Entry.literal l).Fits earlier := by
      intro earlier l
      exact ⟨by simp [Entry.children], fun v decides => by cases decides⟩
    have one : Sound [.literal 1] := (@sound_append_singleton [] (.literal 1)).mpr ⟨sound_nil, leaf _ _⟩
    have two : Sound [.literal 1, .literal (-1)] :=
      (@sound_append_singleton [.literal 1] (.literal (-1))).mpr ⟨one, leaf _ _⟩
    apply (@sound_append_singleton [.literal 1, .literal (-1)] (.disjunction 1 [0, 1])).mpr
    refine ⟨two, by simp [Entry.children], fun v decides => ?_⟩
    cases decides
    exact ⟨0, by simp [Entry.children], .literal rfl rfl⟩

theorem accepts_decision
    : ∃ s s', readBytes (Text.encode "nnf 3 2 1\nL 1\nc note\nL -1\nO 1 2 0 1\n".toList) ⟨.empty, {}⟩ = .ok () s
      ∧ readBytes (Text.encode "nnf 7 0 0\n\nL 1\r\nL -1\nO 1 2 0 1".toList) ⟨.empty, {}⟩ = .ok () s'
      ∧ ReadAs decisionEntries s.state ∧ s'.state = s.state := by
  have spells := @spells_decision (splitLines '\n' '\r' [] "nnf 3 2 1\nL 1\nc note\nL -1\nO 1 2 0 1\n".toList)
    ⟨3, 2, 1⟩ _ (.announced rfl rfl rfl) rfl
  have spells' := @spells_decision (splitLines '\n' '\r' [] "nnf 7 0 0\n\nL 1\r\nL -1\nO 1 2 0 1".toList)
    ⟨7, 0, 0⟩ _ (.announced rfl rfl rfl) rfl
  obtain ⟨s, run⟩ := (accepts_iff_spells _ {} (by decide)).1.mpr ⟨_, _, spells⟩
  obtain ⟨s', run'⟩ := (accepts_iff_spells _ {} (by decide)).1.mpr ⟨_, _, spells'⟩
  obtain ⟨readAs, same⟩ := (accepts_iff_spells _ {} (by decide)).2.2 _ _ s spells run
  exact ⟨s, s', run, run', readAs, same _ _ _ s' spells' run'⟩

end Decision

end KnowledgeCompiler.Nnf
