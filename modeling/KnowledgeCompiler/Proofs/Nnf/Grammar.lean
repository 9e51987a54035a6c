import Mathlib.Data.List.Forall2
import KnowledgeCompiler.Circuit.Nnf
import KnowledgeCompiler.Proofs.Nnf.Transcript
import KnowledgeCompiler.Proofs.Text.Numeral

/-! The grammar of texts, apart from any reader.

A text spells a header and then the entries of nodes. An entry names earlier entries as its children, and a
decision is on a variable that occurs below one of them. Read in turn, the entries are gates, and a variable occurs
below an entry just if it is one of the variables of the node.
-/

namespace KnowledgeCompiler.Nnf

open KnowledgeCompiler.Circuit (Transcribes)

variable {c d : Circuit} {id : NodeId} {v : Var}

-----------------------------------------------------------------------------------------
-- Entries
-----------------------------------------------------------------------------------------

/-- What the line of a node says. The variable of a disjunction is zero if it decides on none. -/
inductive Entry where
  | literal (l : Lit)
  | conjunction (children : List NodeId)
  | disjunction (v : Var) (children : List NodeId)

namespace Entry

/-- The children as they are named. -/
def children : Entry → List NodeId
  | literal _ => []
  | conjunction children | disjunction _ children => children

/-- The variable that is decided on. Without children there is no decision. -/
def decision : Entry → Option Var
  | disjunction v children => if v = 0 ∨ children = [] then none else some v
  | _ => none

/-- The gate of an entry: children are a set, and without any the gate is constant. -/
def gate : Entry → Gate
  | literal l => .literal l
  | conjunction children =>
      if children = [] then .constant true else .and (SortedSet.ofList children).toList
  | disjunction v children =>
      if children = [] then .constant false
      else .or (disjunction v children).decision (SortedSet.ofList children).toList

/-- A literal has a complement. -/
def Proper : Entry → Prop
  | literal l => l.Proper
  | _ => True

theorem mem_children_gate {entry : Entry} {child : NodeId}
    : child ∈ entry.gate.children ↔ child ∈ entry.children := by
  cases entry with
  | literal l => rfl
  | conjunction children | disjunction v children =>
      rw [gate]
      split
      · rename_i none_
        rw [Entry.children, none_]
        rfl
      · exact SortedSet.mem_ofList

theorem nodup_children_gate (entry : Entry) : entry.gate.children.Nodup := by
  cases entry with
  | literal l => exact List.nodup_nil
  | conjunction children | disjunction v children =>
      rw [gate]
      split
      · exact List.nodup_nil
      · exact SortedSet.nodup _

theorem inRange_gate {entry : Entry} (proper : entry.Proper) : entry.gate.InRange := by
  cases entry with
  | literal l => exact proper
  | conjunction children | disjunction v children =>
      rw [gate]
      split <;> trivial

end Entry

/-- The variable occurs below the entry at a position. -/
inductive OccursBelow (entries : List Entry) (v : Var) : NodeId → Prop where
  | literal {id : NodeId} {l : Lit} (here : entries[id]? = some (.literal l)) (same : l.var = v)
      : OccursBelow entries v id
  | child {id child : NodeId} {entry : Entry} (here : entries[id]? = some entry) (member : child ∈ entry.children)
      (below : OccursBelow entries v child)
      : OccursBelow entries v id

/-- An entry that may come after others. -/
structure Entry.Fits (earlier : List Entry) (entry : Entry) : Prop where
  named : ∀ child ∈ entry.children, child < earlier.length
  decides : ∀ v, entry.decision = some v → ∃ child ∈ entry.children, OccursBelow earlier v child

/-- Each entry may come after those before it. -/
def Sound (entries : List Entry) : Prop :=
  ∀ {id : NodeId} {entry : Entry}, entries[id]? = some entry → entry.Fits (entries.take id)

theorem sound_nil : Sound [] := by
  intro id entry found
  cases found

/-- A further entry that may come at the end. -/
theorem sound_append_singleton {entries : List Entry} {entry : Entry}
    : Sound (entries ++ [entry]) ↔ Sound entries ∧ entry.Fits entries := by
  constructor
  · intro sound
    refine ⟨fun {id other} found => ?_, ?_⟩
    · have inside : id < entries.length := (List.getElem?_eq_some_iff.mp found).1
      have fits := sound ((List.getElem?_append_left inside).trans found)
      rwa [List.take_append_of_le_length (Nat.le_of_lt inside)] at fits
    · have fits := sound (@List.getElem?_concat_length _ entries entry)
      rwa [List.take_left] at fits
  · intro both id other found
    rcases Nat.lt_or_ge id entries.length with inside | beyond
    · rw [List.getElem?_append_left inside] at found
      rw [List.take_append_of_le_length (Nat.le_of_lt inside)]
      exact both.1 found
    · obtain ⟨bound, rfl⟩ := List.getElem?_eq_some_iff.mp found
      rw [List.length_append, List.length_singleton] at bound
      obtain rfl : id = entries.length := Nat.le_antisymm (Nat.le_of_lt_succ bound) beyond
      rw [List.take_left, List.getElem_concat_length rfl]
      exact both.2

/-- The first ones of entries may come in turn as well; induction from the last entry. -/
theorem Sound.left {entries more : List Entry} (sound : Sound (entries ++ more)) : Sound entries := by
  induction more using List.reverseRecOn with
  | nil => rwa [List.append_nil] at sound
  | append_singleton more entry ih =>
      rw [← List.append_assoc] at sound
      exact ih (sound_append_singleton.mp sound).1

-----------------------------------------------------------------------------------------
-- Spelling
-----------------------------------------------------------------------------------------

/-- Words that are numbers. -/
def Names (tokens : List (List Char)) (ids : List NodeId) : Prop :=
  List.Forall₂ (fun token id => Text.natural? Text.largestWord token = some id) tokens ids

/-- The words of a line spell an entry. -/
inductive Entry.Spelled : List (List Char) → Entry → Prop where
  | literal {token : List Char} {l : Lit} (value : Text.integer? Lit.least 2147483647 token = some l) (nonzero : l ≠ 0)
      : Spelled [['L'], token] (.literal l)
  | conjunction {count : List Char} {tokens : List (List Char)} {children : List NodeId}
      (counted : Text.natural? Text.largestWord count = some tokens.length) (named : Names tokens children)
      : Spelled (['A'] :: count :: tokens) (.conjunction children)
  | disjunction {token count : List Char} {tokens : List (List Char)} {v : Var} {children : List NodeId}
      (variable_ : Text.natural? Text.largestHalf token = some v)
      (counted : Text.natural? Text.largestWord count = some tokens.length) (named : Names tokens children)
      : Spelled (['O'] :: token :: count :: tokens) (.disjunction v children)

/-- The words of a line spell a header. -/
inductive Header.Spelled : List (List Char) → Header → Prop where
  | announced {nodes edges vars : List Char} {header : Header}
      (nodeCount : Text.natural? Text.largestWord nodes = some header.nodes)
      (edgeCount : Text.natural? Text.largestWord edges = some header.edges)
      (varCount : Text.natural? Text.largestHalf vars = some header.vars)
      : Spelled [['n', 'n', 'f'], nodes, edges, vars] header

/-- The words of a blank line or of a comment. -/
def ignored : List (List Char) → Bool
  | [] => true
  | first :: _ => first.head? == some 'c' || first.head? == some 'C'

/-- The words of the lines that count. -/
def contents (lines : List (List Char)) : List (List (List Char)) :=
  (lines.map Text.words).filter fun words => !ignored words

/-- The lines spell a header and then the entries of one or more nodes. -/
structure Spells (lines : List (List Char)) (header : Header) (entries : List Entry) : Prop where
  spelled
    : ∃ first rest, contents lines = first :: rest ∧ header.Spelled first ∧ List.Forall₂ Entry.Spelled rest entries
  some_ : entries ≠ []
  sound : Sound entries

theorem Names.unique {tokens : List (List Char)} {ids others : List NodeId} (names : Names tokens ids)
    (names' : Names tokens others)
    : ids = others :=
  List.right_unique_forall₂' (fun _ _ _ first second => Option.some.inj (first.symm.trans second)) names names'

/-- Words spell one entry at most. -/
theorem Entry.Spelled.unique {words : List (List Char)} {entry other : Entry} (spelled : entry.Spelled words)
    (spelled' : other.Spelled words)
    : entry = other := by
  cases spelled with
  | literal value nonzero =>
      cases spelled' with
      | literal value' _ => rw [Option.some.inj (value.symm.trans value')]
  | conjunction counted named =>
      cases spelled' with
      | conjunction _ named' => rw [named.unique named']
  | disjunction variable_ counted named =>
      cases spelled' with
      | disjunction variable_' _ named' =>
          rw [Option.some.inj (variable_.symm.trans variable_'), named.unique named']

theorem Header.Spelled.unique {words : List (List Char)} {header other : Header} (spelled : header.Spelled words)
    (spelled' : other.Spelled words)
    : header = other := by
  cases spelled with
  | announced nodes edges vars =>
      cases spelled' with
      | announced nodes' edges' vars' =>
          rw [nodes] at nodes'
          rw [edges] at edges'
          rw [vars] at vars'
          cases header
          cases other
          simp_all

theorem forall₂_spelled_unique {lines : List (List (List Char))} {entries others : List Entry}
    (spelled : List.Forall₂ Entry.Spelled lines entries) (spelled' : List.Forall₂ Entry.Spelled lines others)
    : entries = others :=
  @List.right_unique_forall₂' _ _ Entry.Spelled (fun _ _ _ first second => first.unique second) _ _ _ spelled spelled'

/-- Lines spell one header and one list of entries at most. -/
theorem Spells.unique {lines : List (List Char)} {header header' : Header} {entries entries' : List Entry}
    (spells : Spells lines header entries) (spells' : Spells lines header' entries')
    : header = header' ∧ entries = entries' := by
  obtain ⟨first, rest, same, announced, spelled⟩ := spells.spelled
  obtain ⟨first', rest', same', announced', spelled'⟩ := spells'.spelled
  obtain ⟨rfl, rfl⟩ := List.cons.inj (same.symm.trans same')
  exact ⟨announced.unique announced',
    forall₂_spelled_unique spelled spelled'⟩

/-- The words are not the line of the least literal, which has no complement. -/
def Moderate : List (List Char) → Prop
  | [kind, token] => kind = ['L'] → Text.integer? Lit.least 2147483647 token ≠ some Lit.least
  | _ => True

instance (words : List (List Char)) : Decidable (Moderate words) := by
  unfold Moderate
  split <;> infer_instance

/-- A literal that is read has a complement, unless it is the least one. -/
theorem Entry.Spelled.proper {words : List (List Char)} {entry : Entry} (spelled : entry.Spelled words)
    (moderate : Moderate words)
    : entry.Proper := by
  cases spelled with
  | conjunction counted named => trivial
  | disjunction variable_ counted named => trivial
  | @literal token l value nonzero =>
      have small : ∀ i : Int, -2147483648 ≤ i ∧ i ≤ 2147483647 → i ≠ -2147483648 → i.natAbs < 2147483648 := by
        omega
      refine ⟨nonzero, small l (Text.integer?_bounds value) fun same => moderate rfl ?_⟩
      rw [value, same]
      rfl

/-- The line of an entry with a complement is not the one of the least literal. -/
theorem Entry.Spelled.moderate {words : List (List Char)} {entry : Entry} (spelled : entry.Spelled words)
    (proper : entry.Proper)
    : Moderate words := by
  cases spelled with
  | @literal token l value nonzero =>
      intro _ least
      rw [value] at least
      exact absurd (Option.some.inj least ▸ proper.2) (by decide)
  | @conjunction count tokens children counted named =>
      cases tokens with
      | nil => exact fun impossible => absurd impossible (by decide)
      | cons token rest => trivial
  | disjunction variable_ counted named => trivial

theorem Header.Spelled.moderate {words : List (List Char)} {header : Header} (spelled : header.Spelled words)
    : Moderate words := by
  cases spelled with
  | announced _ _ _ => trivial

-----------------------------------------------------------------------------------------
-- Entries as gates
-----------------------------------------------------------------------------------------

/-- A circuit made of entries that may come in turn. -/
structure Reading (entries : List Entry) (c : Circuit) : Prop where
  transcribes : Transcribes (entries.map Entry.gate) c
  sound : Sound entries
  proper : ∀ entry ∈ entries, entry.Proper

namespace Reading

variable {entries : List Entry} {entry : Entry}

theorem empty : Reading [] { Circuit.empty with sharing := false } := ⟨.empty, sound_nil, by simp⟩

theorem size (reading : Reading entries c) : c.nodes.size = entries.length := by
  rw [reading.transcribes.size, List.length_map]

theorem gate? (reading : Reading entries c) (id : NodeId) : c.gate? id = entries[id]?.map Entry.gate := by
  rw [reading.transcribes.gate?, List.getElem?_map]

theorem inRange (reading : Reading entries c) : c.InRange :=
  reading.transcribes.inRange fun gate member => by
    obtain ⟨entry, inside, rfl⟩ := List.mem_map.mp member
    exact Entry.inRange_gate (reading.proper entry inside)

/-- What occurs below an entry are the variables of its node; one way by induction on the occurrence, and the other
way by induction on the position.
-/
theorem occursBelow_iff (reading : Reading entries c) : OccursBelow entries v id ↔ v ∈ c.varsOf id := by
  have upToDate := reading.transcribes.upToDate
  constructor
  · intro occurs
    induction occurs with
    | @literal id l here same =>
        have found := reading.gate? id
        rw [here] at found
        exact (upToDate.mem_varsOf found).mpr same.symm
    | @child id child entry here member _ ih =>
        have found := reading.gate? id
        rw [here] at found
        refine (upToDate.mem_varsOf found).mpr ?_
        have member := Entry.mem_children_gate.mpr member
        cases gate : entry.gate with
        | and children | or decision children =>
            rw [gate] at member
            exact ⟨child, member, ih⟩
        | constant value | literal l | twoCnf formula | horn formula =>
            rw [gate] at member
            cases member
        | mapping names child =>
            cases entry <;> simp [Entry.gate] at gate <;> split at gate <;> cases gate
  · intro inside
    induction id using Nat.strong_induction_on with
    | _ id ih =>
        obtain ⟨node, found⟩ := c.exists_node (Circuit.lt_of_mem_varsOf inside)
        have found := Circuit.gate?_of_node? found
        rw [reading.gate?] at found
        obtain ⟨entry, here, same⟩ := Option.map_eq_some_iff.mp found
        have mentioned := (upToDate.mem_varsOf ((reading.gate? id).trans found)).mp inside
        rw [← same] at mentioned
        have below : ∀ child ∈ entry.children, v ∈ c.varsOf child → OccursBelow entries v id := by
          intro child member there
          have earlier := (reading.sound here).named child member
          rw [List.length_take] at earlier
          exact .child here member (ih child (Nat.lt_of_lt_of_le earlier (Nat.min_le_left ..)) there)
        cases entry with
        | literal l => exact .literal here mentioned.symm
        | conjunction children | disjunction w children =>
            rw [Entry.gate] at mentioned
            split at mentioned
            · exact mentioned.elim
            · obtain ⟨child, member, there⟩ := mentioned
              exact below child (SortedSet.mem_ofList.mp member) there

/-- A further entry makes a further node. -/
theorem append (reading : Reading entries c) (fits : entry.Fits entries) (proper : entry.Proper) {summary : Summary}
    (done : c.summarize entry.gate = .ok summary)
    : Reading (entries ++ [entry]) (c.append entry.gate summary) where
  transcribes := by
    rw [List.map_append]
    refine reading.transcribes.append (fun child member => ?_) entry.nodup_children_gate done
    rw [List.length_map]
    exact fits.named child (Entry.mem_children_gate.mp member)
  sound := sound_append_singleton.mpr ⟨reading.sound, fits⟩
  proper := by
    intro other member
    rcases List.mem_append.mp member with old | new
    · exact reading.proper other old
    · exact List.mem_singleton.mp new ▸ proper

/-- What a further entry is summarized as. -/
theorem summarize (reading : Reading entries c) (named : ∀ child ∈ entry.children, child < entries.length)
    (proper : entry.Proper)
    : ∃ summary, c.summarize entry.gate = .ok summary := by
  refine reading.transcribes.summarize (fun gate member => ?_) (Entry.inRange_gate proper) fun child member => ?_
  · obtain ⟨other, inside, rfl⟩ := List.mem_map.mp member
    exact Entry.inRange_gate (reading.proper other inside)
  · rw [List.length_map]
    exact named child (Entry.mem_children_gate.mp member)

/-- One list of entries makes one circuit. -/
theorem unique (reading : Reading entries c) (other : Reading entries d) : c = d :=
  reading.transcribes.unique other.transcribes

/-- Entries that may come in turn make a circuit; induction from the last entry. -/
theorem exists_of_sound {entries : List Entry} (sound : Sound entries) (proper : ∀ entry ∈ entries, entry.Proper)
    : ∃ c, Reading entries c := by
  induction entries using List.reverseRecOn with
  | nil => exact ⟨_, .empty⟩
  | append_singleton entries entry ih =>
      obtain ⟨before, fits⟩ := sound_append_singleton.mp sound
      obtain ⟨others, last⟩ := List.forall_mem_append.mp proper
      have proper := last entry (List.mem_singleton_self entry)
      obtain ⟨c, reading⟩ := ih before others
      obtain ⟨summary, done⟩ := reading.summarize fits.named proper
      exact ⟨_, reading.append fits proper done⟩

/-- The first ones of entries make a circuit as well. -/
theorem left {more : List Entry} (reading : Reading (entries ++ more) c) : ∃ d, Reading entries d :=
  exists_of_sound (Sound.left reading.sound) fun entry member => reading.proper entry (List.mem_append_left more member)

end Reading

end KnowledgeCompiler.Nnf
