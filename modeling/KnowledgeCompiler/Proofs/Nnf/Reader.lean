import KnowledgeCompiler.Proofs.Action
import KnowledgeCompiler.Proofs.Circuit.Decisions
import KnowledgeCompiler.Proofs.Nnf.Grammar

/-! The reader accepts the grammar and nothing else.

Each function of the reader succeeds just if the words before it spell what it looks for, and if what they spell may
come after the entries so far. So the lines are accepted one after another, and a text is read just if it spells a
header and entries; then the circuit is the one that is made of the entries.
-/

namespace KnowledgeCompiler.Nnf

open KnowledgeCompiler.Action (Accepts discard_bind)
open KnowledgeCompiler.Circuit (Transcribes)

variable {c d : Circuit} {line : Nat} {seen seen' : Seen} {tokens : List (List Char)} {entries : List Entry}

-----------------------------------------------------------------------------------------
-- Numbers
-----------------------------------------------------------------------------------------

theorem number_accepts {α : Type} {parse : List Char → Option α} {token : List Char}
    : Accepts (number line parse token) c fun value d => parse token = some value ∧ d = c := by
  unfold number
  cases parsed : parse token with
  | some value => exact Accepts.pure ⟨rfl, rfl⟩
  | none => exact Accepts.fail fun value d holds => by cases holds.1

/-- The words name nodes that are there; induction on the words. -/
theorem childNodes_accepts
    : Accepts (childNodes line tokens) c fun ids d => Names tokens ids ∧ (∀ id ∈ ids, id < c.nodes.size) ∧ d = c := by
  induction tokens with
  | nil => exact Accepts.pure ⟨.nil, by simp, rfl⟩
  | cons token rest ih =>
      refine number_accepts.bind (fun position d parsed => ?_) fun ids d names => ?_
      · obtain ⟨value, rfl⟩ := parsed
        refine Accepts.current ?_
        split
        · rename_i beyond
          refine Accepts.failed fun ids e holds => ?_
          obtain ⟨names, present, _⟩ := holds
          cases names with
          | cons first later =>
              obtain rfl := Option.some.inj (value.symm.trans first)
              exact Nat.not_lt.mpr beyond (present _ List.mem_cons_self)
        · rename_i inside
          refine ih.bind (fun ids e named => Accepts.pure ?_) fun ids e holds => ?_
          · obtain ⟨names, present, rfl⟩ := named
            exact ⟨.cons value names, List.forall_mem_cons.mpr ⟨Nat.lt_of_not_le inside, present⟩, rfl⟩
          · obtain ⟨names, present, same⟩ := holds
            cases names with
            | cons first later => exact ⟨_, e, later, fun id member => present id (List.mem_cons_of_mem _ member), same⟩
      · cases names.1 with
        | cons first later => exact ⟨_, c, first, rfl⟩

/-- The words are the number of nodes and then name the nodes. -/
theorem children_accepts
    : Accepts (children line tokens) c fun ids d =>
        (∃ count rest, tokens = count :: rest ∧ Text.natural? Text.largestWord count = some rest.length
          ∧ Names rest ids)
        ∧ (∀ id ∈ ids, id < c.nodes.size) ∧ d = c := by
  cases tokens with
  | nil =>
      refine Accepts.fail fun ids d holds => ?_
      obtain ⟨⟨count, rest, same, _⟩, _⟩ := holds
      cases same
  | cons declared rest =>
      refine number_accepts.bind (fun expected d parsed => ?_) fun ids d holds => ?_
      · obtain ⟨value, rfl⟩ := parsed
        dsimp only
        split
        · rename_i differ
          refine Accepts.failed fun ids e holds => ?_
          obtain ⟨⟨count, rest', same, counted, _⟩, _⟩ := holds
          obtain ⟨rfl, rfl⟩ := List.cons.inj same
          obtain rfl := Option.some.inj (value.symm.trans counted)
          simp at differ
        · rename_i equal
          have length : rest.length = expected := by simpa using equal
          refine childNodes_accepts.congr fun ids e => ⟨fun named => ?_, fun holds => ?_⟩
          · exact ⟨⟨declared, rest, rfl, length ▸ value, named.1⟩, named.2⟩
          · obtain ⟨⟨count, rest', same, _, names⟩, others⟩ := holds
            obtain ⟨rfl, rfl⟩ := List.cons.inj same
            exact ⟨names, others⟩
      · obtain ⟨⟨count, rest', same, counted, _⟩, _⟩ := holds
        obtain ⟨rfl, rfl⟩ := List.cons.inj same
        exact ⟨_, c, counted, rfl⟩

-----------------------------------------------------------------------------------------
-- Nodes
-----------------------------------------------------------------------------------------

section Nodes

variable {gate : Gate} {summary : Summary} {ids : List NodeId}

theorem insert_accepts (unshared : c.sharing = false) (done : c.summarize gate = .ok summary)
    : Accepts (Build.insert gate) c fun id d => id = c.nodes.size ∧ d = c.append gate summary := by
  have new : c.shared? gate = none := by
    rw [Circuit.shared?, unshared]
    rfl
  refine Accepts.current ?_
  rw [new]
  refine Accepts.note (by simp [Event.level]) ?_
  exact Accepts.checked done (Accepts.update (Accepts.pure ⟨rfl, rfl⟩))

theorem existing_accepts (present : ∀ id ∈ ids, id < c.nodes.size)
    : Accepts (Build.existing ids) c fun out d => out = (SortedSet.ofList ids).toList ∧ d = c := by
  refine Accepts.current ?_
  have all : (SortedSet.ofList ids).toList.find? (fun id => (c.node? id).isNone) = none := by
    refine List.find?_eq_none.mpr fun id member missing => ?_
    have there := Circuit.node?_isSome.mpr (present id (SortedSet.mem_ofList.mp member))
    simp_all
  rw [all]
  exact Accepts.pure ⟨rfl, rfl⟩

theorem conjunction_accepts (unshared : c.sharing = false) (present : ∀ id ∈ ids, id < c.nodes.size)
    (done : c.summarize (Entry.conjunction ids).gate = .ok summary)
    : Accepts (Build.conjunction ids) c fun id d =>
        id = c.nodes.size ∧ d = c.append (Entry.conjunction ids).gate summary := by
  refine (existing_accepts present).bind (fun out d listed => ?_) fun _ _ _ => ⟨_, c, rfl, rfl⟩
  obtain ⟨rfl, rfl⟩ := listed
  rw [Entry.gate] at done ⊢
  split
  · rename_i none_
    rw [if_pos (SortedSet.toList_ofList_eq_nil.mp none_)] at done ⊢
    exact insert_accepts unshared done
  · rename_i some_
    rw [if_neg fun none_ => some_ (SortedSet.toList_ofList_eq_nil.mpr none_)] at done ⊢
    exact insert_accepts unshared done

theorem disjunction_accepts {v : Var} (unshared : c.sharing = false) (present : ∀ id ∈ ids, id < c.nodes.size)
    (done : c.summarize (Entry.disjunction v ids).gate = .ok summary)
    : Accepts (Build.disjunction ids (Entry.disjunction v ids).decision) c fun id d =>
        (∀ w, (Entry.disjunction v ids).decision = some w → ∃ child ∈ ids, w ∈ c.varsOf child)
        ∧ id = c.nodes.size ∧ d = c.append (Entry.disjunction v ids).gate summary := by
  refine (existing_accepts present).bind (fun out d listed => ?_) fun _ _ _ => ⟨_, c, rfl, rfl⟩
  obtain ⟨rfl, rfl⟩ := listed
  rw [Entry.gate] at done ⊢
  split
  · rename_i none_
    have none_ := SortedSet.toList_ofList_eq_nil.mp none_
    rw [if_pos none_] at done ⊢
    refine (insert_accepts unshared done).congr fun id e => ⟨fun made => ⟨fun w decides => ?_, made⟩, And.right⟩
    simp [Entry.decision, none_] at decides
  · rename_i some_
    rw [if_neg fun none_ => some_ (SortedSet.toList_ofList_eq_nil.mpr none_)] at done ⊢
    have same : ∀ w, (∃ child ∈ (SortedSet.ofList ids).toList, w ∈ d.varsOf child)
        ↔ ∃ child ∈ ids, w ∈ d.varsOf child :=
      fun w => exists_congr fun child => and_congr_left fun _ => SortedSet.mem_ofList
    refine Accepts.current ?_
    split
    · rename_i absent checked
      refine Accepts.fail fun id e holds => ?_
      have passes := Circuit.filter_eq_none_iff.mpr fun w decides => (same w).mpr (holds.1 w decides)
      rw [checked] at passes
      cases passes
    · rename_i checked
      have decides := Circuit.filter_eq_none_iff.mp checked
      exact (insert_accepts unshared done).congr fun id e =>
        ⟨fun made => ⟨fun w chosen => (same w).mp (decides w chosen), made⟩, And.right⟩

theorem literal_accepts {l : Lit} (unshared : c.sharing = false) (nonzero : l ≠ 0)
    (done : c.summarize (.literal l) = .ok summary)
    : Accepts (Build.literal l) c fun id d => id = c.nodes.size ∧ d = c.append (.literal l) summary := by
  unfold Build.literal
  rw [if_neg nonzero]
  exact insert_accepts unshared done

end Nodes

-----------------------------------------------------------------------------------------
-- Lines
-----------------------------------------------------------------------------------------

/-- What has been seen after an entry. -/
def Seen.after (seen : Seen) (entry : Entry) : Seen :=
  match entry with
  | .literal l => { seen with largest := max seen.largest l.var }
  | .conjunction children | .disjunction _ children => { seen with edges := seen.edges + children.length }

/-- The words spell an entry that may come after the entries so far, and the circuit is made of all of them. -/
def Follows (entries : List Entry) (seen : Seen) (words : List (List Char)) (seen' : Seen) (d : Circuit) : Prop :=
  ∃ entry : Entry, entry.Spelled words ∧ Reading (entries ++ [entry]) d ∧ seen' = seen.after entry

theorem Reading.fits_last {entry : Entry} (reading : Reading (entries ++ [entry]) d) : entry.Fits entries :=
  (sound_append_singleton.mp reading.sound).2

theorem readLiteral_accepts (reading : Reading entries c) (moderate : Moderate (['L'] :: tokens))
    : Accepts (readLiteral line tokens seen) c (Follows entries seen (['L'] :: tokens)) := by
  unfold readLiteral
  split
  · rename_i token
    refine number_accepts.bind (fun l d parsed => ?_) fun seen' d follows => ?_
    · obtain ⟨value, rfl⟩ := parsed
      dsimp only
      split
      · rename_i zero
        refine Accepts.failed fun seen' e follows => ?_
        obtain ⟨entry, spelled, _⟩ := follows
        cases spelled with
        | literal value' nonzero => exact nonzero ((Option.some.inj (value'.symm.trans value)).trans zero)
      · rename_i nonzero
        have spelled : (Entry.literal l).Spelled [['L'], token] := .literal value nonzero
        have proper := spelled.proper moderate
        obtain ⟨summary, done⟩ := reading.summarize (by simp [Entry.children]) proper
        rw [discard_bind]
        refine (literal_accepts reading.transcribes.unshared nonzero done).bind (fun id e made => Accepts.pure ?_)
          fun _ _ _ => ⟨_, _, rfl, rfl⟩
        obtain ⟨_, rfl⟩ := made
        have fits : (Entry.literal l).Fits entries := ⟨by simp [Entry.children], by simp [Entry.decision]⟩
        exact ⟨.literal l, spelled, reading.append fits proper done, rfl⟩
    · obtain ⟨entry, spelled, _⟩ := follows
      cases spelled with
      | literal value _ => exact ⟨_, c, value, rfl⟩
  · rename_i shape
    refine Accepts.fail fun seen' d follows => ?_
    obtain ⟨entry, spelled, _⟩ := follows
    cases spelled with
    | literal _ _ => exact shape _ rfl

theorem readConjunction_accepts (reading : Reading entries c)
    : Accepts (readConjunction line tokens seen) c (Follows entries seen (['A'] :: tokens)) := by
  refine children_accepts.bind (fun ids d named => ?_) fun seen' d follows => ?_
  · obtain ⟨⟨count, rest, rfl, counted, names⟩, present, rfl⟩ := named
    have named : ∀ child ∈ ids, child < entries.length := reading.size ▸ present
    obtain ⟨summary, done⟩ := @Reading.summarize _ _ (.conjunction ids) reading named trivial
    rw [discard_bind]
    refine (conjunction_accepts reading.transcribes.unshared present done).bind (fun id e made => Accepts.pure ?_)
      fun _ _ _ => ⟨_, _, rfl, rfl⟩
    obtain ⟨_, rfl⟩ := made
    have fits : (Entry.conjunction ids).Fits entries := ⟨named, by simp [Entry.decision]⟩
    exact ⟨.conjunction ids, .conjunction counted names, reading.append fits trivial done, rfl⟩
  · obtain ⟨entry, spelled, reading', _⟩ := follows
    cases spelled with
    | conjunction counted names =>
        exact ⟨_, c, ⟨_, _, rfl, counted, names⟩, reading.size ▸ reading'.fits_last.named, rfl⟩

theorem readDisjunction_accepts (reading : Reading entries c)
    : Accepts (readDisjunction line tokens seen) c (Follows entries seen (['O'] :: tokens)) := by
  unfold readDisjunction
  split
  · rename_i token first rest
    refine number_accepts.bind (fun v d parsed => ?_) fun seen' d follows => ?_
    · obtain ⟨value, rfl⟩ := parsed
      refine children_accepts.bind (fun ids e named => ?_) fun seen' e follows => ?_
      · obtain ⟨⟨count, others, same, counted, names⟩, present, rfl⟩ := named
        have named : ∀ child ∈ ids, child < entries.length := reading.size ▸ present
        obtain ⟨summary, done⟩ := @Reading.summarize _ _ (.disjunction v ids) reading named trivial
        have chosen : (if (decide (v = 0) || ids.isEmpty) = true then none else some v)
            = (Entry.disjunction v ids).decision := by
          simp [Entry.decision]
        rw [discard_bind, chosen, same]
        refine (disjunction_accepts reading.transcribes.unshared present done).bind
          (fun id e made => Accepts.pure ?_) fun seen' e follows => ?_
        · obtain ⟨decides, _, rfl⟩ := made
          have fits : (Entry.disjunction v ids).Fits entries := by
            refine ⟨named, fun w decision => ?_⟩
            obtain ⟨child, member, inside⟩ := decides w decision
            exact ⟨child, member, reading.occursBelow_iff.mpr inside⟩
          exact ⟨.disjunction v ids, .disjunction value counted names, reading.append fits trivial done, rfl⟩
        · obtain ⟨entry, spelled, reading', _⟩ := follows
          cases spelled with
          | disjunction value' _ names' =>
              obtain rfl := Option.some.inj (value.symm.trans value')
              obtain rfl := names.unique names'
              refine ⟨_, _, fun w decision => ?_, rfl, rfl⟩
              obtain ⟨child, member, occurs⟩ := reading'.fits_last.decides w decision
              exact ⟨child, member, reading.occursBelow_iff.mp occurs⟩
      · obtain ⟨entry, spelled, reading', _⟩ := follows
        cases spelled with
        | disjunction _ counted names =>
            exact ⟨_, _, ⟨_, _, rfl, counted, names⟩, reading.size ▸ reading'.fits_last.named, rfl⟩
    · obtain ⟨entry, spelled, _⟩ := follows
      cases spelled with
      | disjunction value _ _ => exact ⟨_, c, value, rfl⟩
  · rename_i shape
    refine Accepts.fail fun seen' d follows => ?_
    obtain ⟨entry, spelled, _⟩ := follows
    cases spelled with
    | disjunction _ _ _ => exact shape _ _ _ rfl

theorem readHeader_accepts {text : List Char}
    : Accepts (readHeader line text tokens seen) c fun seen' d =>
        seen.header = none ∧ ∃ header : Header, header.Spelled (['n', 'n', 'f'] :: tokens)
          ∧ seen' = { seen with header := some header } ∧ d = c := by
  unfold readHeader
  dsimp only
  split
  · rename_i twice
    refine Accepts.failed fun seen' d holds => ?_
    rw [holds.1] at twice
    cases twice
  · rename_i first
    have none_ : seen.header = none := by simpa using first
    split
    · rename_i nodes edges vars
      refine number_accepts.bind (fun n d parsed => ?_) fun seen' d holds => ?_
      · obtain ⟨nodeCount, rfl⟩ := parsed
        refine number_accepts.bind (fun e d' parsed => ?_) fun seen' d' holds => ?_
        · obtain ⟨edgeCount, rfl⟩ := parsed
          refine number_accepts.bind (fun v d'' parsed => Accepts.pure ?_) fun seen' d'' holds => ?_
          · obtain ⟨varCount, rfl⟩ := parsed
            exact ⟨none_, ⟨n, e, v⟩, .announced nodeCount edgeCount varCount, rfl, rfl⟩
          · obtain ⟨_, header, announced, _⟩ := holds
            cases announced with
            | announced _ _ varCount => exact ⟨_, _, varCount, rfl⟩
        · obtain ⟨_, header, announced, _⟩ := holds
          cases announced with
          | announced _ edgeCount _ => exact ⟨_, _, edgeCount, rfl⟩
      · obtain ⟨_, header, announced, _⟩ := holds
        cases announced with
        | announced nodeCount _ _ => exact ⟨_, _, nodeCount, rfl⟩
    · rename_i shape
      refine Accepts.fail fun seen' d holds => ?_
      obtain ⟨_, header, announced, _⟩ := holds
      cases announced with
      | announced _ _ _ => exact shape _ _ _ rfl

-----------------------------------------------------------------------------------------
-- Texts
-----------------------------------------------------------------------------------------

variable {text : List Char} {texts : List (List Char)} {header : Header}

/-- Blank lines and comments change nothing. -/
theorem readLine_ignored (skipped : ignored (Text.words text) = true)
    : Accepts (readLine line text seen) c fun seen' d => seen' = seen ∧ d = c := by
  unfold readLine
  generalize Text.words text = words at skipped
  cases words with
  | nil => exact Accepts.pure ⟨rfl, rfl⟩
  | cons kind tokens =>
      have skipped : (kind.head? == some 'c' || kind.head? == some 'C') = true := skipped
      dsimp only
      rw [if_pos skipped]
      exact Accepts.pure ⟨rfl, rfl⟩

/-- A line that counts before the header has to spell the header. -/
theorem readLine_accepts_header (counts : ignored (Text.words text) = false) (none_ : seen.header = none)
    : Accepts (readLine line text seen) c fun seen' d =>
        ∃ header : Header, header.Spelled (Text.words text) ∧ seen' = { seen with header := some header } ∧ d = c := by
  unfold readLine
  generalize Text.words text = words at counts
  cases words with
  | nil => cases counts
  | cons kind tokens =>
      have counts : (kind.head? == some 'c' || kind.head? == some 'C') = false := counts
      dsimp only
      rw [if_neg (Bool.eq_false_iff.mp counts)]
      split
      · rename_i headed
        obtain rfl : kind = ['n', 'n', 'f'] := by simpa using headed
        exact readHeader_accepts.congr fun seen' d => ⟨And.right, fun holds => ⟨none_, holds⟩⟩
      · rename_i headed
        rw [none_, if_pos (Option.isNone_none)]
        refine Accepts.failed fun seen' d holds => ?_
        obtain ⟨header, spelled, _⟩ := holds
        cases spelled with
        | announced _ _ _ => exact headed rfl

/-- A line that counts after the header has to spell an entry. -/
theorem readLine_accepts (counts : ignored (Text.words text) = false) (announced : seen.header = some header)
    (reading : Reading entries c) (moderate : Moderate (Text.words text))
    : Accepts (readLine line text seen) c (Follows entries seen (Text.words text)) := by
  unfold readLine
  generalize Text.words text = words at counts moderate
  cases words with
  | nil => cases counts
  | cons kind tokens =>
      have counts : (kind.head? == some 'c' || kind.head? == some 'C') = false := counts
      dsimp only
      rw [if_neg (Bool.eq_false_iff.mp counts)]
      split
      · rename_i headed
        obtain rfl : kind = ['n', 'n', 'f'] := by simpa using headed
        refine readHeader_accepts.congr fun seen' d => ⟨fun holds => ?_, fun follows => ?_⟩
        · rw [holds.1] at announced
          cases announced
        · obtain ⟨entry, spelled, _⟩ := follows
          cases spelled
      · rw [announced, Option.isNone_some, if_neg Bool.false_ne_true]
        split
        · exact readLiteral_accepts reading moderate
        · exact readConjunction_accepts reading
        · exact readDisjunction_accepts reading
        · rename_i literal conjunction disjunction
          refine Accepts.fail fun seen' d follows => ?_
          obtain ⟨entry, spelled, _⟩ := follows
          cases spelled with
          | literal _ _ => exact literal rfl
          | conjunction _ _ => exact conjunction rfl
          | disjunction _ _ _ => exact disjunction rfl

theorem contents_ignored (skipped : ignored (Text.words text) = true) : contents (text :: texts) = contents texts := by
  simp [contents, skipped]

theorem contents_counts (counts : ignored (Text.words text) = false)
    : contents (text :: texts) = Text.words text :: contents texts := by
  simp [contents, counts]

theorem header_after (seen : Seen) (entry : Entry) : (seen.after entry).header = seen.header := by
  cases entry <;> rfl

/-- Lines after the header spell entries; induction on the lines. -/
theorem readLines_accepts (announced : seen.header = some header) (reading : Reading entries c)
    (moderate : ∀ words ∈ contents texts, Moderate words)
    : Accepts (readLines line (texts.map some) seen) c fun seen' d =>
        ∃ more, List.Forall₂ Entry.Spelled (contents texts) more ∧ Reading (entries ++ more) d
          ∧ seen' = more.foldl Seen.after seen := by
  induction texts generalizing entries c seen line with
  | nil => exact Accepts.pure ⟨[], .nil, by rwa [List.append_nil], rfl⟩
  | cons text rest ih =>
      cases kind : ignored (Text.words text) with
      | true =>
          rw [contents_ignored kind] at moderate ⊢
          refine (readLine_ignored kind).bind (fun seen' d same => ?_) fun _ _ _ => ⟨seen, c, rfl, rfl⟩
          obtain ⟨rfl, rfl⟩ := same
          exact ih announced reading moderate
      | false =>
          rw [contents_counts kind] at moderate ⊢
          obtain ⟨here, later⟩ := List.forall_mem_cons.mp moderate
          refine (readLine_accepts kind announced reading here).bind (fun seen' d follows => ?_)
            fun seen' d spelled => ?_
          · obtain ⟨entry, spelled, reading', rfl⟩ := follows
            refine (ih ((header_after seen entry).trans announced) reading' later).congr fun seen' e =>
              ⟨fun rest => ?_, fun whole => ?_⟩
            · obtain ⟨more, spelled', reading'', same⟩ := rest
              refine ⟨entry :: more, .cons spelled spelled', ?_, same⟩
              rwa [List.append_assoc] at reading''
            · obtain ⟨all, spelled', reading'', same⟩ := whole
              cases spelled' with
              | cons first others =>
                  obtain rfl := first.unique spelled
                  refine ⟨_, others, ?_, same⟩
                  rwa [List.append_assoc]
          · obtain ⟨all, spelled, reading', _⟩ := spelled
            cases spelled with
            | @cons _ entry _ more first others =>
                have whole : entries ++ entry :: more = entries ++ [entry] ++ more := by simp
                rw [whole] at reading'
                obtain ⟨e, made⟩ := reading'.left
                exact ⟨_, e, entry, first, made, rfl⟩

/-- What the lines spell, as far as they are read: nothing that counts, or a header and entries. -/
def Opening (texts : List (List Char)) (seen' : Seen) (d : Circuit) : Prop :=
  contents texts = [] ∧ seen' = {} ∧ d = { Circuit.empty with sharing := false }
  ∨ ∃ header : Header, ∃ first rest entries, contents texts = first :: rest ∧ header.Spelled first
      ∧ List.Forall₂ Entry.Spelled rest entries ∧ Reading entries d
      ∧ seen' = entries.foldl Seen.after { header := some header }

/-- The first line that counts has to spell the header; induction on the lines. -/
theorem readLines_opening (moderate : ∀ words ∈ contents texts, Moderate words)
    : Accepts (readLines line (texts.map some) {}) { Circuit.empty with sharing := false } (Opening texts) := by
  induction texts generalizing line with
  | nil => exact Accepts.pure (.inl ⟨rfl, rfl, rfl⟩)
  | cons text rest ih =>
      cases kind : ignored (Text.words text) with
      | true =>
          rw [contents_ignored kind] at moderate
          refine (readLine_ignored kind).bind (fun seen' d same => ?_) fun _ _ _ => ⟨{}, _, rfl, rfl⟩
          obtain ⟨rfl, rfl⟩ := same
          refine (ih moderate).congr fun seen' d => ?_
          rw [Opening, Opening, contents_ignored kind]
      | false =>
          rw [contents_counts kind] at moderate
          obtain ⟨_, later⟩ := List.forall_mem_cons.mp moderate
          refine (readLine_accepts_header kind rfl).bind (fun seen' d announced => ?_) fun seen' d opening => ?_
          · obtain ⟨header, spelled, rfl, rfl⟩ := announced
            refine (readLines_accepts rfl .empty later).congr fun seen' e => ⟨fun entries => ?_, fun opening => ?_⟩
            · obtain ⟨more, spelled', reading, same⟩ := entries
              exact .inr ⟨header, _, _, more, contents_counts kind, spelled, spelled', reading, same⟩
            · rcases opening with none_ | some_
              · rw [contents_counts kind] at none_
                cases none_.1
              · obtain ⟨header', first, rest', entries, lines, spelled', others, reading, same⟩ := some_
                rw [contents_counts kind] at lines
                obtain ⟨rfl, rfl⟩ := List.cons.inj lines
                obtain rfl := spelled'.unique spelled
                exact ⟨entries, others, reading, same⟩
          · rcases opening with none_ | some_
            · rw [contents_counts kind] at none_
              cases none_.1
            · obtain ⟨header, first, rest', entries, lines, spelled, _⟩ := some_
              rw [contents_counts kind] at lines
              obtain ⟨rfl, rfl⟩ := List.cons.inj lines
              exact ⟨_, _, header, spelled, rfl, rfl⟩

end KnowledgeCompiler.Nnf
