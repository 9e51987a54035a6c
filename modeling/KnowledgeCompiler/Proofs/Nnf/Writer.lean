import KnowledgeCompiler.Proofs.Circuit.Decisions
import KnowledgeCompiler.Proofs.Nnf.Grammar
import KnowledgeCompiler.Proofs.Text.Layout

/-! What the writer writes is spelled as the grammar says.

Each gate of the format has an entry, and its line spells the entry, with its children named by their positions. The
first line announces as many nodes and edges as there are and the largest variable. The lines of a text are these lines
again, and none of them is blank or a comment.
-/

namespace KnowledgeCompiler.Nnf

open Text (IsWord)

variable {c : Circuit} {position : NodeId → Nat} {gate : Gate} {entry : Entry} {order : List NodeId}

-----------------------------------------------------------------------------------------
-- Entries of gates
-----------------------------------------------------------------------------------------

/-- The entry of a gate, with its children by position; nothing for gates that the format lacks. -/
def entryOf? (position : NodeId → Nat) : Gate → Option Entry
  | .constant true => some (.conjunction [])
  | .constant false => some (.disjunction 0 [])
  | .literal l => some (.literal l)
  | .and children => some (.conjunction (children.map position))
  | .or decision children => some (.disjunction (decision.getD 0) (children.map position))
  | .mapping .. | .twoCnf _ | .horn _ => none

theorem entryOf?_eq_none
    : entryOf? position gate = none ↔ gate.kind = .mapping ∨ gate.kind = .twoCnf ∨ gate.kind = .horn := by
  cases gate with
  | constant value => cases value <;> simp [entryOf?, Gate.kind]
  | literal l | and children | or decision children | mapping names child | twoCnf formula | horn formula =>
      simp [entryOf?, Gate.kind]

/-- The children of an entry are the positions of the children of the gate. -/
theorem children_of_entryOf? (same : entryOf? position gate = some entry)
    : entry.children = gate.children.map position := by
  cases gate with
  | constant value => cases value <;> (cases same; rfl)
  | literal l | and children | or decision children =>
      cases same
      rfl
  | mapping names child | twoCnf formula | horn formula => cases same

/-- The numbers of a gate can be read back. -/
structure Legible (position : NodeId → Nat) (gate : Gate) : Prop where
  range : gate.InRange
  few : gate.children.length ≤ Text.largestWord
  near : ∀ child ∈ gate.children, position child ≤ Text.largestWord
  decision : ∀ v, gate.decision = some v → v ≤ Text.largestHalf

theorem Legible.proper (legible : Legible position gate) (same : entryOf? position gate = some entry)
    : entry.Proper := by
  cases gate with
  | constant value => cases value <;> (cases same; trivial)
  | literal l =>
      cases same
      exact legible.range
  | and children | or decision children =>
      cases same
      trivial
  | mapping names child | twoCnf formula | horn formula => cases same

-----------------------------------------------------------------------------------------
-- Lines
-----------------------------------------------------------------------------------------

/-- A line is laid out from words. -/
structure Laid (words : List (List Char)) (text : String) : Prop where
  spaced : text.toList = [' '].intercalate words
  areWords : ∀ word ∈ words, IsWord word

theorem Laid.words {words : List (List Char)} {text : String} (laid : Laid words text)
    : Text.words text.toList = words := by
  rw [laid.spaced]
  exact Text.words_intercalate laid.areWords

/-- No line ends within a line. -/
theorem Laid.plain {words : List (List Char)} {text : String} (laid : Laid words text)
    : '\n' ∉ text.toList ∧ '\r' ∉ text.toList := by
  rw [laid.spaced]
  exact ⟨Text.not_mem_intercalate laid.areWords rfl (by decide),
    Text.not_mem_intercalate laid.areWords rfl (by decide)⟩

theorem laid_spaced {words : List String} (areWords : ∀ word ∈ words, IsWord word.toList)
    : Laid (words.map String.toList) (spaced words) :=
  ⟨toList_spaced words, List.forall_mem_map.mpr areWords⟩

/-- Numbers in words. -/
def numerals (ns : List Nat) : List String := ns.map toString

theorem areWords_numerals (ns : List Nat) : ∀ word ∈ numerals ns, IsWord word.toList := by
  intro word member
  obtain ⟨n, _, rfl⟩ := List.mem_map.mp member
  exact Text.isWord_natural n

theorem names_numerals {ns : List Nat} (small : ∀ n ∈ ns, n ≤ Text.largestWord)
    : Names ((numerals ns).map String.toList) ns := by
  rw [Names, numerals, List.map_map, List.forall₂_map_left_iff, List.forall₂_same]
  exact fun n member => Text.natural?_toString (small n member)

/-- The line of a gate spells the entry of the gate. -/
theorem line?_spelled (legible : Legible position gate) (same : entryOf? position gate = some entry)
    : ∃ text words, line? position gate = some text ∧ Laid words text ∧ entry.Spelled words := by
  have near : ∀ n ∈ gate.children.map position, n ≤ Text.largestWord := List.forall_mem_map.mpr legible.near
  have count : ∀ children : List NodeId, gate.children = children
      → Text.natural? Text.largestWord (toString children.length).toList
        = some ((numerals (children.map position)).map String.toList).length := by
    intro children listed
    rw [numerals, List.length_map, List.length_map, List.length_map]
    exact Text.natural?_toString (listed ▸ legible.few)
  have numeral : ∀ n : Nat, IsWord (toString n).toList := Text.isWord_natural
  cases gate with
  | constant value =>
      cases value with
      | true =>
          cases same
          exact ⟨"A 0", [['A'], ['0']], rfl, ⟨rfl, by decide⟩, .conjunction rfl .nil⟩
      | false =>
          cases same
          exact ⟨"O 0 0", [['O'], ['0'], ['0']], rfl, ⟨rfl, by decide⟩, .disjunction rfl rfl .nil⟩
  | literal l =>
      cases same
      have proper : l.Proper := legible.range
      have bounds : ∀ i : Int, i.natAbs < 2147483648 → -2147483648 ≤ i ∧ i ≤ 2147483647 := by omega
      obtain ⟨lower, upper⟩ := bounds l proper.2
      refine ⟨_, _, rfl, laid_spaced (List.forall_mem_cons.mpr ⟨by decide, by simpa using Text.isWord_integer l⟩), ?_⟩
      exact .literal (Text.integer?_toString lower upper) proper.1
  | and children =>
      cases same
      have laid := laid_spaced (List.forall_mem_cons.mpr ⟨show IsWord "A".toList by decide, List.forall_mem_cons.mpr
        ⟨numeral children.length, areWords_numerals (children.map position)⟩⟩)
      refine ⟨_, _, ?_, laid, .conjunction (count children rfl) (names_numerals near)⟩
      rw [line?, numerals, List.map_map]
      rfl
  | or decision children =>
      cases same
      have variable_ : decision.getD 0 ≤ Text.largestHalf := by
        cases decision with
        | none => exact Nat.zero_le _
        | some v => exact legible.decision v rfl
      have laid := laid_spaced (List.forall_mem_cons.mpr ⟨show IsWord "O".toList by decide, List.forall_mem_cons.mpr
        ⟨numeral (decision.getD 0), List.forall_mem_cons.mpr
          ⟨numeral children.length, areWords_numerals (children.map position)⟩⟩⟩)
      refine ⟨_, _, ?_, laid, .disjunction (Text.natural?_toString variable_) (count children rfl)
        (names_numerals near)⟩
      rw [line?, numerals, List.map_map]
      rfl
  | mapping names child | twoCnf formula | horn formula => cases same

theorem line?_eq_none : line? position gate = none ↔ entryOf? position gate = none := by
  cases gate with
  | constant value => cases value <;> simp [line?, entryOf?]
  | literal l | and children | or decision children | mapping names child | twoCnf formula | horn formula =>
      simp [line?, entryOf?]

/-- The entries of nodes in turn. -/
def Entered (c : Circuit) (position : NodeId → Nat) (order : List NodeId) (entries : List Entry) : Prop :=
  List.Forall₂ (fun id entry => ∃ gate, c.gate? id = some gate ∧ entryOf? position gate = some entry) order entries

/-- Nodes without an entry missing have entries; induction on the nodes. -/
theorem exists_entered (each : ∀ id ∈ order, ∃ gate entry, c.gate? id = some gate ∧ entryOf? position gate = some entry)
    : ∃ entries, Entered c position order entries := by
  induction order with
  | nil => exact ⟨[], .nil⟩
  | cons id rest ih =>
      obtain ⟨here, later⟩ := List.forall_mem_cons.mp each
      obtain ⟨gate, entry, found, same⟩ := here
      obtain ⟨entries, entered⟩ := ih later
      exact ⟨entry :: entries, .cons ⟨gate, found, same⟩ entered⟩

theorem lines_cons {id : NodeId} (found : c.gate? id = some gate)
    : lines c position (id :: order)
      = match line? position gate with
        | none => .error id
        | some text => (lines c position order).map (text :: ·) := by
  obtain ⟨node, there, rfl⟩ := Option.map_eq_some_iff.mp found
  rw [lines, there]
  rfl

/-- The lines of nodes spell their entries; induction on the nodes. -/
theorem lines_spelled {entries : List Entry} (entered : Entered c position order entries)
    (legible : ∀ id ∈ order, ∀ gate, c.gate? id = some gate → Legible position gate)
    : ∃ texts layout, lines c position order = .ok texts ∧ List.Forall₂ Laid layout texts
      ∧ List.Forall₂ Entry.Spelled layout entries := by
  induction entered with
  | nil => exact ⟨[], [], rfl, .nil, .nil⟩
  | @cons id entry rest entries here _ ih =>
      obtain ⟨first, later⟩ := List.forall_mem_cons.mp legible
      obtain ⟨gate, found, same⟩ := here
      obtain ⟨text, words, line, laid, spelled⟩ := line?_spelled (first gate found) same
      obtain ⟨texts, layout, written, allLaid, allSpelled⟩ := ih later
      refine ⟨text :: texts, words :: layout, ?_, .cons laid allLaid, .cons spelled allSpelled⟩
      rw [lines_cons found, line, written]
      rfl

/-- The format lacks the gate of a node. -/
def Lacks (c : Circuit) (position : NodeId → Nat) (id : NodeId) : Prop :=
  ∃ gate, c.gate? id = some gate ∧ entryOf? position gate = none

/-- If the format lacks the gate of a node, the lines end with an error at such a node; induction on the nodes. -/
theorem lines_fail (present : ∀ id ∈ order, id < c.nodes.size) (lacking : ∃ id ∈ order, Lacks c position id)
    : ∃ id ∈ order, Lacks c position id ∧ lines c position order = .error id := by
  induction order with
  | nil =>
      obtain ⟨id, member, _⟩ := lacking
      cases member
  | cons id rest ih =>
      obtain ⟨here, later⟩ := List.forall_mem_cons.mp present
      obtain ⟨node, there⟩ := c.exists_node here
      have found := Circuit.gate?_of_node? there
      cases line : line? position node.gate with
      | none =>
          refine ⟨id, List.mem_cons_self, ⟨node.gate, found, line?_eq_none.mp line⟩, ?_⟩
          rw [lines_cons found, line]
      | some text =>
          obtain ⟨other, member, gate, found', none_⟩ := lacking
          rcases List.mem_cons.mp member with rfl | inside
          · obtain rfl := Option.some.inj (found.symm.trans found')
            rw [line?_eq_none.mpr none_] at line
            cases line
          · obtain ⟨stopped, inside, lacks, failed⟩ := ih later ⟨other, inside, gate, found', none_⟩
            refine ⟨stopped, List.mem_cons_of_mem id inside, lacks, ?_⟩
            rw [lines_cons found, line, failed]
            rfl

/-- If the format lacks no gate of the nodes, they have lines; induction on the nodes. -/
theorem lines_succeed
    (each : ∀ id ∈ order, ∃ gate, c.gate? id = some gate ∧ entryOf? position gate ≠ none)
    : ∃ texts, lines c position order = .ok texts := by
  induction order with
  | nil => exact ⟨[], rfl⟩
  | cons id rest ih =>
      obtain ⟨⟨gate, found, some_⟩, later⟩ := List.forall_mem_cons.mp each
      obtain ⟨texts, written⟩ := ih later
      obtain ⟨text, line⟩ := Option.ne_none_iff_exists'.mp (mt line?_eq_none.mp some_)
      exact ⟨text :: texts, by rw [lines_cons found, line, written]; rfl⟩

-----------------------------------------------------------------------------------------
-- The header
-----------------------------------------------------------------------------------------

/-- What the header of nodes announces. -/
def announcement (c : Circuit) (order : List NodeId) : Header where
  nodes := order.length
  edges := (c.nodesOf order).foldl (fun count node => count + node.children.length) 0
  vars := ((c.nodesOf order).flatMap fun node => node.vars.toList).foldl max 0

theorem header_spelled (nodes : (announcement c order).nodes ≤ Text.largestWord)
    (edges : (announcement c order).edges ≤ Text.largestWord) (vars : (announcement c order).vars ≤ Text.largestHalf)
    : ∃ words, Laid words (header c order) ∧ (announcement c order).Spelled words := by
  have laid := laid_spaced (List.forall_mem_cons.mpr ⟨show IsWord "nnf".toList by decide, areWords_numerals
    [(announcement c order).nodes, (announcement c order).edges, (announcement c order).vars]⟩)
  exact ⟨_, laid, .announced (Text.natural?_toString nodes) (Text.natural?_toString edges)
    (Text.natural?_toString vars)⟩

-----------------------------------------------------------------------------------------
-- Texts
-----------------------------------------------------------------------------------------

theorem Entry.Spelled.not_ignored {words : List (List Char)} (spelled : entry.Spelled words)
    : ignored words = false := by
  cases spelled with
  | literal value nonzero | conjunction counted named | disjunction variable_ counted named => rfl

theorem Header.Spelled.not_ignored {words : List (List Char)} {header : Header} (spelled : header.Spelled words)
    : ignored words = false := by
  cases spelled with
  | announced _ _ _ => rfl

/-- The lines of a text that is made of lines. -/
theorem splitLines_join {layout : List (List (List Char))} {texts : List String}
    (laid : List.Forall₂ Laid layout texts)
    : splitLines '\n' '\r' [] (String.join (texts.map (· ++ "\n"))).toList = texts.map String.toList := by
  have plain : ∀ line ∈ texts.map String.toList, '\n' ∉ line ∧ '\r' ∉ line := by
    induction laid with
    | nil => exact List.forall_mem_nil _
    | cons here _ ih => exact List.forall_mem_cons.mpr ⟨here.plain, ih⟩
  have joined : (String.join (texts.map (· ++ "\n"))).toList = (texts.map String.toList).flatMap (· ++ ['\n']) := by
    rw [String.toList_join, List.flatMap_map, List.flatMap_map]
    exact List.flatMap_congr fun text _ => String.toList_append
  rw [joined, splitLines_flatMap plain]

/-- The words of lines that are laid out from words, none of them ignored. -/
theorem contents_of_laid {layout : List (List (List Char))} {texts : List String}
    (laid : List.Forall₂ Laid layout texts) (counted : ∀ words ∈ layout, ignored words = false)
    : contents (texts.map String.toList) = layout := by
  have words : (texts.map String.toList).map Text.words = layout := by
    rw [List.map_map]
    induction laid with
    | nil => rfl
    | cons here _ ih =>
        rw [List.map_cons, ih (List.forall_mem_cons.mp counted).2]
        exact congrArg (· :: _) here.words
  rw [contents, words, List.filter_eq_self]
  intro words member
  rw [counted words member]
  rfl

end KnowledgeCompiler.Nnf
