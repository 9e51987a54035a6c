import KnowledgeCompiler.Proofs.Circuit.Evaluation

/-! Circuits that are made of gates in turn.

While a text is read, nodes are not shared, so each gate becomes the node with the next number. What is made of a
list of gates depends on nothing else, its nodes have just these gates, and its derived data fit.
-/

namespace KnowledgeCompiler.Circuit

variable {c d : Circuit} {gates : List Gate} {gate : Gate} {id : NodeId}

/-- The circuit is made of the gates, first one first, without sharing. -/
inductive Transcribes : List Gate → Circuit → Prop where
  | empty : Transcribes [] { Circuit.empty with sharing := false }
  | append {gates : List Gate} {c : Circuit} {gate : Gate} {summary : Summary} (before : Transcribes gates c)
      (present : ∀ child ∈ gate.children, child < gates.length) (nodup : gate.children.Nodup)
      (done : c.summarize gate = .ok summary)
      : Transcribes (gates ++ [gate]) (c.append gate summary)

namespace Transcribes

/-- One list of gates makes one circuit; induction on the making. -/
theorem unique (transcribes : Transcribes gates c) (other : Transcribes gates d) : c = d := by
  induction transcribes generalizing d with
  | empty =>
      generalize same : ([] : List Gate) = gates at other
      cases other with
      | empty => rfl
      | append before _ _ _ => simp at same
  | @append gates c gate summary _ _ _ done ih =>
      generalize same : gates ++ [gate] = whole at other
      cases other with
      | empty => simp at same
      | @append gates' e gate' summary' before _ _ done' =>
          obtain ⟨rfl, rfl⟩ := List.append_inj' same rfl |>.imp_right List.singleton_inj.mp
          obtain rfl := ih before
          rw [Except.ok.inj (done.symm.trans done')]

theorem size (transcribes : Transcribes gates c) : c.nodes.size = gates.length := by
  induction transcribes with
  | empty => rfl
  | append _ _ _ _ ih => rw [size_append, ih, List.length_append, List.length_singleton]

theorem unshared (transcribes : Transcribes gates c) : c.sharing = false := by
  induction transcribes with
  | empty => rfl
  | append _ _ _ _ ih => rw [sharing_append, ih]

theorem gate? (transcribes : Transcribes gates c) (id : NodeId) : c.gate? id = gates[id]? := by
  induction transcribes with
  | empty => rfl
  | @append gates c gate summary before _ _ _ ih =>
      have size := before.size
      rcases Nat.lt_trichotomy id gates.length with old | same | beyond
      · have grown : c.Extends (c.append gate summary) := extends_append
        rw [grown.gate?_eq (by rwa [size]), ih, List.getElem?_append_left old]
      · subst same
        rw [← size, gate?_of_node? node?_append_new, size, List.getElem?_concat_length]
      · rw [gate?_eq_none.mpr, List.getElem?_eq_none]
        · rw [List.length_append, List.length_singleton]
          exact beyond
        · rw [size_append, size]
          exact beyond

/-- All parts of the circuit fit; induction on the making. -/
theorem upToDate (transcribes : Transcribes gates c) : c.UpToDate := by
  induction transcribes with
  | empty => exact .of_nodes .empty rfl rfl
  | append before present nodup done ih => exact ih.append (by rwa [before.size]) nodup done

theorem inRange (transcribes : Transcribes gates c) (ranges : ∀ gate ∈ gates, gate.InRange) : c.InRange := by
  intro id gate found
  rw [transcribes.gate?] at found
  exact ranges gate (List.mem_of_getElem? found)

/-- A further gate in range can be summarized. -/
theorem summarize (transcribes : Transcribes gates c) (ranges : ∀ gate ∈ gates, gate.InRange)
    (range : gate.InRange) (present : ∀ child ∈ gate.children, child < gates.length)
    : ∃ summary, c.summarize gate = .ok summary := by
  have inRange : c.InRange := transcribes.inRange ranges
  obtain ⟨summary, done, _⟩ := summarize_evaluates range (transcribes.size ▸ present) fun _ _ _ inside =>
    (transcribes.upToDate.conjunct_sound inRange inside).1
  exact ⟨summary, done⟩

end Transcribes

end KnowledgeCompiler.Circuit
