import KnowledgeCompiler.Circuit.Smoothing
import KnowledgeCompiler.Proofs.Circuit.Wiring

/-! What a circuit shows of its root.

A circuit holds the language and the size of the sub-circuit of its root. Changes of nodes leave them alone,
so they are right as long as the summary of the root stays; after a refresh they are taken over again.
-/

namespace KnowledgeCompiler.Circuit

variable {c d : Circuit} {id : NodeId}

/-- The root is a node, and the circuit shows its language and its size. -/
structure Rooted (c : Circuit) : Prop where
  present : ∀ {id}, c.root = some id → id < c.nodes.size
  shown
    : ∀ {id node},
        c.root = some id
        → c.node? id = some node
        → c.language = some (.classify node.throughout) ∧ c.size = node.size

theorem Rooted.empty : Circuit.empty.Rooted where
  present chosen := by simp [Circuit.empty] at chosen
  shown chosen := by simp [Circuit.empty] at chosen

/-- Two circuits have the same root and show the same of it. -/
structure SameRoot (c d : Circuit) : Prop where
  root : d.root = c.root
  language : d.language = c.language
  size : d.size = c.size

namespace SameRoot

theorem refl (c : Circuit) : c.SameRoot c := ⟨rfl, rfl, rfl⟩

theorem trans {e : Circuit} (first : c.SameRoot d) (second : d.SameRoot e) : c.SameRoot e :=
  ⟨second.root.trans first.root, second.language.trans first.language, second.size.trans first.size⟩

/-- What is shown stays right as long as no summary changes. -/
theorem rooted (same : c.SameRoot d)
    (kept : ∀ {id node}, c.node? id = some node → ∃ other, d.node? id = some other ∧ other.summary = node.summary)
    (rooted : c.Rooted)
    : d.Rooted where
  present chosen := by
    obtain ⟨node, found⟩ := c.exists_node (rooted.present (same.root ▸ chosen))
    obtain ⟨other, there, _⟩ := kept found
    exact lt_of_node? there
  shown {id node} chosen there := by
    have before : c.root = some id := same.root ▸ chosen
    obtain ⟨old, found⟩ := c.exists_node (rooted.present before)
    obtain ⟨other, there', summary⟩ := kept found
    obtain rfl := Option.some.inj (there.symm.trans there')
    rw [same.language, same.size, Node.throughout, Node.size, summary]
    exact rooted.shown before found

end SameRoot

theorem root_refreshRoot (c : Circuit) : c.refreshRoot.root = c.root := by
  unfold refreshRoot
  split <;> rfl

/-- Taking over from the root. -/
theorem rooted_refreshRoot (present : ∀ {id}, c.root = some id → id < c.nodes.size) : c.refreshRoot.Rooted := by
  unfold refreshRoot
  split
  · rename_i none_
    have unset : c.root = none := by
      cases chosen : c.root with
      | none => rfl
      | some id =>
          obtain ⟨node, found⟩ := c.exists_node (present chosen)
          simp [rootNode?, chosen, found] at none_
    exact ⟨fun chosen => by simp [unset] at chosen, fun chosen => by simp [unset] at chosen⟩
  · rename_i node found
    refine ⟨present, fun {id other} chosen there => ?_⟩
    have here : c.node? id = some node := by simpa [rootNode?, show c.root = some id from chosen] using found
    obtain rfl := Option.some.inj (there.symm.trans here)
    exact ⟨rfl, rfl⟩

-----------------------------------------------------------------------------------------
-- Changes of nodes
-----------------------------------------------------------------------------------------

/-- Induction on the nodes. -/
theorem sameRoot_foldl_modifyNode (c : Circuit) (ids : List NodeId) (change : Node → Node)
    : c.SameRoot (ids.foldl (fun c id => c.modifyNode id change) c) := by
  induction ids generalizing c with
  | nil => exact .refl c
  | cons id rest ih => exact (show c.SameRoot (c.modifyNode id change) from ⟨rfl, rfl, rfl⟩).trans (ih _)

theorem sameRoot_linkParent (c : Circuit) (parent : NodeId) (children : List NodeId)
    : c.SameRoot (c.linkParent parent children) :=
  sameRoot_foldl_modifyNode ..

theorem sameRoot_unlinkParent (c : Circuit) (parent : NodeId) (children : List NodeId)
    : c.SameRoot (c.unlinkParent parent children) :=
  sameRoot_foldl_modifyNode ..

theorem sameRoot_register (c : Circuit) (key : Option Gate) (id : NodeId) : c.SameRoot (c.register key id) := by
  unfold register
  split
  · exact .refl c
  · split <;> exact ⟨rfl, rfl, rfl⟩

theorem sameRoot_unregister (c : Circuit) (key : Option Gate) (id : NodeId)
    : c.SameRoot (c.unregister key id) := by
  unfold unregister
  split
  · exact .refl c
  · split <;> exact ⟨rfl, rfl, rfl⟩

theorem sameRoot_append (c : Circuit) (gate : Gate) (summary : Summary)
    : c.SameRoot (c.append gate summary) := by
  have linked := sameRoot_linkParent c c.nodes.size gate.children
  let node : Node := { gate, parents := ∅, summary, memo := {} }
  let extended := c.linkParent c.nodes.size gate.children
  have pushed : c.SameRoot { extended with nodes := extended.nodes.push node } :=
    ⟨linked.root, linked.language, linked.size⟩
  exact pushed.trans (sameRoot_register _ gate.signature? c.nodes.size)

theorem sameRoot_replaceGate (c : Circuit) (id : NodeId) (gate : Gate) : c.SameRoot (c.replaceGate id gate) := by
  unfold replaceGate
  split
  · exact .refl c
  · rename_i node found
    have known := (sameRoot_unregister c node.gate.signature? id).trans (sameRoot_register _ gate.signature? id)
    exact ⟨known.root, known.language, known.size⟩

theorem sameRoot_redirect (c : Circuit) (id : NodeId) (node : Node) (ids : List NodeId)
    : c.SameRoot (c.redirect id node ids) :=
  (sameRoot_linkParent ..).trans ((sameRoot_unlinkParent ..).trans (sameRoot_replaceGate ..))

/-- Other children leave alone what is shown of the root. -/
theorem Rooted.redirect {node : Node} {ids : List NodeId} (rooted : c.Rooted)
    : (c.redirect id node ids).Rooted := by
  refine (sameRoot_redirect ..).rooted (fun {other here} found => ?_) rooted
  obtain ⟨after, there, _, summary, _⟩ := @node?_redirect c other id node here ids found
  exact ⟨after, there, summary⟩

end KnowledgeCompiler.Circuit
