import KnowledgeCompiler.Proofs.Circuit.Flags
import KnowledgeCompiler.Proofs.Circuit.Regular

/-! The signatures that the table knows, and the variables that nodes record.

Registering a signature under which a node is known already changes nothing, so the entries of the table stay when
a node is added, and the signature of the new node leads somewhere. When a node gets another gate, its entry goes,
and its new signature leads somewhere.
-/

namespace KnowledgeCompiler.Circuit

variable {c d : Circuit} {id other target : NodeId} {node : Node} {gate new key wanted : Gate} {v : Var}

-----------------------------------------------------------------------------------------
-- Entries that stay
-----------------------------------------------------------------------------------------

/-- The table leads from a signature to some node. -/
def Listed (c : Circuit) (key : Gate) : Prop := ∃ id, c.table.find? key = some id

/-- The table leads from the signature of every node but some to a node. -/
structure ListedBut (c : Circuit) (ids : List NodeId) : Prop where
  finds : ∀ {id gate key}, c.gate? id = some gate → ¬ id ∈ ids → gate.signature? = some key → c.Listed key

theorem find?_register_old {key : Option Gate} (known : c.table.find? wanted = some other)
    : (c.register key id).table.find? wanted = some other := by
  unfold register
  split
  · exact known
  · rename_i key
    split
    · exact known
    · rename_i free
      rw [SharingTable.find?_insert, if_neg, known]
      rintro rfl
      simp [known] at free

theorem find?_register_new (free : c.table.find? key = none)
    : (c.register (some key) id).table.find? key = some id := by
  simp [register, free, SharingTable.find?_insert]

theorem listed_register (c : Circuit) (key : Gate) (id : NodeId) : (c.register (some key) id).Listed key := by
  cases known : c.table.find? key with
  | none => exact ⟨id, find?_register_new known⟩
  | some other => exact ⟨other, find?_register_old known⟩

theorem find?_unregister_old {key : Option Gate} (known : c.table.find? wanted = some other)
    (apart : ¬ (key = some wanted ∧ other = id))
    : (c.unregister key id).table.find? wanted = some other := by
  unfold unregister
  split
  · exact known
  · rename_i key
    split
    · rename_i own
      rw [SharingTable.find?_erase, if_neg, known]
      rintro rfl
      exact apart ⟨rfl, Option.some.inj (known.symm.trans own)⟩
    · exact known

theorem find?_unregister_own (own : c.table.find? key = some id)
    : (c.unregister (some key) id).table.find? key = none := by
  simp [unregister, own, SharingTable.find?_erase]

-----------------------------------------------------------------------------------------
-- A new node
-----------------------------------------------------------------------------------------

section Append

variable {summary : Summary}

/-- Registering only looks at the table. -/
theorem table_append
    : (c.append gate summary).table = (c.register gate.signature? c.nodes.size).table := by
  have linked := (c.linkParent_frame c.nodes.size gate.children).2.1
  unfold append register
  dsimp only
  rw [linked]
  split
  · rfl
  · split <;> rfl

theorem find?_append_old (known : c.table.find? wanted = some other)
    : (c.append gate summary).table.find? wanted = some other := by
  rw [table_append]
  exact find?_register_old known

theorem find?_append_new (signed : gate.signature? = some key) (free : c.table.find? key = none)
    : (c.append gate summary).table.find? key = some c.nodes.size := by
  rw [table_append, signed]
  exact find?_register_new free

theorem listed_append (signed : gate.signature? = some key) : (c.append gate summary).Listed key := by
  cases known : c.table.find? key with
  | none => exact ⟨_, find?_append_new signed known⟩
  | some other => exact ⟨other, find?_append_old known⟩

theorem ListedBut.append {ids : List NodeId} (listed : c.ListedBut ids) : (c.append gate summary).ListedBut ids := by
  refine ⟨fun {id former key} found outside signed => ?_⟩
  rcases gate?_append found with old | ⟨-, rfl⟩
  · obtain ⟨other, known⟩ := listed.finds old outside signed
    exact ⟨other, find?_append_old known⟩
  · exact listed_append signed

end Append

theorem ListedBut.congr {ids : List NodeId} (listed : c.ListedBut ids) (same : c.SameWiring d) : d.ListedBut ids := by
  refine ⟨fun {id gate key} found outside signed => ?_⟩
  rw [Listed, same.table]
  exact listed.finds (same.gate? id ▸ found) outside signed

-----------------------------------------------------------------------------------------
-- Another gate
-----------------------------------------------------------------------------------------

/-- The entries of the second circuit are those of the first one after one node has got another gate: its entry is
gone, and its new signature is listed.
-/
structure Relists (c d : Circuit) (target : NodeId) (gate new : Gate) : Prop where
  kept
    : ∀ {key other},
        c.table.find? key = some other
        → ¬ (gate.signature? = some key ∧ other = target)
        → d.table.find? key = some other
  listed : ∀ {key}, new.signature? = some key → d.Listed key
  gone
    : ∀ {key},
        c.table.find? key = some target
        → gate.signature? = some key
        → new.signature? ≠ some key
        → d.table.find? key = none

theorem relists_replaceGate (found : c.node? target = some node) (new : Gate)
    : c.Relists (c.replaceGate target new) target node.gate new := by
  have table : (c.replaceGate target new).table
      = ((c.unregister node.gate.signature? target).register new.signature? target).table := by
    rw [replaceGate, found]
    rfl
  refine ⟨fun {key other} known apart => ?_, fun {key} signed => ?_, fun {key} own signed differ => ?_⟩
  · rw [table]
    exact find?_register_old (find?_unregister_old known apart)
  · rw [Listed, table, signed]
    exact listed_register _ _ _
  · cases found : (c.replaceGate target new).table.find? key with
    | none => rfl
    | some other =>
        rw [table] at found
        rcases find?_register found with old | ⟨same, -⟩
        · rw [signed, find?_unregister_own own] at old
          cases old
        · exact absurd same differ

/-- Only the tables matter. -/
theorem Relists.congr {c' d' : Circuit} (relists : c.Relists d target gate new) (before : c'.table = c.table)
    (after : d'.table = d.table)
    : c'.Relists d' target gate new where
  kept known apart := after ▸ relists.kept (before ▸ known) apart
  listed signed := by
    obtain ⟨id, known⟩ := relists.listed signed
    exact ⟨id, after ▸ known⟩
  gone known := after ▸ relists.gone (before ▸ known)

theorem relists_redirect (found : c.node? target = some node) (ids : List NodeId)
    : c.Relists (c.redirect target node ids) target node.gate (node.gate.withChildren ids) := by
  obtain ⟨linked, there, gate, _⟩ := @node?_linkParent c target node target ids found
  obtain ⟨last, there', gate', _⟩ := @node?_unlinkParent _ target linked target
    (node.children.filter (!ids.contains ·)) there
  have relists := relists_replaceGate there' (node.gate.withChildren ids)
  rw [gate', gate] at relists
  exact relists.congr ((foldl_modifyNode_frame ..).2.1.trans (c.linkParent_frame target ids).2.1).symm rfl

-----------------------------------------------------------------------------------------
-- Recorded variables
-----------------------------------------------------------------------------------------

/-- Every node records just the variables that its gate mentions. -/
structure RightVars (c : Circuit) : Prop where
  mem_varsOf : ∀ {id gate v}, c.gate? id = some gate → (v ∈ c.varsOf id ↔ c.Mentions v gate)

theorem UpToDate.rightVars (upToDate : c.UpToDate) : c.RightVars := ⟨fun found => upToDate.mem_varsOf found⟩

theorem RightVars.append {summary : Summary} (right : c.RightVars) (closed : c.Closed)
    (present : ∀ child ∈ gate.children, child < c.nodes.size) (done : c.summarize gate = .ok summary)
    : (c.append gate summary).RightVars := by
  have grown : c.Extends (c.append gate summary) := extends_append
  refine ⟨fun {id former v} found => ?_⟩
  rcases gate?_append found with old | ⟨rfl, rfl⟩
  · rw [grown.varsOf (lt_of_gate? old), grown.retains.mentions_iff (closed old)]
    exact right.mem_varsOf old
  · rw [varsOf_of_node? node?_append_new, Node.vars, grown.retains.mentions_iff present]
    exact mem_vars_of_summarize present done

end KnowledgeCompiler.Circuit
