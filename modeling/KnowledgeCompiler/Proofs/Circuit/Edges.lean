import KnowledgeCompiler.Proofs.Circuit.Closure
import KnowledgeCompiler.Proofs.Circuit.Refreshing
import KnowledgeCompiler.Proofs.Circuit.Revision

/-! A new edge.

A node that gets one more child is refreshed together with everything above it. The new child does not lead
back to the node, since that is checked, so the circuit stays without cycles; and what is not above the node
has the sub-circuit that it had.
-/

namespace KnowledgeCompiler

open Relation

/-- Conjunctions and disjunctions hold no numbers. -/
theorem Gate.inRange_of_inner {gate : Gate} (inner : gate.kind = .and ∨ gate.kind = .or)
    : gate.InRange := by
  cases gate <;> simp [Gate.kind] at inner <;> trivial

namespace Circuit

variable {c d e : Circuit} {id source target : NodeId} {parent : Node} {gate new : Gate}

/-- A conjunction or disjunction with one more child. -/
def extendedBy (c : Circuit) (source target : NodeId) (parent : Node) : Circuit :=
  (c.replaceGate source (parent.gate.withChildren (parent.children ++ [target]))).linkParent source [target]

theorem children_withChildren (inner : gate.kind = .and ∨ gate.kind = .or) (children : List NodeId)
    : (gate.withChildren children).children = children := by
  cases gate <;> simp [Gate.kind] at inner <;> rfl

/-- The node gets another gate, and is a parent of the new child. -/
theorem Wired.rewires_extendedBy (wired : c.Wired) (found : c.node? source = some parent)
    (inner : parent.gate.kind = .and ∨ parent.gate.kind = .or)
    : c.Rewires (c.extendedBy source target parent) source parent.gate
        (parent.gate.withChildren (parent.children ++ [target])) where
  found := gate?_of_node? found
  size := (linkParent_frame ..).1.trans (replaceGate_frame ..).1
  kept {id here} before := by
    obtain ⟨middle, there, gate, summary, memo, parents⟩
        : ∃ middle, (c.replaceGate source (parent.gate.withChildren (parent.children ++ [target]))).node? id
            = some middle
          ∧ middle.gate = (if source = id then parent.gate.withChildren (parent.children ++ [target])
              else here.gate)
          ∧ middle.summary = here.summary ∧ middle.memo = here.memo ∧ middle.parents = here.parents := by
      rw [node?_replaceGate, before]
      split
      · exact ⟨_, rfl, rfl, rfl, rfl, rfl⟩
      · exact ⟨here, rfl, rfl, rfl, rfl, rfl⟩
    obtain ⟨other, there', gate', summary', memo', parents'⟩ :=
      @node?_linkParent _ id middle source [target] there
    refine ⟨other, there', gate'.trans gate, summary'.trans summary, memo'.trans memo, fun p => ?_⟩
    have own : source ∈ here.parents ↔ id ∈ parent.children := by
      rw [wired.linked before, Circuit.isChild_iff (gate?_of_node? found)]
      rfl
    rw [parents', parents, children_withChildren inner]
    by_cases same : p = source
    · subst same
      simp [own]
    · simp [same]
  table {key other} known := by
    refine find?_replaceGate found ?_
    rwa [extendedBy, (linkParent_frame ..).2.1] at known

theorem decision_withChildren (children : List NodeId) : (gate.withChildren children).decision = gate.decision := by
  cases gate <;> rfl

theorem inhabited_withChildren {children : List NodeId} (some_ : children ≠ [])
    : (gate.withChildren children).Inhabited := by
  cases gate <;> first | exact some_ | trivial

theorem kind_withChildren (children : List NodeId) : (gate.withChildren children).kind = gate.kind := by
  cases gate <;> rfl

/-- One more child keeps decisions on variables below, and leaves alone what is shown of the root. -/
theorem Wired.decided_extendedBy (wired : c.Wired) (found : c.node? source = some parent)
    (inner : parent.gate.kind = .and ∨ parent.gate.kind = .or) (decided : c.Decided)
    : (c.extendedBy source target parent).Decided := by
  have rewires := @Wired.rewires_extendedBy c source target parent wired found inner
  refine rewires.decided inner (by rwa [kind_withChildren]) (fun _ => inhabited_withChildren (by simp))
    (decision_withChildren _) (fun child member v below => ⟨child, ?_, below⟩) decided
  rw [children_withChildren inner]
  exact List.mem_append_left [target] member

theorem Rooted.extendedBy (rooted : c.Rooted) (rewires : c.Rewires (c.extendedBy source target parent) source gate new)
    : (c.extendedBy source target parent).Rooted := by
  have same := (sameRoot_replaceGate c source (parent.gate.withChildren (parent.children ++ [target]))).trans
    (sameRoot_linkParent _ source [target])
  refine same.rooted (fun found => ?_) rooted
  obtain ⟨other, there, _, summary, _⟩ := rewires.kept found
  exact ⟨other, there, summary⟩

/-- Only the changed node is another one, apart from its parents. -/
theorem Rewires.bare? (rewires : c.Rewires d target gate new) (differ : target ≠ id)
    : d.bare? id = c.bare? id := by
  cases found : c.node? id with
  | none =>
      have missing : d.node? id = none := by
        rw [← Option.not_isSome_iff_eq_none, node?_isSome, rewires.size, ← node?_isSome, found]
        simp
      rw [Circuit.bare?, Circuit.bare?, found, missing]
  | some here =>
      obtain ⟨other, there, gate, summary, _⟩ := rewires.kept found
      rw [if_neg differ] at gate
      exact bare?_eq_of_node? found there gate summary

/-- What is derived for a node stays right, if the changed node is neither the node nor a child. -/
theorem Rewires.derived (rewires : c.Rewires d target gate new) (derived : c.Derived id)
    (differ : target ≠ id) (others : ∀ child, c.IsChild child id → target ≠ child)
    : d.Derived id :=
  derived.congr (rewires.bare? differ) fun child link => rewires.bare? (others child link)

/-- So it is for all nodes but those above the changed one. -/
theorem Rewires.derived_outside {ids : SortedSet NodeId} (rewires : c.Rewires d target gate new)
    (upToDate : c.UpToDate) (inside : target ∈ ids)
    (above : ∀ child parent, d.IsChild child parent → child ∈ ids → parent ∈ ids) (outside : ¬ id ∈ ids)
    : d.Derived id := by
  have differ : target ≠ id := fun same => outside (same ▸ inside)
  refine rewires.derived (upToDate.derived id) differ fun child link same => outside ?_
  subst same
  refine above target id ?_ inside
  rwa [rewires.isChild_iff, if_neg differ]

/-- A refresh keeps decisions on variables below. -/
theorem Refreshed.decided {ids : SortedSet NodeId} (refreshed : d.Refreshed ids e) (wired : d.Wired)
    (decided : d.Decided)
    : e.Decided := by
  have gates := refreshed.wiring.gate?
  exact decided.renew (refreshed.upToDate wired) (fun found => decided.inhabited (gates _ ▸ found))
    (fun found decides => ⟨_, gates _ ▸ found, decides⟩)
    fun occurs => occurs.of_gates fun found => (gates _).trans found

/-- Another gate of a conjunction or disjunction is a revision, once all nodes above it are refreshed. -/
theorem Rewires.revises {ids : SortedSet NodeId} (rewires : c.Rewires d target gate new)
    (inner : gate.kind = .and ∨ gate.kind = .or) (wired : d.Wired) (refreshed : d.Refreshed ids e)
    (inside : target ∈ ids)
    (above : ∀ child parent, d.IsChild child parent → child ∈ ids → parent ∈ ids)
    (rooted : c.Rooted → e.Rooted) (decided : c.Decided → d.Decided)
    : c.Revises e where
  upToDate := refreshed.upToDate wired
  rooted := rooted
  decided known := refreshed.decided wired (decided known)
  inRange inRange {id here} found := by
    by_cases same : target = id
    · subst same
      obtain rfl := Option.some.inj (rewires.found.symm.trans found)
      exact Gate.inRange_of_inner inner
    · refine @inRange id here ?_
      rw [refreshed.wiring.gate?, rewires.other_gate? same, found]
  memos {id node} found := by
    by_cases member : id ∈ ids
    · exact .inl (refreshed.forgotten id member node found)
    · obtain ⟨old, there, _, _, memo, _⟩ := rewires.node? ((refreshed.kept id member) ▸ found)
      refine .inr ⟨old, there, memo, fun other below => ?_⟩
      -- going down from the node, one never meets a node above the changed one
      have outside : ¬ other ∈ ids := by
        induction below using ReflTransGen.head_induction_on with
        | refl => exact member
        | @head child parent link _ ih =>
            refine fun reached => ih (above child parent ?_ reached)
            rw [rewires.isChild_iff, if_neg fun same : target = parent => ih (same ▸ inside)]
            exact link
      calc
        e.bare? other
        _ = d.bare? other := by rw [Circuit.bare?, Circuit.bare?, refreshed.kept other outside]
        _ = c.bare? other := rewires.bare? fun same => outside (same ▸ inside)

-----------------------------------------------------------------------------------------
-- Edges that are added
-----------------------------------------------------------------------------------------

/-- An edge that closes no cycle keeps the circuit wired. -/
theorem wired_extendedBy (wired : c.Wired)
    (found : c.node? source = some parent) (inner : parent.gate.kind = .and ∨ parent.gate.kind = .or)
    (present : target < c.nodes.size) (fresh : ¬ target ∈ parent.children)
    (safe : ¬ source ∈ c.dominated target)
    : (c.extendedBy source target parent).Wired := by
  have children := children_withChildren inner (parent.children ++ [target])
  have before := gate?_of_node? found
  refine wired.rewire (wired.rewires_extendedBy found inner) ?_ ?_ ?_
  · intro child member
    rw [children, List.mem_append, List.mem_singleton] at member
    rcases member with old | rfl
    · exact wired.closed before child old
    · exact present
  · rw [children]
    refine List.Nodup.append (wired.nodup before) (List.nodup_singleton _) ?_
    simpa [List.disjoint_singleton] using fresh
  · intro child member below
    rw [children, List.mem_append, List.mem_singleton] at member
    rcases member with old | rfl
    · exact wired.acyclic.not_below ⟨_, before, old⟩ below
    · exact safe (wired.mem_dominated present below)

/-- A child of a conjunction or disjunction. -/
def IsOperand (c : Circuit) (child id : NodeId) : Prop :=
  ∃ gate, c.gate? id = some gate ∧ (gate.kind = .and ∨ gate.kind = .or) ∧ child ∈ gate.children

/-- In the second circuit a conjunction or disjunction of the first one has one more child, which does not lead back to
it, and the derived data of the node and of all nodes above it are new.
-/
structure Attaches (c d : Circuit) (source target : NodeId) (parent : Node) : Prop where
  found : c.node? source = some parent
  inner : parent.gate.kind = .and ∨ parent.gate.kind = .or
  present : target < c.nodes.size
  fresh : ¬ target ∈ parent.children
  safe : ¬ source ∈ c.dominated target
  refreshed
    : (c.extendedBy source target parent).Refreshed ((c.extendedBy source target parent).ancestors source) d
  rooted : (c.extendedBy source target parent).Rooted → d.Rooted

namespace Attaches

theorem rewires (attaches : c.Attaches d source target parent) (wired : c.Wired)
    : c.Rewires (c.extendedBy source target parent) source parent.gate
        (parent.gate.withChildren (parent.children ++ [target])) :=
  wired.rewires_extendedBy attaches.found attaches.inner

theorem wired (attaches : c.Attaches d source target parent) (wired : c.Wired)
    : (c.extendedBy source target parent).Wired :=
  wired_extendedBy wired attaches.found attaches.inner attaches.present attaches.fresh attaches.safe

/-- Adding an edge is a revision. -/
theorem revises (attaches : c.Attaches d source target parent) (upToDate : c.UpToDate) : c.Revises d := by
  have rewires := attaches.rewires upToDate.toWired
  have wired := attaches.wired upToDate.toWired
  obtain ⟨started, _, above⟩ := wired.ancestors_spec (rewires.size ▸ lt_of_node? attaches.found)
  exact rewires.revises attaches.inner wired attaches.refreshed started above
    (fun rooted => attaches.rooted (rooted.extendedBy rewires))
    (Wired.decided_extendedBy upToDate.toWired attaches.found attaches.inner)

end Attaches

end Circuit

namespace Build

open KnowledgeCompiler.Action
open Circuit

variable {c : Circuit}

theorem node_ensures (id : NodeId)
    : Ensures (node id) c (fun node d => c = d ∧ c.node? id = some node) (c = ·) := by
  refine .current ?_
  cases found : c.node? id with
  | some node => exact .pure ⟨rfl, rfl⟩
  | none => exact .fail rfl

/-- Refreshing upwards brings the data of all nodes up to date, if those of the others are. -/
theorem refreshUpwards_ensures {id : NodeId} (wired : c.Wired) (present : id < c.nodes.size)
    (others : ∀ other, ¬ other ∈ c.ancestors id → c.Derived other)
    : Ensures (refreshUpwards id) c (fun _ d => c.Refreshed (c.ancestors id) d) fun _ => False := by
  obtain ⟨_, inside, above⟩ := wired.ancestors_spec present
  exact .current (refreshAll_ensures wired inside others above)

/-- An edge is there already, or it is added, or the request is refused and nothing changes. -/
theorem addEdge_spec (upToDate : c.UpToDate) (source target : NodeId)
    : Ensures (addEdge source target) c
        (fun _ d => d = c ∧ c.IsOperand target source ∨ ∃ parent, c.Attaches d source target parent) (· = c) := by
  have reads (id : NodeId)
      : Ensures (node id) c (fun node d => c = d ∧ c.node? id = some node) (· = c) :=
    (node_ensures id).mono (fun _ _ read => read) fun _ same => same.symm
  have refused (cause : CircuitError) {post : Unit → Circuit → Prop} {next : Unit → Build Unit}
      : Ensures (Action.fail cause >>= next) c post (· = c) := by
    have stopped : Ensures (Action.fail cause : Build Unit) c (fun _ _ => False) (· = c) := .fail rfl
    exact stopped.bind fun _ _ none_ => none_.elim
  refine (reads source).bind fun parent d ⟨same, found⟩ => ?_
  subst same
  rw [discard_bind]
  refine (reads target).bind fun child d ⟨same, there⟩ => ?_
  subst same
  dsimp only
  split
  · exact refused _
  rename_i kind
  have inner : parent.gate.kind = .and ∨ parent.gate.kind = .or := by
    have : parent.kind = .and ∨ parent.kind = .or := by grind
    exact this
  split
  · rename_i old
    have member : target ∈ parent.gate.children := List.contains_iff_mem.mp old
    exact .pure (.inl ⟨rfl, _, gate?_of_node? found, inner, member⟩)
  rename_i fresh
  refine .current ?_
  split
  · exact refused _
  rename_i safe
  have safe : ¬ source ∈ c.dominated target := fun member => safe (SortedSet.contains_iff.mpr member)
  have present := lt_of_node? there
  have rewires := @Wired.rewires_extendedBy c source target parent upToDate.toWired found inner
  have wired := wired_extendedBy upToDate.toWired found inner present (by simpa using fresh) safe
  have size : source < (c.extendedBy source target parent).nodes.size := rewires.size ▸ lt_of_node? found
  obtain ⟨started, _, above⟩ := wired.ancestors_spec size
  refine .update ?_
  have others := fun id => @Rewires.derived_outside _ _ id _ _ _ _ rewires upToDate started above
  refine ((refreshUpwards_ensures wired size others).mono (fun _ _ done => done)
    fun _ none_ => none_.elim).bind fun _ d refreshed => ?_
  exact .updated (.inr ⟨parent, found, inner, present, by simpa using fresh, safe, refreshed.refreshRoot,
    refreshed.rooted⟩)

/-- Whether an edge is added or refused is a revision. -/
theorem addEdge_ensures (upToDate : c.UpToDate) (source target : NodeId)
    : Ensures (addEdge source target) c (fun _ d => c.Revises d) c.Revises := by
  have unchanged := Revises.refl upToDate
  refine (addEdge_spec upToDate source target).mono ?_ fun d same => same ▸ unchanged
  rintro - d (⟨rfl, -⟩ | ⟨parent, attaches⟩)
  · exact unchanged
  · exact attaches.revises upToDate

end Build

end KnowledgeCompiler
