import KnowledgeCompiler.Circuit.Copy
import KnowledgeCompiler.Proofs.Action
import KnowledgeCompiler.Proofs.Circuit.Covering
import KnowledgeCompiler.Proofs.Circuit.Decisions
import KnowledgeCompiler.Proofs.Circuit.Derivation
import KnowledgeCompiler.Proofs.Circuit.Root
import KnowledgeCompiler.Proofs.Circuit.Signatures

/-! Growth of any circuit.

Nothing is asked of a circuit here but that it is wired: gates need not fit the nodes below them, and a
request may fail. All requests that make nodes only add them at the end, so the nodes that exist keep their
gates, their derived data and their remembered answers, also if the request fails halfway.
-/

namespace KnowledgeCompiler

namespace Circuit

variable {c d e : Circuit} {id : NodeId} {gate : Gate}

-----------------------------------------------------------------------------------------
-- Larger circuits
-----------------------------------------------------------------------------------------

/-- The nodes of the first circuit are in the second one, and nothing about them but their parents has changed. -/
structure Undisturbed (c d : Circuit) : Prop where
  kept
    : ∀ {id old},
        c.node? id = some old
        → ∃ node, d.node? id = some node ∧ node.gate = old.gate ∧ node.summary = old.summary ∧ node.memo = old.memo

theorem Undisturbed.refl (c : Circuit) : c.Undisturbed c := ⟨fun {_ old} found => ⟨old, found, rfl, rfl, rfl⟩⟩

theorem Undisturbed.trans (first : c.Undisturbed d) (second : d.Undisturbed e) : c.Undisturbed e := by
  refine ⟨fun {id old} found => ?_⟩
  obtain ⟨middle, there, gate, summary, memo⟩ := first.kept found
  obtain ⟨last, there', gate', summary', memo'⟩ := second.kept there
  exact ⟨last, there', gate'.trans gate, summary'.trans summary, memo'.trans memo⟩

/-- The second circuit is the first one with nodes added at the end, which remember nothing. -/
structure Enlarges (c d : Circuit) : Prop where
  extends_ : c.Extends d
  wired : d.Wired
  derived : (∀ id, c.Derived id) → ∀ id, d.Derived id
  rooted : c.Rooted → d.Rooted
  decided : c.Decided → d.Decided
  covered : c.Covered → d.Covered
  memos
    : ∀ {id node},
        d.node? id = some node
        → (∃ old, c.node? id = some old ∧ node.memo = old.memo) ∨ node.memo = {}
  undisturbed : c.Undisturbed d
  entries : ∀ {key id}, c.table.find? key = some id → d.table.find? key = some id
  listed : ∀ {ids}, c.ListedBut ids → d.ListedBut ids
  rightVars : c.RightVars → d.RightVars

theorem Enlarges.refl (wired : c.Wired) : c.Enlarges c where
  extends_ := .refl c
  wired := wired
  derived known := known
  rooted known := known
  decided known := known
  covered known := known
  memos {_ node} found := .inl ⟨node, found, rfl⟩
  undisturbed := .refl c
  entries known := known
  listed known := known
  rightVars known := known

theorem Enlarges.trans (first : c.Enlarges d) (second : d.Enlarges e) : c.Enlarges e where
  extends_ := first.extends_.trans second.extends_
  wired := second.wired
  derived known := second.derived (first.derived known)
  rooted known := second.rooted (first.rooted known)
  decided known := second.decided (first.decided known)
  covered known := second.covered (first.covered known)
  memos found := by
    rcases second.memos found with ⟨middle, there, same⟩ | none_
    · rw [same]
      exact first.memos there
    · exact .inr none_
  undisturbed := first.undisturbed.trans second.undisturbed
  entries known := second.entries (first.entries known)
  listed known := second.listed (first.listed known)
  rightVars known := second.rightVars (first.rightVars known)

theorem Enlarges.upToDate (larger : c.Enlarges d) (upToDate : c.UpToDate) : d.UpToDate :=
  ⟨larger.wired, larger.derived upToDate.derived⟩

/-- A circuit with the same nodes and the same table, which shows the right things of its root. -/
theorem Wired.enlarges_of_nodes (wired : c.Wired) (nodes : d.nodes = c.nodes) (table : d.table = c.table)
    (rooted : c.Rooted → d.Rooted)
    : c.Enlarges d where
  extends_ := ⟨fun {id node} found => ⟨node, (node?_of_nodes nodes id).trans found, rfl, rfl⟩⟩
  wired := wired.congr (sameWiring_of_nodes nodes table)
  derived known id := (known id).of_nodes nodes
  rooted := rooted
  decided known := Decided.of_nodes known nodes
  covered known := Covered.of_bare known fun id => congrArg (Option.map Node.bare) (node?_of_nodes nodes id)
  memos {id node} found := .inl ⟨node, (node?_of_nodes nodes id).symm.trans found, rfl⟩
  undisturbed := ⟨fun {id old} found => ⟨old, (node?_of_nodes nodes id).trans found, rfl, rfl, rfl⟩⟩
  entries known := table ▸ known
  listed known := known.congr (sameWiring_of_nodes nodes table)
  rightVars known := by
    have vars (id : NodeId) : d.varsOf id = c.varsOf id := by rw [varsOf, varsOf, node?_of_nodes nodes]
    refine ⟨fun {id gate v} found => ?_⟩
    rw [vars, mentions_congr fun child _ => vars child]
    exact known.mem_varsOf ((sameWiring_of_nodes nodes table).gate? id ▸ found)

/-- A new node with what is derived for its gate. -/
theorem Wired.enlarges_append {summary : Summary} (wired : c.Wired)
    (present : ∀ child ∈ gate.children, child < c.nodes.size) (nodup : gate.children.Nodup)
    (decides : c.Decides gate) (covers : c.Covers gate) (done : c.summarize gate = .ok summary)
    : c.Enlarges (c.append gate summary) where
  extends_ := extends_append
  wired := wired.append present nodup
  derived known := (UpToDate.append ⟨wired, known⟩ present nodup done).derived
  rooted := (sameRoot_append c gate summary).rooted fun found => by
    obtain ⟨other, there, _, same, _⟩ := node?_append_old found
    exact ⟨other, there, same⟩
  decided known := Decided.append known present decides done
  covered known := Covered.append known wired.closed present covers
  memos found := by
    rcases node?_append found with ⟨old, before, _, _, memo, _⟩ | ⟨_, rfl⟩
    · exact .inl ⟨old, before, memo⟩
    · exact .inr rfl
  undisturbed := by
    refine ⟨fun {id old} found => ?_⟩
    obtain ⟨other, there, same, summary', memo, _⟩ := node?_append_old found
    exact ⟨other, there, same, summary', memo⟩
  entries known := find?_append_old known
  listed known := known.append
  rightVars known := known.append wired.closed present done

end Circuit

/-- A node that is shared for a gate has the same signature. -/
theorem Circuit.Wired.gate?_of_shared {c : Circuit} {gate : Gate} {id : NodeId} (wired : c.Wired)
    (shared : c.shared? gate = some id)
    : ∃ other, c.gate? id = some other ∧ other.signature? = gate.signature? := by
  rw [Circuit.shared?] at shared
  split at shared
  · obtain ⟨key, signed, found⟩ := Option.bind_eq_some_iff.mp shared
    obtain ⟨other, there, same⟩ := wired.table found
    exact ⟨other, there, same.trans signed.symm⟩
  · cases shared

/-- A gate that can be shared for a literal is the literal. -/
theorem Gate.eq_literal_of_signature? {gate : Gate} {l : Lit}
    (signed : gate.signature? = (Gate.literal l).signature?)
    : gate = .literal l := by
  cases gate <;> simp_all [Gate.signature?]

/-- A gate that can be shared for a disjunction is a disjunction of the same nodes. -/
theorem Gate.eq_or_of_signature? {gate : Gate} {decision : Option Var} {children : List NodeId}
    (signed : gate.signature? = (Gate.or decision children).signature?)
    : ∃ others, gate = .or decision others ∧ ∀ child, child ∈ others ↔ child ∈ children := by
  cases gate with
  | or other others =>
      simp only [Gate.signature?, Option.some.injEq, Gate.or.injEq] at signed
      obtain ⟨rfl, same⟩ := signed
      refine ⟨others, rfl, fun child => ?_⟩
      rw [← mem_sortBy, same, mem_sortBy]
  | _ => simp [Gate.signature?] at signed

/-- A gate that can be shared for a conjunction is a conjunction of the same nodes. -/
theorem Gate.eq_and_of_signature? {gate : Gate} {children : List NodeId}
    (signed : gate.signature? = (Gate.and children).signature?)
    : ∃ others, gate = .and others ∧ ∀ child, child ∈ others ↔ child ∈ children := by
  cases gate with
  | and others =>
      simp only [Gate.signature?, Option.some.injEq, Gate.and.injEq] at signed
      refine ⟨others, rfl, fun child => ?_⟩
      rw [← mem_sortBy, signed, mem_sortBy]
  | _ => simp [Gate.signature?] at signed

namespace Build

open KnowledgeCompiler.Action

variable {c d : Circuit} {id : NodeId} {gate : Gate} {α β : Type}

-----------------------------------------------------------------------------------------
-- Actions that enlarge a circuit
-----------------------------------------------------------------------------------------

/-- From a wired circuit the action leads to a larger one, whether it succeeds or fails. -/
structure Grows (c : Circuit) (action : Build α) (post : α → Circuit → Prop) : Prop where
  ensures : c.Wired → Ensures action c (fun a d => c.Enlarges d ∧ post a d) c.Enlarges

namespace Grows

variable {action : Build α} {next : α → Build β} {post weaker : α → Circuit → Prop}
variable {result : β → Circuit → Prop}

theorem mono (grows : Grows c action post) (weaken : ∀ a d, c.Enlarges d → post a d → weaker a d)
    : Grows c action weaker where
  ensures wired := (grows.ensures wired).mono (fun a d done => ⟨done.1, weaken a d done.1 done.2⟩)
    fun _ stopped => stopped

theorem enlarges (grows : Grows c action post) (wired : c.Wired)
    : Ensures action c (fun _ d => c.Enlarges d) c.Enlarges :=
  (grows.ensures wired).mono (fun _ _ done => done.1) fun _ stopped => stopped

theorem pure {a : α} (holds : post a c) : Grows c (Pure.pure a) post :=
  ⟨fun wired => Ensures.pure ⟨.refl wired, holds⟩⟩

theorem fail {cause : CircuitError} : Grows c (Action.fail cause) post :=
  ⟨fun wired => Ensures.fail (.refl wired)⟩

theorem fault {cause : Fault} : Grows c (throw (.fault cause)) post := ⟨fun _ => Ensures.fault⟩

theorem bind (first : Grows c action post)
    (second : ∀ a d, c.Enlarges d → post a d → Grows d (next a) result)
    : Grows c (action >>= next) result where
  ensures wired := (first.ensures wired).bind fun a d done =>
    ((second a d done.1 done.2).ensures done.1.wired).mono
      (fun _ _ last => ⟨done.1.trans last.1, last.2⟩) fun _ stopped => done.1.trans stopped

theorem current {next : Circuit → Build β} (then_ : Grows c (next c) result)
    : Grows c (Action.current >>= next) result := ⟨fun wired => Ensures.current (then_.ensures wired)⟩

theorem checked {value : Checked α} (then_ : ∀ a, value = .ok a → Grows c (next a) result)
    : Grows c ((liftM value : Build α) >>= next) result :=
  ⟨fun wired => Ensures.checked fun a ok => (then_ a ok).ensures wired⟩

theorem note {event : Event} : Grows c (Action.note event) fun _ _ => True :=
  ⟨fun wired _ => ⟨.refl wired, trivial⟩⟩

/-- Nothing happens after an error. -/
theorem failed {cause : CircuitError} : Grows c (Action.fail cause >>= next) result :=
  @bind _ _ _ _ _ (fun _ _ => False) _ fail fun _ _ _ impossible => impossible.elim

/-- A change that leaves the nodes and the table as they are. -/
theorem updated {change : Circuit → Circuit} (nodes : (change c).nodes = c.nodes)
    (table : (change c).table = c.table) (rooted : c.Rooted → (change c).Rooted)
    : Grows c (Action.update change) fun _ _ => True :=
  ⟨fun wired => Ensures.updated ⟨wired.enlarges_of_nodes nodes table rooted, trivial⟩⟩

end Grows

-----------------------------------------------------------------------------------------
-- Nodes
-----------------------------------------------------------------------------------------

theorem node_grows (id : NodeId) : Grows c (node id) fun node d => d.node? id = some node := by
  refine .current ?_
  cases found : c.node? id with
  | some node => exact .pure found
  | none => exact .fail

/-- A node of a gate, shared or new. -/
theorem insert_grows (present : ∀ child ∈ gate.children, child < c.nodes.size)
    (nodup : gate.children.Nodup) (decides : c.Decides gate) (covers : c.Covers gate)
    : Grows c (insert gate) fun id d =>
        ∃ other, d.gate? id = some other ∧ other.signature? = gate.signature? := by
  refine ⟨fun wired => Ensures.current ?_⟩
  cases shared : c.shared? gate with
  | some id => exact Ensures.pure ⟨.refl wired, wired.gate?_of_shared shared⟩
  | none =>
      refine Ensures.note (Ensures.checked fun summary done => Ensures.update (Ensures.pure ?_))
      exact ⟨wired.enlarges_append present nodup decides covers done, gate,
        Circuit.gate?_of_node? Circuit.node?_append_new, rfl⟩

/-- A node of a gate is there afterwards. -/
theorem insert_present (present : ∀ child ∈ gate.children, child < c.nodes.size)
    (nodup : gate.children.Nodup) (decides : c.Decides gate) (covers : c.Covers gate)
    : Grows c (insert gate) fun id d => id < d.nodes.size :=
  (insert_grows present nodup decides covers).mono fun _ _ _ ⟨_, there, _⟩ => Circuit.lt_of_gate? there

theorem existing_grows (children : List NodeId)
    : Grows c (existing children) fun ids d => (∀ id ∈ ids, id < d.nodes.size) ∧ ids.Nodup := by
  refine .current ?_
  split
  · exact .fail
  · rename_i none_
    refine .pure ⟨fun id member => ?_, (SortedSet.ofList children).nodup⟩
    have there := List.find?_eq_none.mp none_ id member
    exact Circuit.node?_isSome.mp (by simpa [Option.isSome_iff_ne_none] using there)

theorem constant_grows (value : Bool) : Grows c (constant value) fun id d => id < d.nodes.size :=
  insert_present (by simp [Gate.children]) (by simp [Gate.children]) (Circuit.decides_of_none (by trivial) rfl) trivial

/-- The node of a literal. -/
theorem literal_grows (l : Lit) : Grows c (literal l) fun id d => d.gate? id = some (.literal l) := by
  unfold literal
  split
  · exact .fault
  · refine (insert_grows (by simp [Gate.children]) (by simp [Gate.children])
      (Circuit.decides_of_none (by trivial) rfl) (by trivial)).mono ?_
    rintro id d - ⟨other, there, signed⟩
    rwa [Gate.eq_literal_of_signature? signed] at there

theorem conjunction_grows (children : List NodeId)
    : Grows c (conjunction children) fun id d => id < d.nodes.size := by
  refine (existing_grows children).bind fun ids d _ ⟨present, nodup⟩ => ?_
  cases ids with
  | nil => exact constant_grows true
  | cons first rest =>
      exact insert_present present nodup (Circuit.decides_of_none (by simp [Gate.Inhabited]) rfl) trivial

theorem disjunction_grows (children : List NodeId) (decision : Option Var)
    : Grows c (disjunction children decision) fun id d => id < d.nodes.size := by
  refine (existing_grows children).bind fun ids d _ ⟨present, nodup⟩ => ?_
  cases ids with
  | nil => exact constant_grows false
  | cons first rest =>
      refine .current ?_
      split
      · exact .fail
      · rename_i checked
        exact insert_present present nodup ⟨List.cons_ne_nil _ _, Circuit.filter_eq_none_iff.mp checked⟩ trivial

theorem decision_grows (v : Var) (high low : NodeId)
    : Grows c (decision v high low) fun id d => id < d.nodes.size := by
  refine (literal_grows _).bind fun positive c₁ _ _ => .checked fun l _ => ?_
  refine (literal_grows l).bind fun negative c₂ _ _ => ?_
  refine (conjunction_grows _).bind fun whenTrue c₃ _ _ => ?_
  refine (conjunction_grows _).bind fun whenFalse c₄ _ _ => ?_
  exact disjunction_grows _ _

theorem mapping_grows (child : NodeId) (names : Bijection)
    : Grows c (mapping child names) fun id d => id < d.nodes.size := by
  refine (node_grows child).bind fun node d _ found => ?_
  have present := Circuit.lt_of_node? found
  dsimp only
  split
  · exact .fail
  · rename_i none_
    split
    · exact .pure present
    · have covers : d.Covers (.mapping names child) := by
        intro v inside
        rw [Circuit.varsOf_of_node? found] at inside
        simpa [Option.isSome_iff_ne_none] using List.find?_eq_none.mp none_ v inside
      exact insert_present (by simpa [Gate.children] using present) (by simp [Gate.children])
        (Circuit.decides_of_none (by trivial) rfl) covers

/-- A formula leaf, or the constant true instead of it. -/
theorem leaf_grows {empty : Bool} (childless : gate.children = []) (inhabited : gate.Inhabited)
    (undecided : gate.decision = none)
    : Grows c (if empty then constant true else insert gate) fun id d => id < d.nodes.size := by
  split
  · exact constant_grows true
  · exact insert_present (by simp [childless]) (by simp [childless]) (Circuit.decides_of_none inhabited undecided)
      (Circuit.covers_of_childless childless)

theorem twoCnf_grows (formula : TwoCnf) : Grows c (twoCnf formula) fun id d => id < d.nodes.size :=
  leaf_grows rfl trivial rfl

theorem horn_grows (formula : Horn) : Grows c (horn formula) fun id d => id < d.nodes.size :=
  leaf_grows rfl trivial rfl

theorem setSharing_grows (on : Bool) : Grows c (setSharing on) fun _ _ => True :=
  .updated rfl rfl fun rooted => ⟨rooted.present, rooted.shown⟩

theorem setRoot_grows (id : NodeId) : Grows c (setRoot id) fun _ _ => True := by
  rw [setRoot, discard_bind]
  refine (node_grows id).bind fun _ d _ found => ?_
  obtain ⟨nodes, table, _⟩ := Circuit.refreshRoot_frame { d with root := some id }
  refine .updated nodes table fun _ => Circuit.rooted_refreshRoot fun chosen => ?_
  obtain rfl := Option.some.inj chosen
  exact Circuit.lt_of_node? found

-----------------------------------------------------------------------------------------
-- Tautologies
-----------------------------------------------------------------------------------------

end Build

/-- A node is a disjunction of literals of one variable. -/
def Circuit.Balanced (c : Circuit) (id : NodeId) : Prop :=
  ∃ v decision children, c.gate? id = some (.or decision children)
    ∧ ∀ child ∈ children, ∃ l : Lit, l.var = v ∧ c.gate? child = some (.literal l)

theorem Circuit.Balanced.grow {c d : Circuit} {id : NodeId} (balanced : c.Balanced id)
    (grown : c.Extends d)
    : d.Balanced id := by
  obtain ⟨v, decision, children, found, literals⟩ := balanced
  refine ⟨v, decision, children, grown.gate? found, fun child member => ?_⟩
  obtain ⟨l, var, there⟩ := literals child member
  exact ⟨l, var, grown.gate? there⟩

theorem Circuit.Balanced.lt {c : Circuit} {id : NodeId} (balanced : c.Balanced id) : id < c.nodes.size := by
  obtain ⟨v, decision, children, found, _⟩ := balanced
  exact Circuit.lt_of_gate? found

namespace Build

open KnowledgeCompiler.Action

variable {c d : Circuit} {known : Gadgets}

/-- The tautologies made so far are disjunctions of literals. -/
def AllBalanced (c : Circuit) (known : Gadgets) : Prop := ∀ entry ∈ known, c.Balanced entry.2

theorem AllBalanced.grow (balanced : AllBalanced c known) (grown : c.Extends d) : AllBalanced d known :=
  fun entry member => (balanced entry member).grow grown

theorem gadget_grows (v : Var) (balanced : AllBalanced c known)
    : Grows c (gadget v known) fun result d => d.Balanced result.1 ∧ AllBalanced d result.2 := by
  unfold gadget
  split
  · rename_i id seen
    obtain ⟨before, after, rfl, -⟩ := List.lookup_eq_some_iff.mp seen
    exact .pure ⟨balanced (v, id) (by simp), balanced⟩
  · refine (literal_grows _).bind fun positive c₁ grown₁ first => .checked fun l negated => ?_
    refine (literal_grows l).bind fun negative c₂ grown₂ second => ?_
    have first := grown₂.extends_.gate? first
    have present : ∀ child ∈ (Gate.or none (SortedSet.ofList [positive, negative]).toList).children,
        child < c₂.nodes.size := by
      simp [Gate.children, Circuit.lt_of_gate? first, Circuit.lt_of_gate? second]
    have some_ : (SortedSet.ofList [positive, negative]).toList ≠ [] :=
      List.ne_nil_of_mem (SortedSet.mem_ofList.mpr List.mem_cons_self)
    refine (insert_grows present (SortedSet.ofList [positive, negative]).nodup
      (Circuit.decides_of_none some_ rfl) trivial).bind ?_
    rintro id c₃ grown₃ ⟨other, there, signed⟩
    obtain ⟨children, rfl, same⟩ := Gate.eq_or_of_signature? signed
    have here : c₃.Balanced id := by
      refine ⟨(Lit.word v).var, none, children, there, fun child member => ?_⟩
      have either : child = positive ∨ child = negative := by simpa using (same child).mp member
      rcases either with rfl | rfl
      · exact ⟨_, rfl, grown₃.extends_.gate? first⟩
      · refine ⟨l, ?_, grown₃.extends_.gate? second⟩
        rw [Lit.eq_neg_of_negate negated, Lit.var_neg]
    refine .pure ⟨here, List.forall_mem_cons.mpr ⟨here, ?_⟩⟩
    exact balanced.grow ((grown₁.extends_.trans grown₂.extends_).trans grown₃.extends_)

/-- The tautologies over several variables, one for each; induction on the variables. -/
theorem gadgets_grows (vars : List Var) (balanced : AllBalanced c known)
    : Grows c (gadgets vars known) fun result d =>
        (∀ id ∈ result.1, d.Balanced id) ∧ AllBalanced d result.2 ∧ result.1.length = vars.length := by
  induction vars generalizing c known with
  | nil => exact .pure ⟨by simp, balanced, rfl⟩
  | cons v rest ih =>
      refine (gadget_grows v balanced).bind fun ⟨id, known⟩ d _ ⟨here, balanced⟩ => ?_
      refine (ih balanced).bind fun ⟨ids, known⟩ e grown ⟨others, balanced, length⟩ => ?_
      exact .pure ⟨List.forall_mem_cons.mpr ⟨here.grow grown.extends_, others⟩, balanced, congrArg (· + 1) length⟩

end Build

end KnowledgeCompiler
