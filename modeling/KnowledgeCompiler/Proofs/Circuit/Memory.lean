import KnowledgeCompiler.Proofs.Circuit.Answer
import KnowledgeCompiler.Proofs.Action

/-! Remembered answers are plain answers.

Every answer that a node remembers is the plain answer of all queries with its restriction. So a walk that
looks answers up comes to the plain answer, and what it remembers is right again.
-/

namespace KnowledgeCompiler

/-- The node without its answers. -/
def Node.forget (node : Node) : Node := { node with memo := {} }

namespace Circuit

variable {c d : Circuit} {id : NodeId} {node : Node}

/-- The circuit without the answers of its nodes. -/
def forget (c : Circuit) : Circuit := { c with nodes := c.nodes.map Node.forget }

theorem node?_forget : c.forget.node? id = (c.node? id).map Node.forget := by
  simp [node?, forget]

theorem size_forget : c.forget.nodes.size = c.nodes.size := by
  simp [forget]

/-- Circuits that differ in answers only have the same bare nodes. -/
theorem bare?_of_forget (same : d.forget = c.forget) (id : NodeId) : d.bare? id = c.bare? id := by
  have each (e : Circuit) : e.bare? id = (e.forget.node? id).map Node.bare := by
    rw [node?_forget, Option.map_map]
    rfl
  rw [each, each, same]

theorem size_of_forget (same : d.forget = c.forget) : d.nodes.size = c.nodes.size := by
  rw [← size_forget, same, size_forget]

/-- Changing what a node remembers changes nothing else. -/
theorem forget_modifyNode {change : Node → Node} (kept : ∀ node, (change node).forget = node.forget)
    : (c.modifyNode id change).forget = c.forget := by
  have nodes : (c.nodes.modify id change).map Node.forget = c.nodes.map Node.forget := by
    refine Array.ext (by simp) fun i inside inside' => ?_
    simp only [Array.getElem_map, Array.getElem_modify]
    split
    · exact kept _
    · rfl
  simp only [forget, modifyNode, nodes]

end Circuit

namespace Build

variable {β : Type} {c d : Circuit} {id : NodeId} {walk : Walk β} {literals : List Lit}
variable {marked : List Var}

/-- The plain answer with fuel for all paths. -/
def Walk.plain (walk : Walk β) (c : Circuit) (id : NodeId) (literals : List Lit) (marked : List Var)
    : Outcome β :=
  walk.answer c (c.nodes.size + 1) id literals marked

/-- Any fuel for all paths gives the plain answer. -/
theorem Walk.answer_eq_plain (upToDate : c.UpToDate) (present : id < c.nodes.size) {fuel : Nat}
    (within : c.Within fuel id)
    : walk.answer c fuel id literals marked = walk.plain c id literals marked := by
  have enough : c.Within (c.nodes.size + 1) id :=
    (upToDate.acyclic.within upToDate.closed present).mono (Nat.le_succ _)
  rw [plain, ← answer_within within (Nat.le_max_left fuel (c.nodes.size + 1)),
    answer_within enough (Nat.le_max_right fuel (c.nodes.size + 1))]

/-- An answer is that of all queries with a restriction. -/
def Walk.Knows (walk : Walk β) (c : Circuit) (id : NodeId) (key : Restriction) (known : β) : Prop :=
  ∀ {literals marked}, Admissible literals
    → Restriction.of (c.varsOf id) literals marked = .ok key
    → walk.plain c id literals marked = .ok known

/-- The answers that nodes of `d` remember are the plain answers in `c`. -/
def Walk.Remembers (walk : Walk β) (c d : Circuit) : Prop :=
  ∀ {id node key known},
    d.node? id = some node
    → (key, known) ∈ walk.field.table node.memo
    → walk.Knows c id key known

/-- All answers that nodes of `d` remember are the plain answers in `c`. -/
structure RightMemos (c d : Circuit) : Prop where
  satisfiable : satisfiableWalk.Remembers c d
  modelCount : countWalk.Remembers c d
  cardinality : cardinalityWalk.Remembers c d

/-- A circuit whose nodes remember the plain answers. -/
def MemoSound (c : Circuit) : Prop := RightMemos c c

/-- What a walk keeps: nothing but answers differs from the circuit where it began, and the answers are
right.
-/
structure Asked (c d : Circuit) : Prop where
  same : d.forget = c.forget
  right : RightMemos c d

/-- The node that remembers one more answer. -/
def Walk.store (walk : Walk β) (key : Restriction) (known : β) (node : Node) : Node :=
  { node with memo := walk.field.replace node.memo ((key, known) :: walk.field.table node.memo) }

theorem forget_store {key : Restriction} {known : β}
    : (d.modifyNode id (walk.store key known)).forget = d.forget :=
  Circuit.forget_modifyNode fun _ => rfl

/-- A walk whose answers depend on its query as restrictions tell, and whose table is apart from the
others.
-/
structure Walk.Faithful (walk : Walk β) : Prop extends walk.Local where
  recalls : ∀ {c d}, RightMemos c d → walk.Remembers c d
  keeps
    : ∀ {c d id key known},
        RightMemos c d
        → walk.Knows c id key known
        → RightMemos c (d.modifyNode id (walk.store key known))

/-- Answers in one table say nothing about another. -/
theorem Walk.Remembers.other {γ : Type} {walk' : Walk γ} (remembers : walk.Remembers c d)
    (apart : ∀ memo answers, walk.field.table (walk'.field.replace memo answers) = walk.field.table memo)
    {key : Restriction} {known : γ}
    : walk.Remembers c (d.modifyNode id (walk'.store key known)) := by
  intro other node key' known' found member
  rw [Circuit.node?_modifyNode] at found
  split at found
  · obtain ⟨old, there, rfl⟩ := Option.map_eq_some_iff.mp found
    rw [Walk.store, apart] at member
    exact remembers there member
  · exact remembers found member

/-- A right answer may be remembered. -/
theorem Walk.Remembers.own (remembers : walk.Remembers c d)
    (lawful : ∀ memo answers, walk.field.table (walk.field.replace memo answers) = answers)
    {key : Restriction} {known : β} (knows : walk.Knows c id key known)
    : walk.Remembers c (d.modifyNode id (walk.store key known)) := by
  intro other node key' known' found member
  rw [Circuit.node?_modifyNode] at found
  split at found
  · rename_i here
    obtain ⟨old, there, rfl⟩ := Option.map_eq_some_iff.mp found
    rw [Walk.store, lawful] at member
    rcases List.mem_cons.mp member with same | member
    · obtain ⟨rfl, rfl⟩ := Prod.mk.inj same
      exact here ▸ knows
    · exact remembers there member
  · exact remembers found member

theorem satisfiableWalk_faithful : satisfiableWalk.Faithful where
  toLocal := satisfiableWalk_local
  recalls right := right.satisfiable
  keeps right knows :=
    { satisfiable := Walk.Remembers.own right.satisfiable (fun _ _ => rfl) knows
      modelCount := Walk.Remembers.other right.modelCount fun _ _ => rfl
      cardinality := Walk.Remembers.other right.cardinality fun _ _ => rfl }

theorem countWalk_faithful : countWalk.Faithful where
  toLocal := countWalk_local
  recalls right := right.modelCount
  keeps right knows :=
    { satisfiable := Walk.Remembers.other right.satisfiable fun _ _ => rfl
      modelCount := Walk.Remembers.own right.modelCount (fun _ _ => rfl) knows
      cardinality := Walk.Remembers.other right.cardinality fun _ _ => rfl }

theorem cardinalityWalk_faithful : cardinalityWalk.Faithful where
  toLocal := cardinalityWalk_local
  recalls right := right.cardinality
  keeps right knows :=
    { satisfiable := Walk.Remembers.other right.satisfiable fun _ _ => rfl
      modelCount := Walk.Remembers.other right.modelCount fun _ _ => rfl
      cardinality := Walk.Remembers.own right.cardinality (fun _ _ => rfl) knows }

-----------------------------------------------------------------------------------------
-- Walks that remember
-----------------------------------------------------------------------------------------

section Run

open KnowledgeCompiler.Action (Computes)

variable {γ : Type} {here : Node} {key : Restriction}

theorem computes_ofOutcome {inv : Circuit → Prop} (result : Outcome γ)
    : Computes inv (ofOutcome result) result := by
  cases result with
  | ok b => exact .pure b
  | error cause => exact .throw cause

/-- Reading a node gives its gate and derived data, and right answers. -/
theorem computes_node {next : Node → Build γ} {result : Outcome γ} (found : c.node? id = some here)
    (each : ∀ {d there}, Asked c d → d.node? id = some there → there.gate = here.gate
      → there.summary = here.summary → Computes (Asked c) (next there) result)
    : Computes (Asked c) (node id >>= next) result := by
  unfold node
  rw [bind_assoc]
  refine .current fun d asked => ?_
  obtain ⟨there, found', gate, summary⟩ :=
    Circuit.node?_of_bare? (Circuit.bare?_of_forget asked.same id) found
  rw [found']
  exact each asked found' gate summary

/-- There is nothing to read at a node that does not exist. -/
theorem computes_node_missing {next : Node → Build γ} (missing : c.node? id = none)
    : Computes (Asked c) (node id >>= next) (.error (.error (.nodeNotFound id))) := by
  unfold node
  rw [bind_assoc]
  refine .current fun d asked => ?_
  have gone : d.node? id = none := by
    simpa [Circuit.bare?, missing] using Circuit.bare?_of_forget asked.same id
  rw [gone]
  exact .throw _

/-- A remembered answer is the one that would be computed, and what is remembered is right. -/
theorem computes_remembered {memoize : Bool} (faithful : walk.Faithful) {there : Node}
    {compute : Build β} {result : Outcome β}
    (looked : ∀ {known}, (key, known) ∈ walk.field.table there.memo → result = .ok known)
    (computed : Computes (Asked c) compute result)
    (knows : ∀ {known}, result = .ok known → walk.Knows c id key known)
    : Computes (Asked c) (remembered memoize walk.field id there key compute) result := by
  have fresh : Computes (Asked c)
      (do
        let answer ← compute
        if memoize then
          remember walk.field id key answer
        return answer)
      result := by
    have again : (result >>= fun answer => .ok answer) = result := by cases result <;> rfl
    rw [← again]
    refine computed.bind fun answer done => ?_
    cases memoize with
    | false => exact .pure answer
    | true =>
        have stored : Computes (Asked c) (remember walk.field id key answer) (.ok ()) :=
          .update fun d asked =>
            ⟨forget_store.trans asked.same, faithful.keeps asked.right (knows done)⟩
        exact stored.bind fun _ _ => .pure answer
  unfold remembered
  split
  · rename_i known found
    cases memoize with
    | false => cases found
    | true =>
        obtain ⟨before, after, listed, -⟩ := List.lookup_eq_some_iff.mp found
        have equal : result = .ok known := looked (by simp [listed])
        rw [equal]
        exact .pure known
  · exact fresh

/-- Combining comes to the combination of what the parts come to; induction on the nodes. -/
theorem computes_combine {inv : Circuit → Prop} {step : β → β → β × Bool} {value : NodeId → Build β}
    {plain : NodeId → Outcome β} {ids : List NodeId}
    (each : ∀ id ∈ ids, Computes inv (value id) (plain id)) (start : β)
    : Computes inv (combine step value ids start) (combine step plain ids start) := by
  induction ids generalizing start with
  | nil => exact .pure start
  | cons id rest ih =>
      obtain ⟨here, later⟩ := List.forall_mem_cons.mp each
      refine here.bind fun b _ => ?_
      dsimp only
      split
      · exact .pure _
      · exact ih later _

/-- An inner node that remembers comes to its plain answer, if what it computes does. -/
theorem computes_inner {memoize : Bool} {fuel : Nat} {there : Node} {compute : Build β}
    {result : Outcome β} (faithful : walk.Faithful) (upToDate : c.UpToDate) (inRange : c.InRange)
    (within : c.Within (fuel + 1) id) (admissible : Admissible literals) (asked : Asked c d)
    (found : d.node? id = some there) (computed : Computes (Asked c) compute result)
    (answer : walk.answer c (fuel + 1) id literals marked
      = (do walk.check id there.throughout; result))
    : Computes (Asked c)
      (do
        ofOutcome (walk.check id there.throughout)
        let key ← Restriction.of there.vars literals marked
        remembered memoize walk.field id there key compute)
      (walk.answer c (fuel + 1) id literals marked) := by
  have vars : c.varsOf id = there.vars := by
    rw [← Circuit.varsOf_of_bare? (Circuit.bare?_of_forget asked.same id), Circuit.varsOf_of_node? found]
  have bounded : ∀ v, v ∈ c.varsOf id → 0 < v ∧ v < 2147483648 :=
    fun v inside => upToDate.vars_bound inRange inside
  have present : id < c.nodes.size := Circuit.size_of_forget asked.same ▸ Circuit.lt_of_node? found
  have plain : walk.answer c (fuel + 1) id literals marked = walk.plain c id literals marked :=
    Walk.answer_eq_plain upToDate present within
  rw [answer]
  refine (computes_ofOutcome _).bind fun _ checked => ?_
  rw [checked] at answer
  have done : walk.plain c id literals marked = result := plain ▸ answer
  rw [← vars, Restriction.of_ok bounded]
  refine computes_remembered faithful (fun {known} member => ?_) computed fun {known} came => ?_
  · have knows : walk.Knows c id _ known := faithful.recalls asked.right found member
    rw [← done, knows admissible (Restriction.of_ok bounded)]
  · intro literals' marked' admissible' key
    rw [Restriction.of_ok bounded] at key
    have same := Restriction.sameAbout admissible' admissible (Except.ok.inj key)
    rw [← came, ← done]
    exact Walk.answer_congr faithful.toLocal upToDate inRange admissible' admissible same

/-- A walk comes to the plain answer, whatever is remembered; induction on the fuel. -/
theorem run_computes (faithful : walk.Faithful) (upToDate : c.UpToDate) (inRange : c.InRange)
    (memoize : Bool) {fuel : Nat} (within : c.Within fuel id) (admissible : Admissible literals)
    : Computes (Asked c) (walk.run memoize fuel id literals marked)
        (walk.answer c fuel id literals marked) := by
  induction fuel generalizing id literals marked with
  | zero => exact within.elim
  | succ fuel ih =>
      rw [Walk.run]
      cases found : c.node? id with
      | none =>
          rw [Walk.answer_missing found]
          exact computes_node_missing found
      | some here =>
          have at_ := Circuit.gate?_of_node? found
          have below : ∀ child ∈ here.gate.children, c.Within fuel child :=
            fun child member => within child ⟨here.gate, at_, member⟩
          refine computes_node found fun {d there} asked found' gate summary => ?_
          have throughout : there.throughout = here.throughout := congrArg Summary.throughout summary
          have vars : there.vars = here.vars := congrArg Summary.vars summary
          dsimp only
          rw [gate]
          cases shape : here.gate with
          | and children =>
              have each : ∀ child ∈ children, Computes (Asked c)
                  (walk.run memoize fuel child literals marked)
                  (walk.answer c fuel child literals marked) :=
                fun child member => ih (below child (by rwa [shape])) admissible
              exact computes_inner faithful upToDate inRange within admissible asked found'
                (computes_combine each _) (by rw [throughout]; exact Walk.answer_and found shape)
          | or decision children =>
              have each : ∀ child ∈ children, Computes (Asked c)
                  (walk.run memoize fuel child literals marked)
                  (walk.answer c fuel child literals marked) :=
                fun child member => ih (below child (by rwa [shape])) admissible
              exact computes_inner faithful upToDate inRange within admissible asked found'
                (computes_combine each _) (by rw [throughout]; exact Walk.answer_or found shape)
          | mapping names child =>
              rw [shape] at at_
              obtain ⟨-, bounded⟩ := inRange at_
              refine computes_inner faithful upToDate inRange within admissible asked found' ?_
                (by rw [throughout]; exact Walk.answer_mapping found shape)
              rw [Renaming.literals_ok bounded]
              exact ih (below child (by simp [shape, Gate.children]))
                (admissible.image bounded names.toLocal_injective)
          | constant value | literal l | twoCnf formula | horn formula =>
              rw [Walk.answer_leaf found (by rw [Node.kind, shape]; rfl), shape, vars]
              exact computes_ofOutcome _

end Run

end Build

end KnowledgeCompiler
