import KnowledgeCompiler.Proofs.Circuit.Assembly
import KnowledgeCompiler.Proofs.Circuit.Requests

/-! Factories: requests for one node.

A factory checks what it is given, and then it asks for the node of a gate. So it is refused, or it needs no node, or it
leaves the circuit as it is but for one node at the end.
-/

namespace KnowledgeCompiler

open KnowledgeCompiler.Build
open KnowledgeCompiler.Action (Ensures Yields)

-----------------------------------------------------------------------------------------
-- Requests for one node
-----------------------------------------------------------------------------------------

/-- A request for one node. -/
inductive Factory where
  | constant (value : Bool)
  | literal (l : Lit)
  | conjunction (children : List NodeId)
  | disjunction (children : List NodeId) (decision : Option Var)
  | mapping (child : NodeId) (names : Bijection)
  | twoCnf (formula : TwoCnf)
  | horn (formula : Horn)

namespace Factory

/-- Asks for the node. -/
def build : Factory → Build NodeId
  | constant value => Build.constant value
  | literal l => Build.literal l
  | conjunction children => Build.conjunction children
  | disjunction children decision => Build.disjunction children decision
  | mapping child names => Build.mapping child names
  | twoCnf formula => Build.twoCnf formula
  | horn formula => Build.horn formula

/-- The gate of the node that is asked for. Without children or clauses it is a constant. -/
def gate : Factory → Gate
  | constant value => .constant value
  | literal l => .literal l
  | conjunction children => if children = [] then .constant true else .and (SortedSet.ofList children).toList
  | disjunction children decision =>
      if children = [] then .constant false else .or decision (SortedSet.ofList children).toList
  | mapping child names => .mapping names child
  | twoCnf formula => if formula.isEmpty then .constant true else .twoCnf formula
  | horn formula => if formula.isEmpty then .constant true else .horn formula

/-- What has to hold of a circuit for the node to be made. -/
def Possible (c : Circuit) : Factory → Prop
  | constant _ | literal _ | twoCnf _ | horn _ => True
  | conjunction children => ∀ child ∈ children, child < c.nodes.size
  | disjunction children decision =>
      (∀ child ∈ children, child < c.nodes.size)
      ∧ (children ≠ [] → ∀ v, decision = some v → ∃ child ∈ children, v ∈ c.varsOf child)
  | mapping child names => child < c.nodes.size ∧ ∀ v, v ∈ c.varsOf child → (names.toGlobal.find? v).isSome = true

/-- How a request that is not possible is refused. -/
inductive Refusal (c : Circuit) : Factory → CircuitError → Prop
  | conjunction {children : List NodeId} {id : NodeId} (member : id ∈ children) (missing : c.nodes.size ≤ id)
    : Refusal c (.conjunction children) (.nodeNotFound id)
  | disjunction {children : List NodeId} {decision : Option Var} {id : NodeId} (member : id ∈ children)
    (missing : c.nodes.size ≤ id)
    : Refusal c (.disjunction children decision) (.nodeNotFound id)
  | decision {children : List NodeId} {v : Var} (absent : ∀ child ∈ children, ¬ v ∈ c.varsOf child)
    : Refusal c (.disjunction children (some v)) (.variableNotInCircuit v)
  | child {child : NodeId} {names : Bijection} (missing : c.nodes.size ≤ child)
    : Refusal c (.mapping child names) (.nodeNotFound child)
  | name {child : NodeId} {names : Bijection} {v : Var} (inside : v ∈ c.varsOf child)
    (unnamed : names.toGlobal.find? v = none)
    : Refusal c (.mapping child names) (.incompleteMapping child v)

/-- The names that a mapping node would give to its child are those that the child has. -/
def Idle (c : Circuit) : Factory → Prop
  | mapping child names => ∀ v, v ∈ c.varsOf child → names.toGlobal.find? v = some v
  | _ => False

/-- Whether equal nodes are shared. Formula leaves with clauses are not. -/
def Shared : Factory → Prop
  | twoCnf formula => formula.isEmpty = true
  | horn formula => formula.isEmpty = true
  | _ => True

/-- No literal is 0, and the numbers that the derived data of a new node depend on are in range. -/
def Safe (c : Circuit) : Factory → Prop
  | literal l => l ≠ 0
  | disjunction _ _ => c.InRange
  | mapping _ names => c.InRange ∧ names.toGlobal.Bounded ∧ names.toLocal.Bounded
  | _ => True

end Factory

-----------------------------------------------------------------------------------------
-- What becomes of a request
-----------------------------------------------------------------------------------------

section Runs

variable {c d : Circuit} {gate : Gate} {id : NodeId} {journal : Journal} {factory : Factory} {children : List NodeId}

theorem node_run_found {node : Node} (found : c.node? id = some node) (journal : Journal)
    : Build.node id ⟨c, journal⟩ = .ok node ⟨c, journal⟩ := by
  unfold Build.node
  rw [Action.current_bind, found]
  rfl

theorem node_run_missing (missing : c.node? id = none) (journal : Journal)
    : Build.node id ⟨c, journal⟩ = .error (.error (.nodeNotFound id)) ⟨c, journal⟩ := by
  unfold Build.node
  rw [Action.current_bind, missing]
  rfl

/-- The set of the children, or the first one that is missing. -/
theorem existing_run (c : Circuit) (children : List NodeId)
    : (∃ id ∈ children, c.nodes.size ≤ id
        ∧ ∀ journal, existing children ⟨c, journal⟩ = .error (.error (.nodeNotFound id)) ⟨c, journal⟩)
      ∨ (∀ child ∈ children, child < c.nodes.size)
        ∧ ∀ journal, existing children ⟨c, journal⟩ = .ok (SortedSet.ofList children).toList ⟨c, journal⟩ := by
  cases found : (SortedSet.ofList children).toList.find? fun id => (c.node? id).isNone with
  | some id =>
      have lost := List.find?_some found
      refine .inl ⟨id, SortedSet.mem_ofList.mp (List.mem_of_find?_eq_some found), ?_, fun journal => ?_⟩
      · refine Nat.le_of_not_lt fun present => ?_
        obtain ⟨node, there⟩ := c.exists_node present
        simp [there] at lost
      · unfold existing
        rw [Action.current_bind, found]
        rfl
  | none =>
      refine .inr ⟨fun child member => ?_, fun journal => ?_⟩
      · have there := List.find?_eq_none.mp found child (SortedSet.mem_ofList.mpr member)
        exact Circuit.node?_isSome.mp (by simpa [Option.isSome_iff_ne_none] using there)
      · unfold existing
        rw [Action.current_bind, found]
        rfl

/-- What a factory comes to: it is refused, or it needs no node, or it asks for the node of its gate. -/
inductive Factory.Run (c : Circuit) (factory : Factory) : Prop
  | faulty (zero : factory = .literal 0) (stops : ∀ s, factory.build s = .error (.fault .zeroLiteral) s)
  | refused {cause : CircuitError} (impossible : ¬ factory.Possible c) (refusal : factory.Refusal c cause)
    (stops : ∀ journal, factory.build ⟨c, journal⟩ = .error (.error cause) ⟨c, journal⟩)
  | idle {child : NodeId} {names : Bijection} (shape : factory = .mapping child names) (possible : factory.Possible c)
    (idle : factory.Idle c) (returns : ∀ journal, factory.build ⟨c, journal⟩ = .ok child ⟨c, journal⟩)
  | inserts (possible : factory.Possible c) (busy : ¬ factory.Idle c)
    (inserts : ∀ journal, factory.build ⟨c, journal⟩ = Build.insert factory.gate ⟨c, journal⟩)

theorem Factory.conjunction_run (c : Circuit) (children : List NodeId) : (Factory.conjunction children).Run c := by
  rcases existing_run c children with ⟨missing, member, lost, stops⟩ | ⟨present, lists⟩
  · refine .refused (fun present => Nat.not_lt.mpr lost (present missing member)) (.conjunction member lost) ?_
    exact fun journal => Action.bind_of_error (stops journal)
  · refine .inserts present id fun journal => (Action.bind_of_ok (lists journal)).trans ?_
    cases shape : (SortedSet.ofList children).toList with
    | nil =>
        obtain rfl := SortedSet.toList_ofList_eq_nil.mp shape
        rfl
    | cons first rest =>
        have some_ : children ≠ [] := fun none_ => by simp [SortedSet.toList_ofList_eq_nil.mpr none_] at shape
        rw [Factory.gate, if_neg some_, shape]

theorem Factory.disjunction_run (c : Circuit) (children : List NodeId) (decision : Option Var)
    : (Factory.disjunction children decision).Run c := by
  rcases existing_run c children with ⟨missing, member, lost, stops⟩ | ⟨present, lists⟩
  · refine .refused (fun possible => Nat.not_lt.mpr lost (possible.1 missing member)) (.disjunction member lost) ?_
    exact fun journal => Action.bind_of_error (stops journal)
  cases shape : (SortedSet.ofList children).toList with
  | nil =>
      obtain rfl := SortedSet.toList_ofList_eq_nil.mp shape
      exact .inserts ⟨present, fun some_ => absurd rfl some_⟩ id fun journal =>
        (Action.bind_of_ok (lists journal)).trans rfl
  | cons first rest =>
      have some_ : children ≠ [] := fun none_ => by simp [SortedSet.toList_ofList_eq_nil.mpr none_] at shape
      have members (child : NodeId) : child ∈ first :: rest ↔ child ∈ children := by
        rw [← shape, SortedSet.mem_toList, SortedSet.mem_ofList]
      have occurs : decision.filter (fun v => !(c.nodesOf (first :: rest)).any fun node => node.vars.contains v) = none
          ↔ ∀ v, decision = some v → ∃ child ∈ children, v ∈ c.varsOf child := by
        rw [Circuit.filter_eq_none_iff]
        simp only [members]
      have continues (journal : Journal) : Build.disjunction children decision ⟨c, journal⟩
          = (decision.filter fun v => !(c.nodesOf (first :: rest)).any fun node => node.vars.contains v).elim
              (Build.insert (.or decision (first :: rest))) (fun absent => Action.fail (.variableNotInCircuit absent))
              ⟨c, journal⟩ := by
        refine (Action.bind_of_ok (lists journal)).trans ?_
        rw [shape]
        dsimp only
        rw [Action.current_bind]
        generalize decision.filter _ = lost
        cases lost <;> rfl
      cases checked : decision.filter fun v => !(c.nodesOf (first :: rest)).any fun node => node.vars.contains v with
      | some absent =>
          have absentFrom : ∀ child ∈ children, ¬ absent ∈ c.varsOf child := by
            intro child member inside
            obtain ⟨rfl, -⟩ := Option.filter_eq_some_iff.mp checked
            rw [occurs.mpr fun v same => ⟨child, member, Option.some.inj same ▸ inside⟩] at checked
            cases checked
          obtain ⟨rfl, -⟩ := Option.filter_eq_some_iff.mp checked
          refine .refused (fun possible => ?_) (.decision absentFrom) fun journal => ?_
          · obtain ⟨child, member, inside⟩ := possible.2 some_ absent rfl
            exact absentFrom child member inside
          · rw [Factory.build, continues, checked]
            rfl
      | none =>
          refine .inserts ⟨present, fun _ => occurs.mp checked⟩ id fun journal => ?_
          rw [Factory.build, continues, checked, Factory.gate, if_neg some_, shape]
          rfl

theorem Factory.mapping_run (c : Circuit) (child : NodeId) (names : Bijection)
    : (Factory.mapping child names).Run c := by
  cases found : c.node? child with
  | none =>
      have lost : c.nodes.size ≤ child := Nat.le_of_not_lt fun present => by
        obtain ⟨node, there⟩ := c.exists_node present
        simp [found] at there
      refine .refused (fun possible => Nat.not_lt.mpr lost possible.1) (.child lost) fun journal => ?_
      exact Action.bind_of_error (node_run_missing found journal)
  | some node =>
      have present := Circuit.lt_of_node? found
      have vars : node.vars = c.varsOf child := (Circuit.varsOf_of_node? found).symm
      have continues (journal : Journal) : Build.mapping child names ⟨c, journal⟩
          = (node.vars.toList.find? fun v => (names.toGlobal.find? v).isNone).elim
              (if node.vars.toList.all fun v => names.toGlobal.find? v == some v then pure child
                else Build.insert (.mapping names child))
              (fun v => Action.fail (.incompleteMapping child v)) ⟨c, journal⟩ := by
        refine (Action.bind_of_ok (node_run_found found journal)).trans ?_
        generalize node.vars.toList.find? _ = lost
        cases lost <;> rfl
      cases checked : node.vars.toList.find? fun v => (names.toGlobal.find? v).isNone with
      | some v =>
          have inside : v ∈ c.varsOf child := vars ▸ List.mem_of_find?_eq_some checked
          have unnamed : names.toGlobal.find? v = none := by simpa using List.find?_some checked
          refine .refused (fun possible => ?_) (.name inside unnamed) fun journal => ?_
          · have named := possible.2 v inside
            simp [unnamed] at named
          · rw [Factory.build, continues, checked]
            rfl
      | none =>
          have named : ∀ v, v ∈ c.varsOf child → (names.toGlobal.find? v).isSome = true := by
            intro v inside
            simpa [Option.isSome_iff_ne_none] using List.find?_eq_none.mp checked v (vars ▸ inside)
          have same : (node.vars.toList.all fun v => names.toGlobal.find? v == some v) = true
              ↔ (Factory.mapping child names).Idle c := by
            rw [List.all_eq_true, Factory.Idle, ← vars]
            simp
          by_cases idle : (Factory.mapping child names).Idle c
          · refine .idle rfl ⟨present, named⟩ idle fun journal => ?_
            rw [Factory.build, continues, checked, if_pos (same.mpr idle)]
            rfl
          · refine .inserts ⟨present, named⟩ idle fun journal => ?_
            rw [Factory.build, continues, checked, if_neg (mt same.mp idle)]
            rfl

/-- What a factory comes to; by cases on what is asked for. -/
theorem Factory.run (c : Circuit) (factory : Factory) : factory.Run c := by
  cases factory with
  | constant value => exact .inserts trivial id fun _ => rfl
  | literal l =>
      by_cases zero : l = 0
      · subst zero
        exact .faulty rfl fun _ => rfl
      · refine .inserts trivial id fun journal => ?_
        show Build.literal l ⟨c, journal⟩ = _
        rw [Build.literal, if_neg zero]
        rfl
  | conjunction children => exact conjunction_run c children
  | disjunction children decision => exact disjunction_run c children decision
  | mapping child names => exact mapping_run c child names
  | twoCnf formula =>
      refine .inserts trivial id fun journal => ?_
      show Build.twoCnf formula ⟨c, journal⟩ = _
      unfold Build.twoCnf Factory.gate
      dsimp only
      split <;> rfl
  | horn formula =>
      refine .inserts trivial id fun journal => ?_
      show Build.horn formula ⟨c, journal⟩ = _
      unfold Build.horn Factory.gate
      dsimp only
      split <;> rfl

end Runs

-----------------------------------------------------------------------------------------
-- The node of a gate
-----------------------------------------------------------------------------------------

namespace Circuit

variable {c d e : Circuit} {gate : Gate} {id : NodeId} {journal : Journal} {factory : Factory}

/-- Asking for the node of a gate leaves the circuit as it is, if nodes are shared and the table leads to one, and
otherwise adds a node at the end.
-/
inductive Obtains (c : Circuit) (gate : Gate) : NodeId → Circuit → Prop
  | shared {id : NodeId} (known : c.shared? gate = some id) : Obtains c gate id c
  | added {summary : Summary} (unknown : c.shared? gate = none) (done : c.summarize gate = .ok summary)
    : Obtains c gate c.nodes.size (c.append gate summary)

theorem obtains_insert (c : Circuit) (gate : Gate)
    : Ensures (Build.insert gate) c (c.Obtains gate) fun _ => False := by
  refine Ensures.current ?_
  cases known : c.shared? gate with
  | some id => exact Ensures.pure (.shared known)
  | none => exact Ensures.note (Ensures.checked fun _ done => Ensures.update (Ensures.pure (.added known done)))

theorem insert_shared (known : c.shared? gate = some id) (journal : Journal)
    : Build.insert gate ⟨c, journal⟩ = .ok id ⟨c, journal⟩ := by
  unfold Build.insert
  rw [Action.current_bind, known]
  rfl

theorem insert_yields {summary : Summary} (done : c.summarize gate = .ok summary)
    : Yields (Build.insert gate) c fun _ _ => True := by
  refine Yields.current ?_
  cases known : c.shared? gate with
  | some id => exact .pure trivial
  | none => exact .note (.checked done (.update (.pure trivial)))

namespace Obtains

/-- A node that is returned has the gate that was asked for. -/
theorem realizes (obtains : c.Obtains gate id d) (wired : c.Wired) : d.Realizes gate id := by
  cases obtains with
  | shared known =>
      obtain ⟨other, found, signed⟩ := wired.gate?_of_shared known
      refine ⟨other, found, Gate.reorders_of_signature? signed fun none_ => ?_⟩
      simp [shared?, none_] at known
  | added => exact ⟨gate, gate?_of_node? node?_append_new, .same gate⟩

theorem sharing (obtains : c.Obtains gate id d) : d.sharing = c.sharing := by
  cases obtains with
  | shared => rfl
  | added => exact sharing_append

/-- At most one node is added, the one that is returned. -/
theorem single (obtains : c.Obtains gate id d) : d = c ∨ id = c.nodes.size ∧ d.nodes.size = c.nodes.size + 1 := by
  cases obtains with
  | shared => exact .inl rfl
  | added => exact .inr ⟨rfl, size_append⟩

/-- If nodes are shared, then the table leads from the signature of the gate to the node that is returned. -/
theorem registered (obtains : c.Obtains gate id d) (sharing : c.sharing = true) {key : Gate}
    (signed : gate.signature? = some key)
    : d.table.find? key = some id := by
  cases obtains with
  | shared known =>
      rw [shared?, if_pos sharing, signed] at known
      exact known
  | added unknown =>
      rw [shared?, if_pos sharing, signed] at unknown
      exact find?_append_new signed unknown

end Obtains

/-- The second circuit is the first one with nodes added at the end. Nothing about a node that was there has changed,
but that new nodes may be among its parents: those that have it as a child.
-/
structure Appends (c d : Circuit) : Prop where
  kept
    : ∀ {id old},
        c.node? id = some old
        → ∃ node, d.node? id = some node
          ∧ node.gate = old.gate ∧ node.summary = old.summary ∧ node.memo = old.memo
          ∧ ∀ p, p ∈ node.parents ↔ p ∈ old.parents ∨ c.nodes.size ≤ p ∧ d.IsChild id p

theorem Enlarges.appends (larger : c.Enlarges d) (wired : c.Wired) : c.Appends d := by
  refine ⟨fun {id old} found => ?_⟩
  obtain ⟨node, there, same⟩ := larger.undisturbed.kept found
  refine ⟨node, there, same.1, same.2.1, same.2.2, fun p => ?_⟩
  rw [larger.wired.linked there, wired.linked found]
  by_cases before : p < c.nodes.size
  · rw [larger.extends_.isChild_iff before]
    simp [Nat.not_le.mpr before]
  · have absent : ¬ c.IsChild id p := fun ⟨_, parent, _⟩ => before (lt_of_gate? parent)
    simp [absent, Nat.le_of_not_lt before]

end Circuit

namespace Factory

variable {c d e : Circuit} {factory : Factory} {id : NodeId} {journal later : Journal}

/-- Every factory leads to a larger circuit, whether it succeeds or is refused. -/
theorem grows (c : Circuit) (factory : Factory) : Grows c factory.build fun _ _ => True := by
  cases factory with
  | constant value => exact (constant_grows value).mono fun _ _ _ _ => trivial
  | literal l => exact (literal_grows l).mono fun _ _ _ _ => trivial
  | conjunction children => exact (conjunction_grows children).mono fun _ _ _ _ => trivial
  | disjunction children decision => exact (disjunction_grows children decision).mono fun _ _ _ _ => trivial
  | mapping child names => exact (mapping_grows child names).mono fun _ _ _ _ => trivial
  | twoCnf formula => exact (twoCnf_grows formula).mono fun _ _ _ _ => trivial
  | horn formula => exact (horn_grows formula).mono fun _ _ _ _ => trivial

/-- A possible request stays possible when nodes are added. -/
theorem Possible.grow (possible : factory.Possible c) (grown : c.Extends d) : factory.Possible d := by
  cases factory with
  | constant value | literal l | twoCnf formula | horn formula => trivial
  | conjunction children => exact fun child member => grown.lt (possible child member)
  | disjunction children decision =>
      refine ⟨fun child member => grown.lt (possible.1 child member), fun some_ v same => ?_⟩
      obtain ⟨child, member, inside⟩ := possible.2 some_ v same
      exact ⟨child, member, grown.varsOf (possible.1 child member) ▸ inside⟩
  | mapping child names => exact ⟨grown.lt possible.1, fun v inside => possible.2 v (grown.varsOf possible.1 ▸ inside)⟩

/-- So does one that needs no new node. -/
theorem idle_iff (possible : factory.Possible c) (grown : c.Extends d) : factory.Idle d ↔ factory.Idle c := by
  cases factory with
  | mapping child names => rw [Idle, Idle, grown.varsOf possible.1]
  | _ => exact Iff.rfl

/-- Shared nodes have signatures. -/
theorem exists_signature (shared : factory.Shared) : ∃ key, factory.gate.signature? = some key := by
  cases factory with
  | constant value | literal l | mapping child names => exact ⟨_, rfl⟩
  | conjunction children | disjunction children decision =>
      by_cases none_ : children = []
      · rw [gate, if_pos none_]
        exact ⟨_, rfl⟩
      · rw [gate, if_neg none_]
        exact ⟨_, rfl⟩
  | twoCnf formula | horn formula =>
      have empty : formula.isEmpty = true := shared
      rw [gate, if_pos empty]
      exact ⟨_, rfl⟩

/-- The children of the node that is asked for exist. -/
theorem Possible.present (possible : factory.Possible c) : ∀ child ∈ factory.gate.children, child < c.nodes.size := by
  cases factory with
  | constant value | literal l => simp [gate, Gate.children]
  | conjunction children =>
      rw [gate]
      split
      · simp [Gate.children]
      · exact fun child member => possible child (SortedSet.mem_ofList.mp member)
  | disjunction children decision =>
      rw [gate]
      split
      · simp [Gate.children]
      · exact fun child member => possible.1 child (SortedSet.mem_ofList.mp member)
  | mapping child names => simpa [gate, Gate.children] using possible.1
  | twoCnf formula | horn formula =>
      rw [gate]
      split <;> simp [Gate.children]

/-- What is derived for the node that is asked for. -/
theorem exists_summary (upToDate : c.UpToDate) (possible : factory.Possible c) (safe : factory.Safe c)
    : ∃ summary, c.summarize factory.gate = .ok summary := by
  have evaluates (inRange : c.InRange) (range : factory.gate.InRange)
      : ∃ summary, c.summarize factory.gate = .ok summary := by
    obtain ⟨summary, done, -⟩ := Circuit.summarize_evaluates range possible.present
      fun _ _ _ inside => (upToDate.conjunct_sound inRange inside).1
    exact ⟨summary, done⟩
  cases factory with
  | constant value | literal l => exact ⟨_, rfl⟩
  | conjunction children | twoCnf formula | horn formula =>
      rw [gate]
      split <;> exact ⟨_, rfl⟩
  | disjunction children decision =>
      refine evaluates safe ?_
      rw [gate]
      split <;> trivial
  | mapping child names => exact evaluates safe.1 safe.2

/-- What is known once a factory has returned. -/
theorem succeeded (ran : factory.build ⟨c, journal⟩ = .ok id ⟨d, later⟩)
    : factory.Possible c
      ∧ ((∃ names, factory = .mapping id names) ∧ factory.Idle c ∧ d = c
        ∨ ¬ factory.Idle c ∧ c.Obtains factory.gate id d) := by
  cases factory.run c with
  | faulty zero stops => simp [stops] at ran
  | refused impossible refusal stops => simp [stops] at ran
  | @idle child names shape possible idle returns =>
      rw [returns] at ran
      obtain ⟨rfl, same⟩ := EStateM.Result.ok.inj ran
      exact ⟨possible, .inl ⟨⟨names, shape⟩, idle, (congrArg Journaled.state same).symm⟩⟩
  | inserts possible busy inserts =>
      have obtains := Circuit.obtains_insert c factory.gate journal
      rw [← inserts, ran] at obtains
      exact ⟨possible, .inr ⟨busy, obtains⟩⟩

/-- A factory that is refused changes nothing. -/
theorem unchanged {cause : CircuitError} {t : Journaled Circuit}
    (ran : factory.build ⟨c, journal⟩ = .error (.error cause) t)
    : t.state = c := by
  cases factory.run c with
  | faulty zero stops => simp [stops] at ran
  | refused impossible refusal stops =>
      rw [stops] at ran
      obtain ⟨-, same⟩ := EStateM.Result.error.inj ran
      exact (congrArg Journaled.state same).symm
  | idle shape possible idle returns => simp [returns] at ran
  | inserts possible busy inserts =>
      have ended := Circuit.obtains_insert c factory.gate journal
      rw [← inserts, ran] at ended
      exact ended.elim

theorem sharing (ran : factory.build ⟨c, journal⟩ = .ok id ⟨d, later⟩) : d.sharing = c.sharing := by
  obtain ⟨-, ⟨-, -, rfl⟩ | ⟨-, obtains⟩⟩ := succeeded ran
  · rfl
  · exact obtains.sharing

theorem enlarges (ran : factory.build ⟨c, journal⟩ = .ok id ⟨d, later⟩) (wired : c.Wired) : c.Enlarges d := by
  have ended := ((grows c factory).enlarges wired) journal
  rw [ran] at ended
  exact ended

end Factory

end KnowledgeCompiler
