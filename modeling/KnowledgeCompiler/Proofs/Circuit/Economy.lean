import KnowledgeCompiler.Proofs.Circuit.Completeness
import KnowledgeCompiler.Proofs.Circuit.Sharing
import KnowledgeCompiler.Proofs.Circuit.SmoothSignatures

/-! Nodes that are made only once.

Where the table leads from the signature of every node to a node, nothing is made twice: a factory that is asked for the
gate of a node returns a node that is there. Adding nodes keeps it so, and so does smoothing. An edge may break it: two
nodes may come to have the same signature, of which one is registered, and if that one gets another edge, then its entry
goes and the other one is not found any more.
-/

namespace KnowledgeCompiler

open KnowledgeCompiler.Build
open KnowledgeCompiler.Action (Ensures outcome after)

namespace Circuit

variable {c d : Circuit} {id source target : NodeId} {parent : Node} {factory : Factory} {key : Gate}

-----------------------------------------------------------------------------------------
-- Reuse
-----------------------------------------------------------------------------------------

/-- The table leads from the signature of every node to a node. -/
def AllListed (c : Circuit) : Prop := c.ListedBut []

/-- A factory returns a node of the circuit and leaves the circuit as it is. -/
def Reuses (c : Circuit) (factory : Factory) : Prop :=
  ∃ id, id < c.nodes.size ∧ ∀ journal, factory.build ⟨c, journal⟩ = .ok id ⟨c, journal⟩

/-- Where nodes are shared, a new node of a gate with a signature is made just if the signature is not listed. -/
theorem Wired.reuses_iff (wired : c.Wired) (on : c.sharing = true) (possible : factory.Possible c)
    (busy : ¬ factory.Idle c) (nonzero : factory ≠ .literal 0) (signed : factory.gate.signature? = some key)
    : c.Reuses factory ↔ c.Listed key := by
  cases factory.run c with
  | faulty zero => exact absurd zero nonzero
  | refused impossible => exact absurd possible impossible
  | idle shape _ idle => exact absurd idle busy
  | inserts _ _ inserts =>
      constructor
      · rintro ⟨id, -, returns⟩
        have obtains := obtains_insert c factory.gate #[]
        rw [← inserts, returns] at obtains
        exact ⟨id, Obtains.registered obtains on signed⟩
      · rintro ⟨id, known⟩
        obtain ⟨gate, found, -⟩ := wired.table known
        refine ⟨id, lt_of_gate? found, fun journal => (inserts journal).trans (insert_shared ?_ journal)⟩
        rw [shared?, if_pos on, signed]
        exact known

/-- Nothing is made twice: a conjunction or disjunction of the children of a node, and a mapping of its child, is a node
that is there.
-/
structure Economical (c : Circuit) : Prop where
  conjunction
    : ∀ {id children wanted},
        c.gate? id = some (.and children)
        → (∀ child, child ∈ wanted ↔ child ∈ children)
        → c.Reuses (.conjunction wanted)
  disjunction
    : ∀ {id decision children wanted},
        c.gate? id = some (.or decision children)
        → (∀ child, child ∈ wanted ↔ child ∈ children)
        → c.Reuses (.disjunction wanted decision)
  mapping
    : ∀ {id child names},
        c.gate? id = some (.mapping names child)
        → c.Covers (.mapping names child)
        → c.Reuses (.mapping child names)

section Requests

variable {children wanted : List NodeId} {decision : Option Var}

/-- The conjunction of the children of a node can be asked for, and it has the signature of the node. -/
theorem Decided.asks_conjunction (decided : c.Decided) (wired : c.Wired) (found : c.gate? id = some (.and children))
    (same : ∀ child, child ∈ wanted ↔ child ∈ children)
    : (Factory.conjunction wanted).Possible c
      ∧ (Factory.conjunction wanted).gate.signature? = (Gate.and children).signature? := by
  refine ⟨fun child member => wired.closed found child ((same child).mp member), ?_⟩
  have some_ : wanted ≠ [] := by
    obtain ⟨child, member⟩ := List.exists_mem_of_ne_nil children (decided.inhabited found)
    exact List.ne_nil_of_mem ((same child).mpr member)
  rw [Factory.gate, if_neg some_]
  have members : ∀ child, child ∈ (SortedSet.ofList wanted).toList ↔ child ∈ children := by simpa using same
  exact (Gate.Reorders.and members).signature? (wired.nodup found) (SortedSet.nodup _)

/-- So can the disjunction. Its decision variable occurs below it. -/
theorem Decided.asks_disjunction (decided : c.Decided) (upToDate : c.UpToDate)
    (found : c.gate? id = some (.or decision children)) (same : ∀ child, child ∈ wanted ↔ child ∈ children)
    : (Factory.disjunction wanted decision).Possible c
      ∧ (Factory.disjunction wanted decision).gate.signature? = (Gate.or decision children).signature? := by
  refine ⟨⟨fun child member => upToDate.closed found child ((same child).mp member), fun _ v decides => ?_⟩, ?_⟩
  · obtain ⟨child, member, inside⟩ := (upToDate.mem_varsOf found).mp (decided.decides found decides)
    exact ⟨child, (same child).mpr member, inside⟩
  · have some_ : wanted ≠ [] := by
      obtain ⟨child, member⟩ := List.exists_mem_of_ne_nil children (decided.inhabited found)
      exact List.ne_nil_of_mem ((same child).mpr member)
    rw [Factory.gate, if_neg some_]
    have members : ∀ child, child ∈ (SortedSet.ofList wanted).toList ↔ child ∈ children := by simpa using same
    exact (Gate.Reorders.or members).signature? (upToDate.nodup found) (SortedSet.nodup _)

end Requests

/-- A factory that needs no new node returns the child. -/
theorem reuses_of_idle (possible : factory.Possible c) (idle : factory.Idle c) : c.Reuses factory := by
  cases factory with
  | mapping child names =>
      cases (Factory.mapping child names).run c with
      | faulty zero => cases zero
      | refused impossible => exact absurd possible impossible
      | idle shape _ _ returns =>
          obtain ⟨rfl, -⟩ := Factory.mapping.inj shape
          exact ⟨child, possible.1, returns⟩
      | inserts _ busy => exact absurd idle busy
  | _ => exact idle.elim

/-- If all signatures are listed, then nothing is made twice. -/
theorem Consistent.economical (consistent : c.Consistent) (on : c.sharing = true) (listed : c.AllListed)
    : c.Economical := by
  have upToDate := consistent.upToDate
  have wired := upToDate.toWired
  refine ⟨fun found same => ?_, fun found same => ?_, fun {id child names} found covers => ?_⟩
  · obtain ⟨possible, signed⟩ := consistent.decided.asks_conjunction wired found same
    exact (wired.reuses_iff on possible not_false nofun signed).mpr (listed.finds found List.not_mem_nil rfl)
  · obtain ⟨possible, signed⟩ := consistent.decided.asks_disjunction upToDate found same
    exact (wired.reuses_iff on possible not_false nofun signed).mpr (listed.finds found List.not_mem_nil rfl)
  · have possible : (Factory.mapping child names).Possible c :=
      ⟨wired.closed found child (List.mem_singleton_self child), covers⟩
    by_cases idle : (Factory.mapping child names).Idle c
    · exact reuses_of_idle possible idle
    · exact (wired.reuses_iff on possible idle nofun rfl).mpr (listed.finds found List.not_mem_nil rfl)

/-- If nothing is made twice, then the signatures of conjunctions and disjunctions are listed. -/
theorem Economical.listed {gate : Gate} (economical : c.Economical) (consistent : c.Consistent) (on : c.sharing = true)
    (found : c.gate? id = some gate) (inner : gate.kind = .and ∨ gate.kind = .or) (signed : gate.signature? = some key)
    : c.Listed key := by
  have upToDate := consistent.upToDate
  have wired := upToDate.toWired
  cases gate with
  | and children =>
      obtain ⟨possible, same⟩ := consistent.decided.asks_conjunction wired found fun _ => Iff.rfl
      exact (wired.reuses_iff on possible not_false nofun (same.trans signed)).mp
        (economical.conjunction found fun _ => Iff.rfl)
  | or decision children =>
      obtain ⟨possible, same⟩ := consistent.decided.asks_disjunction upToDate found fun _ => Iff.rfl
      exact (wired.reuses_iff on possible not_false nofun (same.trans signed)).mp
        (economical.disjunction found fun _ => Iff.rfl)
  | _ => simp [Gate.kind] at inner

-----------------------------------------------------------------------------------------
-- Edges
-----------------------------------------------------------------------------------------

/-- The signature of a node. -/
def signatureOf (c : Circuit) (id : NodeId) : Option Gate := (c.gate? id).bind Gate.signature?

/-- A node is registered, and another node has its signature. An edge that is added to the first one deserts the other.
-/
def Deserts (c : Circuit) (source : NodeId) : Prop :=
  ∃ twin < c.nodes.size,
    twin ≠ source
    ∧ c.signatureOf twin = c.signatureOf source
    ∧ (c.signatureOf source).bind c.table.find? = some source

instance (c : Circuit) (source : NodeId) : Decidable (c.Deserts source) :=
  inferInstanceAs (Decidable (∃ twin < c.nodes.size, _ ∧ _ ∧ _))

instance (c : Circuit) (child id : NodeId) : Decidable (c.IsOperand child id) :=
  decidable_of_iff ((c.gate? id).any fun gate => decide ((gate.kind = .and ∨ gate.kind = .or) ∧ child ∈ gate.children))
    (by simp [IsOperand, Option.any_eq_true])

/-- Another node has the signature under which the node is registered. -/
theorem deserts_iff {gate : Gate} (found : c.gate? source = some gate)
    : c.Deserts source
      ↔ ∃ key twin other,
          gate.signature? = some key
          ∧ c.table.find? key = some source
          ∧ twin ≠ source
          ∧ c.gate? twin = some other
          ∧ other.signature? = some key := by
  simp only [Deserts, signatureOf, found, Option.bind_some, Option.bind_eq_some_iff]
  constructor
  · rintro ⟨twin, -, apart, same, key, signed, own⟩
    obtain ⟨other, there, signed'⟩ := Option.bind_eq_some_iff.mp (same.trans signed)
    exact ⟨key, twin, other, signed, own, apart, there, signed'⟩
  · rintro ⟨key, twin, other, signed, own, apart, there, signed'⟩
    exact ⟨twin, lt_of_gate? there, apart, by rw [there, Option.bind_some, signed, signed'], key, signed, own⟩

namespace Attaches

variable (attaches : c.Attaches d source target parent)
include attaches

theorem relists : c.Relists d source parent.gate (parent.gate.withChildren (parent.children ++ [target])) := by
  refine (relists_replaceGate attaches.found (parent.gate.withChildren (parent.children ++ [target]))).congr rfl ?_
  exact attaches.refreshed.wiring.table.trans (linkParent_frame ..).2.1

/-- The edge is a new one. -/
theorem not_operand : ¬ c.IsOperand target source := by
  rintro ⟨gate, found, -, member⟩
  obtain rfl := Option.some.inj ((gate?_of_node? attaches.found).symm.trans found)
  exact attaches.fresh member

/-- The node has another signature than before. -/
theorem signature?_new (signed : parent.gate.signature? = some key)
    : (parent.gate.withChildren (parent.children ++ [target])).signature? ≠ some key := by
  intro same
  have reorders := Gate.reorders_of_signature? (same.trans signed.symm) (by simp [signed])
  refine attaches.fresh (reorders.mem_children.mp ?_)
  simp [children_withChildren attaches.inner]

/-- After an edge has been added, all signatures are listed just if no other node was deserted. -/
theorem allListed_iff (upToDate : c.UpToDate) (listed : c.AllListed) : d.AllListed ↔ ¬ c.Deserts source := by
  have relists := attaches.relists
  have gate? (id : NodeId) := @Attaches.gate? c d source target id parent attaches upToDate
  have found := gate?_of_node? attaches.found
  rw [deserts_iff found]
  constructor
  · rintro all ⟨key, twin, other, signed, own, apart, here, signed'⟩
    have gone := relists.gone own signed (attaches.signature?_new signed)
    obtain ⟨id, known⟩ := all.finds ((gate? twin).trans (by rw [if_neg apart.symm, here])) List.not_mem_nil signed'
    rw [gone] at known
    cases known
  · refine fun kept => ⟨fun {id gate key} there _ signed => ?_⟩
    rw [gate?] at there
    split at there
    · obtain rfl := Option.some.inj there
      exact relists.listed signed
    · rename_i apart
      obtain ⟨other, known⟩ := listed.finds there List.not_mem_nil signed
      refine ⟨other, relists.kept known ?_⟩
      rintro ⟨same, rfl⟩
      exact kept ⟨key, id, gate, same, known, Ne.symm apart, there, signed⟩

/-- After an edge has been added nothing is made twice, just if no other node was deserted. -/
theorem economical_iff (consistent : c.Consistent) (later : d.Consistent) (on : d.sharing = true) (listed : c.AllListed)
    : d.Economical ↔ ¬ c.Deserts source := by
  refine ⟨?_, fun kept => later.economical on ((attaches.allListed_iff consistent.upToDate listed).mpr kept)⟩
  intro economical deserts
  obtain ⟨key, twin, other, signed, own, apart, here, signed'⟩ :=
    (deserts_iff (gate?_of_node? attaches.found)).mp deserts
  have gone := attaches.relists.gone own signed (attaches.signature?_new signed)
  have kept : d.gate? twin = some other := by rw [attaches.gate? consistent.upToDate, if_neg apart.symm, here]
  -- the other node is a conjunction or disjunction, too
  have inner : other.kind = .and ∨ other.kind = .or := by
    rw [(Gate.reorders_of_signature? (signed'.trans signed.symm) (by simp [signed])).kind]
    exact attaches.inner
  obtain ⟨id, known⟩ := economical.listed later on kept inner signed'
  rw [gone] at known
  cases known

end Attaches

end Circuit

namespace Build

open Circuit

variable {c : Circuit}

/-- Refreshing does not switch sharing on or off; induction on the nodes. -/
theorem refreshAll_sharing (ids : List NodeId)
    : Ensures (refreshAll ids) c (fun _ d => d.sharing = c.sharing) fun d => d.sharing = c.sharing := by
  induction ids generalizing c with
  | nil => exact .pure rfl
  | cons id rest ih =>
      have first : Ensures (refresh id) c (fun _ d => d.sharing = c.sharing) fun d => d.sharing = c.sharing := by
        refine .current ?_
        split
        · exact .pure rfl
        · exact .checked fun summary _ => .updated rfl
      exact first.bind fun _ d same => ih.mono (fun _ _ later => later.trans same) fun _ later => later.trans same

/-- Nor does an edge. -/
theorem addEdge_sharing (source target : NodeId)
    : Ensures (addEdge source target) c (fun _ d => d.sharing = c.sharing) fun d => d.sharing = c.sharing := by
  have reads (id : NodeId) : Ensures (node id) c (fun _ d => c = d) fun d => d.sharing = c.sharing :=
    (node_ensures id).mono (fun _ _ read => read.1) fun _ same => same ▸ rfl
  have failed (cause : CircuitError) {next : Unit → Build Unit}
      : Ensures (Action.fail cause >>= next) c (fun _ d => d.sharing = c.sharing) fun d => d.sharing = c.sharing := by
    have stopped : Ensures (Action.fail cause : Build Unit) c (fun _ _ => False) fun d => d.sharing = c.sharing :=
      .fail rfl
    exact stopped.bind fun _ _ none_ => none_.elim
  refine (reads source).bind fun parent d same => ?_
  subst same
  rw [Action.discard_bind]
  refine (reads target).bind fun _ d same => ?_
  subst same
  dsimp only
  split
  · exact failed _
  split
  · exact .pure rfl
  refine .current ?_
  split
  · exact failed _
  refine .update ?_
  have kept : (c.extendedBy source target parent).sharing = c.sharing :=
    (linkParent_frame ..).2.2.trans (replaceGate_frame ..).2
  have refreshed : Ensures (refreshUpwards source) (c.extendedBy source target parent)
      (fun _ d => d.sharing = c.sharing) fun d => d.sharing = c.sharing :=
    .current ((refreshAll_sharing _).mono (fun _ _ same => same.trans kept) fun _ same => same.trans kept)
  exact refreshed.bind fun _ d same => .updated ((refreshRoot_frame d).2.2.trans same)

end Build

-----------------------------------------------------------------------------------------
-- Runs
-----------------------------------------------------------------------------------------

namespace Request

open Circuit

/-- An edge that a request adds deserts no other node. -/
def Orderly (c : Circuit) : Request → Prop
  | addEdge source target => c.IsOperand target source ∨ ¬ c.Deserts source
  | _ => True

/-- The requests of a run that succeed are orderly when they come. -/
def AllOrderly : List Request → Journaled Circuit → Prop
  | [], _ => True
  | request :: rest, s =>
      match request.perform s with
      | .ok _ t => request.Orderly s.state ∧ AllOrderly rest t
      | .error (.error _) t => AllOrderly rest t
      | .error (.fault _) _ => True

instance (c : Circuit) : (request : Request) → Decidable (request.Orderly c)
  | addEdge source target => inferInstanceAs (Decidable (c.IsOperand target source ∨ ¬ c.Deserts source))
  | constant _ | literal _ | conjunction _ | disjunction .. | decision .. | mapping .. | twoCnf _ | horn _
  | setSharing _ | setRoot _ | smooth | copy .. | expandMappings | expandLeaves | isSatisfiable .. | entails ..
  | modelCount .. | modelCountOver .. | minimumCardinality .. => inferInstanceAs (Decidable True)

instance decidableAllOrderly : (requests : List Request) → (s : Journaled Circuit) → Decidable (AllOrderly requests s)
  | [], _ => inferInstanceAs (Decidable True)
  | request :: rest, s =>
      match ran : request.perform s with
      | .ok _ t =>
          have := decidableAllOrderly rest t
          decidable_of_iff (request.Orderly s.state ∧ AllOrderly rest t) (by simp [AllOrderly, ran])
      | .error (.error _) t =>
          have := decidableAllOrderly rest t
          decidable_of_iff (AllOrderly rest t) (by simp [AllOrderly, ran])
      | .error (.fault _) _ => isTrue (by simp [AllOrderly, ran])

end Request

namespace Circuit

variable {c : Circuit} {s t : Journaled Circuit} {requests : List Request}

theorem allListed_empty : Circuit.empty.AllListed := by
  refine ⟨fun {id gate key} found => ?_⟩
  simp [gate?, node?, Circuit.empty] at found

/-- A request that is orderly keeps all signatures listed. -/
theorem Consistent.listed_step (consistent : c.Consistent) (request : Request)
    : Ensures request.perform c
        (fun _ d => d.InRange → c.InRange ∧ (c.AllListed → request.Orderly c → d.AllListed))
        fun d => d.InRange → c.InRange ∧ (c.AllListed → d.AllListed) := by
  have upToDate := consistent.upToDate
  cases request.effect c with
  | grows _ ensures =>
      refine (ensures upToDate.toWired).mono (fun _ d larger inRange => ?_) fun d larger inRange => ?_
      · exact ⟨(larger.revises upToDate).inRange inRange, fun listed _ => larger.listed listed⟩
      · exact ⟨(larger.revises upToDate).inRange inRange, larger.listed⟩
  | asks _ ensures =>
      refine ensures.mono (fun _ d same inRange => ?_) fun d same inRange => ?_
      · exact ⟨inRange_of_forget same inRange, fun listed _ => listed.congr (sameWiring_of_forget same)⟩
      · exact ⟨inRange_of_forget same inRange, fun listed => listed.congr (sameWiring_of_forget same)⟩
  | addEdge source target =>
      refine (addEdge_spec upToDate source target).mono ?_ fun d same inRange =>
        ⟨same ▸ inRange, fun listed => same ▸ listed⟩
      rintro - d (⟨rfl, -⟩ | ⟨parent, attaches⟩) inRange
      · exact ⟨inRange, fun listed _ => listed⟩
      · refine ⟨(attaches.revises upToDate).inRange inRange, fun listed orderly => ?_⟩
        exact (attaches.allListed_iff upToDate listed).mpr (orderly.resolve_left attaches.not_operand)
  | smooth =>
      by_cases known : c.InRange
      · by_cases listed : c.AllListed
        · exact (smooth_listed upToDate known listed).mono (fun _ d later _ => ⟨known, fun _ _ => later⟩)
            fun _ none_ => none_.elim
        · exact (smooth_ensures upToDate).mono (fun _ _ revises inRange => ⟨known, fun all => absurd all listed⟩)
            fun _ revises inRange => ⟨known, fun all => absurd all listed⟩
      · exact (smooth_ensures upToDate).mono (fun _ _ revises inRange => (known (revises.inRange inRange)).elim)
          fun _ revises inRange => (known (revises.inRange inRange)).elim

/-- Induction on the requests. -/
theorem Reachable.listed_of_orderly (reachable : s.state.Reachable) (small : ∀ request ∈ requests, request.Small)
    (ran : Request.performAll requests s = some t) (inRange : t.state.InRange)
    : s.state.InRange ∧ (s.state.AllListed → Request.AllOrderly requests s → t.state.AllListed) := by
  induction requests generalizing s with
  | nil =>
      obtain rfl := Option.some.inj ran
      exact ⟨inRange, fun listed _ => listed⟩
  | cons request rest ih =>
      obtain ⟨here, later⟩ := List.forall_mem_cons.mp small
      have step := reachable.consistent.listed_step request s.journal
      rcases done : request.perform s with ⟨_, next⟩ | ⟨cause | cause, next⟩
      · simp only [Request.performAll, done] at ran
        obtain ⟨known, remaining⟩ := ih (reachable.done here done) later ran
        rw [done] at step
        obtain ⟨before, first⟩ := step known
        refine ⟨before, fun listed orderly => ?_⟩
        rw [Request.AllOrderly, done] at orderly
        exact remaining (first listed orderly.1) orderly.2
      · simp only [Request.performAll, done] at ran
        obtain ⟨known, remaining⟩ := ih (reachable.refused here done) later ran
        rw [done] at step
        obtain ⟨before, first⟩ := step known
        refine ⟨before, fun listed orderly => ?_⟩
        rw [Request.AllOrderly, done] at orderly
        exact remaining (first listed) orderly
      · simp [Request.performAll, done] at ran

/-- As long as the edges that are added desert no nodes, nothing is made twice. After the next edge that is still so
just if that edge deserts none.
-/
theorem Reachable.economical_of_orderly (reachable : s.state.Reachable) (listed : s.state.AllListed)
    (small : ∀ request ∈ requests, request.Small) (ran : Request.performAll requests s = some t)
    (inRange : t.state.InRange) (orderly : Request.AllOrderly requests s) (on : t.state.sharing = true)
    : t.state.Economical
      ∧ ∀ {source target u},
          Build.addEdge source target t = .ok () u
          → (u.state.Economical ↔ (Request.addEdge source target).Orderly t.state) := by
  have later := (reachable.performAll small ran).consistent
  have kept := (reachable.listed_of_orderly small ran inRange).2 listed orderly
  refine ⟨later.economical on kept, fun {source target u} added => ?_⟩
  have ended := ((addEdge_spec later.upToDate source target).and (addEdge_sharing source target)) t.journal
  rw [show Build.addEdge source target ⟨t.state, t.journal⟩ = .ok () u from added] at ended
  obtain ⟨⟨same, operand⟩ | ⟨parent, attaches⟩, sharing⟩ := ended
  · rw [same]
    exact iff_of_true (later.economical on kept) (.inl operand)
  · have revised := later.revise (attaches.revises later.upToDate)
    rw [attaches.economical_iff later revised (sharing.trans on) kept]
    exact ⟨.inr, fun orderly => orderly.resolve_left attaches.not_operand⟩

/-- A run in which one of two conjunctions grows into the other. -/
def growingRun : List Request :=
  [.literal 1, .literal 2, .literal 3, .conjunction [0, 1], .conjunction [0], .addEdge 4 1]

/-- The state after that run. -/
def growing : Journaled Circuit := (Request.performAll growingRun { state := .empty }).get (by decide +kernel)

/-- So far nothing is made twice, and an edge of the conjunction that is not registered keeps it so. -/
theorem economical_of_orderly_growing
    : Request.AllOrderly growingRun { state := .empty }
      ∧ growing.state.Economical
      ∧ (after (Build.addEdge 4 2) growing).state.Economical := by
  have small : ∀ request ∈ growingRun, request.Small := by simp [growingRun, Request.Small]
  have ran : Request.performAll growingRun { state := .empty } = some growing := (Option.some_get _).symm
  have orderly : Request.AllOrderly growingRun { state := .empty } := by decide +kernel
  obtain ⟨economical, edge⟩ :=
    Reachable.empty.economical_of_orderly allListed_empty small ran (by decide +kernel) orderly (by decide +kernel)
  have added : Build.addEdge 4 2 growing = .ok () (after (Build.addEdge 4 2) growing) :=
    Action.eq_ok_of_isOk (by decide +kernel)
  exact ⟨orderly, economical, (edge added).mpr (by decide +kernel)⟩

/-- The same run, and then the conjunction that is registered gets another edge. -/
def desertedRun : List Request := growingRun ++ [.addEdge 3 2]

/-- The state after that run. -/
def deserted : Journaled Circuit := (Request.performAll desertedRun { state := .empty }).get (by decide +kernel)

/-- The conjunction of the first two literals is a node, but it is made once more. -/
theorem conjunction_made_twice
    : deserted.state.Reachable
      ∧ deserted.state.InRange
      ∧ deserted.state.sharing = true
      ∧ deserted.state.gate? 4 = some (.and [0, 1])
      ∧ outcome (Build.conjunction [0, 1]) deserted = .ok 5
      ∧ deserted.state.nodeCount = 5
      ∧ (after (Build.conjunction [0, 1]) deserted).state.nodeCount = 6
      ∧ ¬ deserted.state.Economical := by
  have reachable : deserted.state.Reachable := by
    refine @Reachable.performAll desertedRun { state := .empty } deserted .empty ?_ (Option.some_get _).symm
    simp [desertedRun, growingRun, Request.Small]
  have node : deserted.state.gate? 4 = some (.and [0, 1]) := by rfl
  have made : outcome (Build.conjunction [0, 1]) deserted = .ok 5 := by rfl
  refine ⟨reachable, by decide +kernel, by decide +kernel, node, made, by decide +kernel, by decide +kernel, ?_⟩
  intro economical
  obtain ⟨id, present, returns⟩ := economical.conjunction node fun _ => Iff.rfl
  have same : outcome (Build.conjunction [0, 1]) deserted = .ok id := by
    rw [outcome, show Build.conjunction [0, 1] deserted = .ok id deserted from returns deserted.journal]
  obtain rfl : 5 = id := Except.ok.inj (made.symm.trans same)
  exact absurd present (by decide +kernel)

end Circuit

end KnowledgeCompiler
