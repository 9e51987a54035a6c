import KnowledgeCompiler.Proofs.Circuit.Factories

/-! Shared nodes.

The table leads from a signature to a node of just that signature, whatever edges were added and whatever was smoothed
since the node was registered. So a factory returns a node of just the gate that was asked for, and it returns the same
node when it is asked again.
-/

namespace KnowledgeCompiler

open KnowledgeCompiler.Build
open KnowledgeCompiler.Action (Ensures Hinges)

-----------------------------------------------------------------------------------------
-- The same request again
-----------------------------------------------------------------------------------------

namespace Circuit

variable {c d e : Circuit} {α β : Type}

/-- If nodes are shared, then once the action has succeeded it returns the same thing in all larger circuits, and it
changes nothing there.
-/
structure Settles (c : Circuit) (action : Build α) : Prop where
  again
    : c.Wired
      → c.sharing = true
      → ∀ {a journal d later},
          action ⟨c, journal⟩ = .ok a ⟨d, later⟩
          → c.Enlarges d
            ∧ d.sharing = true
            ∧ ∀ {e}, d.Enlarges e → e.sharing = true → ∀ after, action ⟨e, after⟩ = .ok a ⟨e, after⟩

namespace Settles

variable {action : Build α} {next : α → Build β}

theorem bind (first : c.Settles action) (second : ∀ a d, Settles d (next a)) : c.Settles (action >>= next) := by
  refine ⟨fun wired on {b journal d later} ran => ?_⟩
  obtain ⟨a, ⟨middle, between⟩, here, there⟩ := Action.exists_of_bind_ok ran
  obtain ⟨larger, still, again⟩ := first.again wired on here
  obtain ⟨larger', still', again'⟩ := (second a middle).again larger.wired still there
  refine ⟨larger.trans larger', still', fun {e} grown sharing after => ?_⟩
  rw [Action.bind_of_ok (again (larger'.trans grown) sharing after)]
  exact again' grown sharing after

theorem checked {value : Checked α} (then_ : ∀ a, value = .ok a → c.Settles (next a))
    : c.Settles ((liftM value : Build α) >>= next) := by
  cases value with
  | ok a => exact ⟨fun wired on => (then_ a rfl).again wired on⟩
  | error cause => exact ⟨fun _ _ {_ _ _ _} ran => by cases ran⟩

end Settles

/-- A factory whose nodes are shared. -/
theorem settles_build {factory : Factory} (shared : factory.Shared) : c.Settles factory.build := by
  refine ⟨fun wired on {id journal d later} ran => ?_⟩
  have larger := Factory.enlarges ran wired
  refine ⟨larger, (Factory.sharing ran).trans on, fun {e} larger' sharing after => ?_⟩
  have grown := larger.extends_.trans larger'.extends_
  obtain ⟨possible, known⟩ := Factory.succeeded ran
  cases factory.run e with
  | faulty zero stops => simp [stops] at ran
  | refused impossible => exact absurd (possible.grow grown) impossible
  | idle shape _ idle returns =>
      rw [Factory.idle_iff possible grown] at idle
      obtain ⟨⟨_, same⟩, -⟩ | ⟨busy, -⟩ := known
      · obtain ⟨rfl, -⟩ := Factory.mapping.inj (same.symm.trans shape)
        exact returns after
      · exact absurd idle busy
  | inserts _ busy inserts =>
      rw [Factory.idle_iff possible grown] at busy
      obtain ⟨-, idle, -⟩ | ⟨-, obtains⟩ := known
      · exact absurd idle busy
      · obtain ⟨key, signed⟩ := Factory.exists_signature shared
        rw [inserts]
        refine insert_shared ?_ after
        rw [shared?, if_pos sharing, signed]
        exact larger'.entries (obtains.registered on signed)

/-- All nodes of a decision are shared. -/
theorem settles_decision (v : Var) (high low : NodeId) : c.Settles (Build.decision v high low) := by
  have literal (l : Lit) (d : Circuit) : d.Settles (Build.literal l) := @settles_build d (.literal l) trivial
  have conjunction (children : List NodeId) (d : Circuit) : d.Settles (Build.conjunction children) :=
    @settles_build d (.conjunction children) trivial
  refine (literal _ _).bind fun positive c₁ => .checked fun l _ => (literal _ _).bind fun negative c₂ => ?_
  refine (conjunction _ _).bind fun whenTrue c₃ => (conjunction _ _).bind fun whenFalse c₄ => ?_
  exact @settles_build c₄ (.disjunction [whenTrue, whenFalse] (some v)) trivial

end Circuit

-----------------------------------------------------------------------------------------
-- Sharing is sound
-----------------------------------------------------------------------------------------

namespace Circuit

variable {c d : Circuit} {id : NodeId}

/-- What a factory returns: a node of just the gate that was asked for, each child once, or the child itself in place of
a mapping node that would rename nothing.
-/
inductive Answers (c : Circuit) (factory : Factory) : NodeId → Prop
  | node {other : Gate} {id : NodeId} (busy : ¬ factory.Idle c) (found : c.gate? id = some other)
    (reorders : other.Reorders factory.gate) (distinct : other.children.Nodup)
    : Answers c factory id
  | child {child : NodeId} {names : Bijection} (shape : factory = .mapping child names) (idle : factory.Idle c)
    : Answers c factory child

/-- From the circuit on, the action only adds nodes, whether it succeeds or is refused. -/
structure Augments (c : Circuit) (action : Build NodeId) : Prop where
  ensures : Ensures action c (fun _ d => c.Appends d) c.Appends

/-- If the action has succeeded from the circuit on, then doing it again leads to the same node and changes nothing. -/
structure Repeats (c : Circuit) (action : Build NodeId) : Prop where
  again : ∀ {id s t}, s.state = c → action s = .ok id t → action t = .ok id t

/-- What sharing nodes comes to in a circuit. -/
structure SharesSoundly (c : Circuit) : Prop where
  /-- The table leads from a signature to a node that has just this signature now: its kind, its payload and its
  children.
  -/
  current
    : ∀ {key id},
        c.table.find? key = some id
        → ∃ gate, c.gate? id = some gate ∧ gate.signature? = some key ∧ gate.Reorders key
  /-- A factory returns what was asked for, and the only node that it may add. If it is refused, nothing changes. -/
  returns
    : ∀ factory,
        Ensures (Factory.build factory) c
          (fun id d =>
            d.Answers factory id
            ∧ c.Appends d
            ∧ (d = c ∨ id = c.nodes.size ∧ d.nodes.size = c.nodes.size + 1))
          fun d => d = c
  /-- A factory is refused just if its request is not possible. -/
  granted
    : ∀ factory,
        factory.Safe c
        → Hinges (Factory.build factory) c (factory.Possible c) (fun _ _ => True) (factory.Refusal c)
  /-- A decision, which makes several nodes, only adds them. -/
  decides : ∀ v high low, c.Augments (Build.decision v high low)
  /-- The same request twice leads to the same node. -/
  repeats : c.sharing = true → ∀ {factory : Factory}, factory.Shared → c.Repeats factory.build
  decidesAgain : c.sharing = true → ∀ v high low, c.Repeats (Build.decision v high low)

variable {factory : Factory}

theorem Wired.returns (wired : c.Wired) (factory : Factory)
    : Ensures factory.build c
        (fun id d =>
          d.Answers factory id
          ∧ c.Appends d
          ∧ (d = c ∨ id = c.nodes.size ∧ d.nodes.size = c.nodes.size + 1))
        fun d => d = c := by
  intro journal
  rcases ran : factory.build ⟨c, journal⟩ with ⟨id, t⟩ | ⟨cause | cause, t⟩
  · have larger := Factory.enlarges ran wired
    obtain ⟨possible, ⟨⟨names, shape⟩, idle, same⟩ | ⟨busy, obtains⟩⟩ := Factory.succeeded ran
    · exact ⟨.child shape ((Factory.idle_iff possible larger.extends_).mpr idle), larger.appends wired, .inl same⟩
    · obtain ⟨other, found, reorders⟩ := obtains.realizes wired
      refine ⟨.node ?_ found reorders (larger.wired.nodup found), larger.appends wired, obtains.single⟩
      exact mt (Factory.idle_iff possible larger.extends_).mp busy
  · exact Factory.unchanged ran
  · trivial

theorem UpToDate.granted (upToDate : c.UpToDate) (safe : factory.Safe c)
    : Hinges factory.build c (factory.Possible c) (fun _ _ => True) (factory.Refusal c) := by
  cases factory.run c with
  | faulty zero stops =>
      subst zero
      exact absurd rfl safe
  | refused impossible refusal stops =>
      intro journal
      rw [stops]
      exact ⟨impossible, refusal⟩
  | idle shape possible idle returns =>
      intro journal
      rw [returns]
      exact ⟨possible, trivial⟩
  | inserts possible busy inserts =>
      refine .of_yields (fun journal => ?_) possible
      rw [inserts]
      obtain ⟨summary, done⟩ := Factory.exists_summary upToDate possible safe
      exact insert_yields done journal

theorem Wired.augments {action : Build NodeId} {post : NodeId → Circuit → Prop}
    (wired : c.Wired) (grows : Grows c action post)
    : c.Augments action :=
  ⟨(grows.enlarges wired).mono (fun _ _ larger => larger.appends wired) fun _ larger => larger.appends wired⟩

theorem Settles.repeats {action : Build NodeId} (settles : c.Settles action) (wired : c.Wired) (on : c.sharing = true)
    : c.Repeats action := by
  refine ⟨fun {id s t} start ran => ?_⟩
  subst start
  obtain ⟨larger, still, again⟩ := settles.again wired on ran
  exact again (.refl larger.wired) still t.journal

/-- In every circuit between requests sharing nodes is sound: the table is up to date, a factory returns a node of just
the gate that was asked for, changes nothing about the nodes that are there, and returns the same node when asked again.
-/
theorem Reachable.shares_soundly (reachable : c.Reachable) : c.SharesSoundly where
  current known := by
    obtain ⟨gate, found, signed⟩ := reachable.consistent.upToDate.toWired.table known
    exact ⟨gate, found, signed, Gate.reorders_key signed⟩
  returns := reachable.consistent.upToDate.toWired.returns
  granted _ := reachable.consistent.upToDate.granted
  decides v high low := reachable.consistent.upToDate.toWired.augments (Build.decision_grows v high low)
  repeats on _ shared := (settles_build shared).repeats reachable.consistent.upToDate.toWired on
  decidesAgain on v high low := (settles_decision v high low).repeats reachable.consistent.upToDate.toWired on

/-- A run in which two conjunctions of the same literals are made, and the one that is registered gets another edge. -/
def editedRun : List Request :=
  [.literal 1, .literal 2, .literal 3, .conjunction [0, 1], .setSharing false, .conjunction [0, 1], .setSharing true,
    .addEdge 3 2]

/-- The state after that run. -/
def edited : Journaled Circuit := (Request.performAll editedRun { state := .empty }).get (by decide +kernel)

/-- The conjunction of all three literals is the node with the new edge. The other conjunction is in the table no more,
since its signature was that of the first one.
-/
theorem shares_soundly_after_edit
    : edited.state.SharesSoundly
      ∧ edited.state.sharing = true
      ∧ edited.state.gate? 3 = some (.and [0, 1, 2])
      ∧ edited.state.table.find? (.and [0, 1, 2]) = some 3
      ∧ edited.state.gate? 4 = some (.and [0, 1])
      ∧ edited.state.table.find? (.and [0, 1]) = none := by
  have reachable : edited.state.Reachable := by
    refine @Reachable.performAll editedRun { state := .empty } edited .empty ?_ (Option.some_get _).symm
    simp [editedRun, Request.Small]
  exact ⟨reachable.shares_soundly, by rfl, by rfl, by rfl, by rfl, by rfl⟩

end Circuit

end KnowledgeCompiler
