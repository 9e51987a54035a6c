import KnowledgeCompiler.Action

/-! Judgements on actions.

`Yields` says that an action succeeds with a result and a state of which a condition holds, whatever
the journal, and `Returns` says besides that it records nothing. `Ensures` says what holds if the action
ends without a fault. `Agree` compares two actions: both succeed with related results and the same events,
or both stop for the same reason. `Computes` says that an action ends in the same way from all states that
satisfy an invariant, and keeps the invariant. `Accepts` says exactly when an action succeeds, in terms of what it
leads to, and `Hinges` says so in terms of a condition on the state before.
-/

namespace KnowledgeCompiler.Action

variable {ε ε' σ τ ρ α β γ δ : Type}

/-- What comes after an action without its result. -/
theorem discard_bind (action : Action ε σ α) (next : Unit → Action ε σ β)
    : discard action >>= next = action >>= fun _ => next () := by
  funext s
  show EStateM.bind (EStateM.map _ action) next s = EStateM.bind action (fun _ => next ()) s
  simp only [EStateM.bind, EStateM.map]
  cases action s <;> rfl

/-- An action that reads the state goes on in this state. -/
theorem current_bind (next : σ → Action ε σ α) (s : σ) (journal : Journal)
    : (Action.current >>= next) ⟨s, journal⟩ = next s ⟨s, journal⟩ := rfl

/-- An action goes on from where the first part of it ends. -/
theorem bind_of_ok {action : Action ε σ α} {next : α → Action ε σ β} {s t : Journaled σ} {a : α}
    (ran : action s = .ok a t)
    : (action >>= next) s = next a t := by
  show EStateM.bind action next s = _
  rw [EStateM.bind, ran]

/-- An action stops where the first part of it stops. -/
theorem bind_of_error {action : Action ε σ α} {next : α → Action ε σ β} {s t : Journaled σ} {cause : Failure ε}
    (ran : action s = .error cause t)
    : (action >>= next) s = .error cause t := by
  show EStateM.bind action next s = _
  rw [EStateM.bind, ran]

/-- If two actions in turn succeed, then each of them does. -/
theorem exists_of_bind_ok {action : Action ε σ α} {next : α → Action ε σ β} {s u : Journaled σ} {b : β}
    (ran : (action >>= next) s = .ok b u)
    : ∃ a t, action s = .ok a t ∧ next a t = .ok b u := by
  cases first : action s with
  | ok a t => exact ⟨a, t, rfl, (bind_of_ok first).symm.trans ran⟩
  | error cause t => cases (bind_of_error first).symm.trans ran

-----------------------------------------------------------------------------------------
-- Success
-----------------------------------------------------------------------------------------

/-- From the state `s` the action succeeds, and its result and last state satisfy `post`. -/
def Yields (action : Action ε σ α) (s : σ) (post : α → σ → Prop) : Prop :=
  ∀ journal, ∃ a t, action ⟨s, journal⟩ = .ok a t ∧ post a t.state

theorem Yields.mono {action : Action ε σ α} {s : σ} {post weaker : α → σ → Prop}
    (yields : Yields action s post) (weaken : ∀ a t, post a t → weaker a t)
    : Yields action s weaker := by
  intro journal
  obtain ⟨a, t, run, holds⟩ := yields journal
  exact ⟨a, t, run, weaken a t.state holds⟩

theorem Yields.pure {a : α} {s : σ} {post : α → σ → Prop} (holds : post a s)
    : Yields (Pure.pure a : Action ε σ α) s post :=
  fun journal => ⟨a, ⟨s, journal⟩, rfl, holds⟩

/-- Sequencing; the second action starts from any state in which the first may end. -/
theorem Yields.bind {action : Action ε σ α} {next : α → Action ε σ β} {s : σ}
    {middle : α → σ → Prop} {post : β → σ → Prop} (first : Yields action s middle)
    (second : ∀ a t, middle a t → Yields (next a) t post)
    : Yields (action >>= next) s post := by
  intro journal
  obtain ⟨a, t, run, holds⟩ := first journal
  obtain ⟨b, u, continued, done⟩ := second a t.state holds t.journal
  refine ⟨b, u, ?_, done⟩
  show EStateM.bind action next ⟨s, journal⟩ = _
  rw [EStateM.bind, run]
  exact continued

theorem Yields.current {next : σ → Action ε σ β} {s : σ} {post : β → σ → Prop}
    (then_ : Yields (next s) s post)
    : Yields (Action.current >>= next) s post := then_

theorem Yields.update {change : σ → σ} {next : Unit → Action ε σ β} {s : σ} {post : β → σ → Prop}
    (then_ : Yields (next ()) (change s) post)
    : Yields (Action.update change >>= next) s post := then_

theorem Yields.updated {change : σ → σ} {s : σ} {post : Unit → σ → Prop} (holds : post () (change s))
    : Yields (Action.update change : Action ε σ Unit) s post :=
  fun journal => ⟨(), ⟨change s, journal⟩, rfl, holds⟩

theorem Yields.note {event : Event} {next : Unit → Action ε σ β} {s : σ} {post : β → σ → Prop}
    (then_ : Yields (next ()) s post)
    : Yields (Action.note event >>= next) s post :=
  fun journal => then_ (journal.push event)

theorem Yields.checked {value : Checked α} {a : α} {next : α → Action ε σ β} {s : σ}
    {post : β → σ → Prop} (ok : value = .ok a) (then_ : Yields (next a) s post)
    : Yields ((liftM value : Action ε σ α) >>= next) s post := by
  subst ok
  exact then_

/-- Two things hold together. -/
theorem Yields.and {action : Action ε σ α} {s : σ} {post also : α → σ → Prop} (first : Yields action s post)
    (second : Yields action s also)
    : Yields action s fun a t => post a t ∧ also a t := by
  intro journal
  obtain ⟨a, t, run, holds⟩ := first journal
  obtain ⟨b, u, run', holds'⟩ := second journal
  cases run.symm.trans run'
  exact ⟨a, t, run, holds, holds'⟩

/-- What an action yields holds if it has succeeded. -/
theorem Yields.succeeded {action : Action ε σ α} {s t : Journaled σ} {a : α} {post : α → σ → Prop}
    (yields : Yields action s.state post) (ran : action s = .ok a t)
    : post a t.state := by
  obtain ⟨b, u, run, holds⟩ := yields s.journal
  cases (show action s = .ok b u from run).symm.trans ran
  exact holds

/-- Working on a part of the state. -/
theorem Yields.within {action : Action ε σ α} {part : σ} {replace : τ → σ → τ} {cause : ε → ε'}
    {whole : τ} {post : α → τ → Prop}
    (inside : Yields action part fun a part => post a (replace whole part))
    : Yields (Action.within part replace cause action) whole post := by
  intro journal
  obtain ⟨a, t, run, holds⟩ := inside journal
  refine ⟨a, ⟨replace whole t.state, t.journal⟩, ?_, holds⟩
  simp only [Action.within, run]

/-- From the state `s` the action succeeds without an event, and its result and last state satisfy
`post`.
-/
def Returns (action : Action ε σ α) (s : σ) (post : α → σ → Prop) : Prop :=
  ∀ journal, ∃ a t, action ⟨s, journal⟩ = .ok a ⟨t, journal⟩ ∧ post a t

theorem Returns.mono {action : Action ε σ α} {s : σ} {post weaker : α → σ → Prop}
    (returns : Returns action s post) (weaken : ∀ a t, post a t → weaker a t)
    : Returns action s weaker := by
  intro journal
  obtain ⟨a, t, run, holds⟩ := returns journal
  exact ⟨a, t, run, weaken a t holds⟩

theorem Returns.pure {a : α} {s : σ} {post : α → σ → Prop} (holds : post a s)
    : Returns (Pure.pure a : Action ε σ α) s post :=
  fun _ => ⟨a, s, rfl, holds⟩

theorem Returns.bind {action : Action ε σ α} {next : α → Action ε σ β} {s : σ}
    {middle : α → σ → Prop} {post : β → σ → Prop} (first : Returns action s middle)
    (second : ∀ a t, middle a t → Returns (next a) t post)
    : Returns (action >>= next) s post := by
  intro journal
  obtain ⟨a, t, run, holds⟩ := first journal
  obtain ⟨b, u, continued, done⟩ := second a t holds journal
  refine ⟨b, u, ?_, done⟩
  show EStateM.bind action next ⟨s, journal⟩ = _
  rw [EStateM.bind, run]
  exact continued

theorem Returns.current {next : σ → Action ε σ β} {s : σ} {post : β → σ → Prop}
    (then_ : Returns (next s) s post)
    : Returns (Action.current >>= next) s post := then_

theorem Returns.update {change : σ → σ} {next : Unit → Action ε σ β} {s : σ} {post : β → σ → Prop}
    (then_ : Returns (next ()) (change s) post)
    : Returns (Action.update change >>= next) s post := then_

theorem Returns.checked {value : Checked α} {a : α} {next : α → Action ε σ β} {s : σ}
    {post : β → σ → Prop} (ok : value = .ok a) (then_ : Returns (next a) s post)
    : Returns ((liftM value : Action ε σ α) >>= next) s post := by
  subst ok
  exact then_

-----------------------------------------------------------------------------------------
-- Ends without a fault
-----------------------------------------------------------------------------------------

/-- If the action succeeds from the state `s`, then its result and last state satisfy `post`; if it stops
with an error, then the state at that moment satisfies `stop`. Nothing is said about faults.
-/
def Ensures (action : Action ε σ α) (s : σ) (post : α → σ → Prop) (stop : σ → Prop) : Prop :=
  ∀ journal,
    match action ⟨s, journal⟩ with
    | .ok a t => post a t.state
    | .error (.error _) t => stop t.state
    | .error (.fault _) _ => True

namespace Ensures

variable {action : Action ε σ α} {next : α → Action ε σ β} {s : σ} {post weaker : α → σ → Prop}
variable {result : β → σ → Prop} {stop stop' : σ → Prop}

theorem mono (ensures : Ensures action s post stop) (weaken : ∀ a t, post a t → weaker a t)
    (weaken' : ∀ t, stop t → stop' t)
    : Ensures action s weaker stop' := by
  intro journal
  have ended := ensures journal
  split at ended
  · exact weaken _ _ ended
  · exact weaken' _ ended
  · trivial

theorem pure {a : α} (holds : post a s) : Ensures (Pure.pure a : Action ε σ α) s post stop :=
  fun _ => holds

theorem fail {cause : ε} (stopped : stop s) : Ensures (Action.fail cause : Action ε σ α) s post stop :=
  fun _ => stopped

theorem fault {cause : Fault} : Ensures (throw (.fault cause) : Action ε σ α) s post stop :=
  fun _ => trivial

theorem bind (first : Ensures action s post stop)
    (second : ∀ a t, post a t → Ensures (next a) t result stop)
    : Ensures (action >>= next) s result stop := by
  intro journal
  have ended := first journal
  show match EStateM.bind action next ⟨s, journal⟩ with
    | .ok b t => result b t.state
    | .error (.error _) t => stop t.state
    | .error (.fault _) _ => True
  simp only [EStateM.bind]
  split at ended
  · rename_i a t run
    rw [run]
    exact second a t.state ended t.journal
  · rename_i run
    rw [run]
    exact ended
  · rename_i run
    rw [run]
    trivial

theorem current {next : σ → Action ε σ β} (then_ : Ensures (next s) s result stop)
    : Ensures (Action.current >>= next) s result stop := then_

theorem update {change : σ → σ} {next : Unit → Action ε σ β}
    (then_ : Ensures (next ()) (change s) result stop)
    : Ensures (Action.update change >>= next) s result stop := then_

theorem updated {change : σ → σ} {post : Unit → σ → Prop} (holds : post () (change s))
    : Ensures (Action.update change : Action ε σ Unit) s post stop := fun _ => holds

theorem note {event : Event} {next : Unit → Action ε σ β} (then_ : Ensures (next ()) s result stop)
    : Ensures (Action.note event >>= next) s result stop :=
  fun journal => then_ (journal.push event)

theorem checked {value : Checked α} (then_ : ∀ a, value = .ok a → Ensures (next a) s result stop)
    : Ensures ((liftM value : Action ε σ α) >>= next) s result stop := by
  cases value with
  | ok a => exact then_ a rfl
  | error cause => exact fun _ => trivial

theorem lifted {value : Checked α} (holds : ∀ a, value = .ok a → post a s)
    : Ensures (liftM value : Action ε σ α) s post stop := by
  cases value with
  | ok a => exact fun _ => holds a rfl
  | error cause => exact fun _ => trivial

/-- The result does not matter. -/
theorem discarded {kept : σ → Prop} (ensures : Ensures action s (fun _ t => kept t) stop)
    : Ensures (discard action) s (fun _ t => kept t) stop := by
  rw [← bind_pure (discard action), discard_bind]
  exact ensures.bind fun _ _ holds => .pure holds

/-- Two things hold together. -/
theorem and (first : Ensures action s post stop) (second : Ensures action s weaker stop')
    : Ensures action s (fun a t => post a t ∧ weaker a t) fun t => stop t ∧ stop' t := by
  intro journal
  have left := first journal
  have right := second journal
  split at left <;> rename_i run <;> rw [run] at right
  · exact ⟨left, right⟩
  · exact ⟨left, right⟩
  · trivial

/-- An action that succeeds does not stop. -/
theorem of_yields (succeeds : Yields action s post) : Ensures action s post stop := by
  intro journal
  obtain ⟨a, t, run, holds⟩ := succeeds journal
  rw [run]
  exact holds

/-- What holds if an action succeeds does hold if it succeeds. -/
theorem yields (ensures : Ensures action s post stop) (succeeds : Yields action s weaker)
    : Yields action s fun a t => weaker a t ∧ post a t := by
  intro journal
  obtain ⟨a, t, run, holds⟩ := succeeds journal
  have ended := ensures journal
  rw [run] at ended
  exact ⟨a, t, run, holds, ended⟩

end Ensures

-----------------------------------------------------------------------------------------
-- Computation under an invariant
-----------------------------------------------------------------------------------------

/-- How an action ends, without the state. -/
def outcome (action : Action ε σ α) (s : Journaled σ) : Attempt ε α :=
  match action s with
  | .ok a _ => .ok a
  | .error cause _ => .error cause

/-- The state in which an action ends. -/
def after (action : Action ε σ α) (s : Journaled σ) : Journaled σ :=
  match action s with
  | .ok _ t | .error _ t => t

/-- An action without a result that ends well is known by its last state. -/
theorem eq_ok_of_isOk {action : Action ε σ Unit} {s : Journaled σ} (ok : (outcome action s).isOk = true)
    : action s = .ok () (after action s) := by
  unfold outcome at ok
  unfold after
  cases ran : action s with
  | ok _ t => rfl
  | error cause t =>
      rw [ran] at ok
      cases ok

/-- From every state with the invariant the action ends in this way, and the invariant holds then. -/
def Computes (inv : σ → Prop) (action : Action ε σ α) (result : Attempt ε α) : Prop :=
  ∀ s, inv s.state →
    match action s with
    | .ok a t => result = .ok a ∧ inv t.state
    | .error cause t => result = .error cause ∧ inv t.state

namespace Computes

variable {inv : σ → Prop} {action : Action ε σ α} {next : α → Action ε σ β} {result : Attempt ε α}
variable {then_ : α → Attempt ε β} {s : Journaled σ}

theorem outcome_eq (computes : Computes inv action result) (start : inv s.state)
    : outcome action s = result := by
  have ended := computes s start
  unfold outcome
  split at ended
  · exact ended.1.symm
  · exact ended.1.symm

theorem after (computes : Computes inv action result) (start : inv s.state)
    : inv (after action s).state := by
  have ended := computes s start
  unfold Action.after
  split at ended
  · exact ended.2
  · exact ended.2

/-- The invariant holds in the end. -/
theorem ensures {s : σ} (computes : Computes inv action result) (start : inv s)
    : Ensures action s (fun _ t => inv t) inv := by
  intro journal
  have ended := computes ⟨s, journal⟩ start
  split at ended <;> rename_i run <;> rw [run]
  · exact ended.2
  · rename_i cause _
    cases cause with
    | error cause => exact ended.2
    | fault cause => trivial

theorem pure (a : α) : Computes inv (Pure.pure a : Action ε σ α) (.ok a) := fun _ start => ⟨rfl, start⟩

theorem throw (cause : Failure ε) : Computes inv (throw cause : Action ε σ α) (.error cause) :=
  fun _ start => ⟨rfl, start⟩

theorem bind (first : Computes inv action result)
    (second : ∀ a, result = .ok a → Computes inv (next a) (then_ a))
    : Computes inv (action >>= next) (result >>= then_) := by
  intro s start
  have ended := first s start
  show match EStateM.bind action next s with
    | .ok b t => result >>= then_ = .ok b ∧ inv t.state
    | .error cause t => result >>= then_ = .error cause ∧ inv t.state
  simp only [EStateM.bind]
  split at ended
  · rename_i a t run
    rw [run]
    obtain ⟨rfl, kept⟩ := ended
    exact second a rfl t kept
  · rename_i cause t run
    rw [run]
    obtain ⟨rfl, kept⟩ := ended
    exact ⟨rfl, kept⟩

/-- An action that reads the state has to end in the same way whatever it reads. -/
theorem current {next : σ → Action ε σ α} (each : ∀ s, inv s → Computes inv (next s) result)
    : Computes inv (Action.current >>= next) result := fun s start => each s.state start s start

theorem update {change : σ → σ} (kept : ∀ s, inv s → inv (change s))
    : Computes inv (Action.update change : Action ε σ Unit) (.ok ()) :=
  fun s start => ⟨rfl, kept s.state start⟩

end Computes

-----------------------------------------------------------------------------------------
-- Acceptance
-----------------------------------------------------------------------------------------

/-- From the state `s` the action succeeds without a warning and with `post`, or else it stops with an error and
nothing satisfies `post`.
-/
def Accepts (action : Action ε σ α) (s : σ) (post : α → σ → Prop) : Prop :=
  ∀ journal,
    match action ⟨s, journal⟩ with
    | .ok a t => post a t.state ∧ t.journal.lines .warn = journal.lines .warn
    | .error (.error _) _ => ∀ a t, ¬ post a t
    | .error (.fault _) _ => False

namespace Accepts

variable {action : Action ε σ α} {next : α → Action ε σ β} {s : σ} {post other : α → σ → Prop}
variable {result : β → σ → Prop}

theorem congr (accepts : Accepts action s post) (same : ∀ a t, post a t ↔ other a t) : Accepts action s other := by
  intro journal
  have ended := accepts journal
  split at ended
  · exact ⟨(same _ _).mp ended.1, ended.2⟩
  · exact fun a t holds => ended a t ((same a t).mpr holds)
  · exact ended

theorem pure {a : α} (holds : post a s) : Accepts (Pure.pure a : Action ε σ α) s post :=
  fun _ => ⟨holds, rfl⟩

theorem fail {cause : ε} (none_ : ∀ a t, ¬ post a t) : Accepts (Action.fail cause : Action ε σ α) s post :=
  fun _ => none_

/-- Sequencing. What comes of the whole has to come of the first action. -/
theorem bind (first : Accepts action s post) (second : ∀ a t, post a t → Accepts (next a) t result)
    (needs : ∀ b u, result b u → ∃ a t, post a t)
    : Accepts (action >>= next) s result := by
  intro journal
  have ended := first journal
  show match EStateM.bind action next ⟨s, journal⟩ with
    | .ok b t => result b t.state ∧ t.journal.lines .warn = journal.lines .warn
    | .error (.error _) _ => ∀ b u, ¬ result b u
    | .error (.fault _) _ => False
  simp only [EStateM.bind]
  split at ended
  · rename_i a t run
    rw [run]
    have later := second a t.state ended.1 t.journal
    rw [ended.2] at later
    exact later
  · rename_i run
    rw [run]
    intro b u holds
    obtain ⟨a, t, before⟩ := needs b u holds
    exact ended a t before
  · exact ended.elim

/-- Nothing happens after an error. -/
theorem failed {cause : ε} (none_ : ∀ b u, ¬ result b u) : Accepts (Action.fail cause >>= next) s result :=
  fun _ => none_

theorem current {next : σ → Action ε σ β} (then_ : Accepts (next s) s result)
    : Accepts (Action.current >>= next) s result := then_

theorem update {change : σ → σ} {next : Unit → Action ε σ β} (then_ : Accepts (next ()) (change s) result)
    : Accepts (Action.update change >>= next) s result := then_

theorem checked {value : Checked α} {a : α} (ok : value = .ok a) (then_ : Accepts (next a) s result)
    : Accepts ((liftM value : Action ε σ α) >>= next) s result := by
  subst ok
  exact then_

/-- An event that is no warning. -/
theorem note {event : Event} {next : Unit → Action ε σ β} (quiet : event.level ≠ .warn)
    (then_ : Accepts (next ()) s result)
    : Accepts (Action.note event >>= next) s result := by
  intro journal
  have lines : Journal.lines (journal.push event) .warn = journal.lines .warn := by
    have hidden : ¬ event.level.rank ≤ Level.warn.rank := by
      cases level : event.level <;> simp_all [Level.rank]
    simp [Journal.lines, hidden]
  have ended := then_ (journal.push event)
  rw [lines] at ended
  exact ended

end Accepts

-----------------------------------------------------------------------------------------
-- Success under a condition
-----------------------------------------------------------------------------------------

/-- From the state `s` the action succeeds just if a condition holds. Its result and last state satisfy `post` then;
otherwise it stops with an error that satisfies `refusal`.
-/
def Hinges (action : Action ε σ α) (s : σ) (condition : Prop) (post : α → σ → Prop) (refusal : ε → Prop) : Prop :=
  ∀ journal,
    match action ⟨s, journal⟩ with
    | .ok a t => condition ∧ post a t.state
    | .error (.error cause) _ => ¬ condition ∧ refusal cause
    | .error (.fault _) _ => False

namespace Hinges

variable {action : Action ε σ α} {next : α → Action ε σ β} {s : σ} {condition other : Prop}
variable {post weaker : α → σ → Prop} {result : β → σ → Prop} {refusal : ε → Prop}

theorem mono (hinges : Hinges action s condition post refusal) (same : condition ↔ other)
    (weaken : ∀ a t, post a t → weaker a t)
    : Hinges action s other weaker refusal := by
  intro journal
  have ended := hinges journal
  split at ended
  · exact ⟨same.mp ended.1, weaken _ _ ended.2⟩
  · exact ⟨mt same.mpr ended.1, ended.2⟩
  · exact ended

theorem of_yields (yields : Yields action s post) (holds : condition) : Hinges action s condition post refusal := by
  intro journal
  obtain ⟨a, t, run, done⟩ := yields journal
  rw [run]
  exact ⟨holds, done⟩

theorem pure {a : α} (holds : condition) (done : post a s)
    : Hinges (Pure.pure a : Action ε σ α) s condition post refusal := fun _ => ⟨holds, done⟩

theorem fail {cause : ε} (fails : ¬ condition) (refused : refusal cause)
    : Hinges (Action.fail cause : Action ε σ α) s condition post refusal := fun _ => ⟨fails, refused⟩

/-- Where the action succeeds, the condition is known. -/
theorem known (hinges : Hinges action s condition post refusal)
    : Hinges action s condition (fun a t => condition ∧ post a t) refusal := by
  intro journal
  have ended := hinges journal
  split at ended
  · exact ⟨ended.1, ended⟩
  · exact ended
  · exact ended

/-- Sequencing; the whole succeeds if both conditions hold. -/
theorem bind {second : Prop} (first : Hinges action s condition post refusal)
    (later : ∀ a t, post a t → Hinges (next a) t second result refusal)
    : Hinges (action >>= next) s (condition ∧ second) result refusal := by
  intro journal
  have ended := first journal
  show match EStateM.bind action next ⟨s, journal⟩ with
    | .ok b t => (condition ∧ second) ∧ result b t.state
    | .error (.error cause) _ => ¬ (condition ∧ second) ∧ refusal cause
    | .error (.fault _) _ => False
  simp only [EStateM.bind]
  split at ended
  · rename_i a t run
    rw [run]
    have last := later a t.state ended.2 t.journal
    show match next a t with
      | .ok b u => (condition ∧ second) ∧ result b u.state
      | .error (.error cause) _ => ¬ (condition ∧ second) ∧ refusal cause
      | .error (.fault _) _ => False
    split at last <;> rename_i continued <;> rw [continued]
    · exact ⟨⟨ended.1, last.1⟩, last.2⟩
    · exact ⟨fun both => last.1 both.2, last.2⟩
    · exact last
  · rename_i run
    rw [run]
    exact ⟨fun both => ended.1 both.1, ended.2⟩
  · exact ended.elim

/-- Nothing hinges on what succeeds anyway. -/
theorem after (first : Yields action s post)
    (later : ∀ a t, post a t → Hinges (next a) t condition result refusal)
    : Hinges (action >>= next) s condition result refusal :=
  (bind (of_yields first trivial) later).mono (iff_of_eq (true_and condition)) fun _ _ done => done

/-- The rest succeeds anyway. -/
theorem andThen (first : Hinges action s condition post refusal) (later : ∀ a t, post a t → Yields (next a) t result)
    : Hinges (action >>= next) s condition result refusal :=
  (bind first fun a t done => of_yields (later a t done) trivial).mono (iff_of_eq (and_true condition))
    fun _ _ done => done

theorem current {next : σ → Action ε σ β} (then_ : Hinges (next s) s condition result refusal)
    : Hinges (Action.current >>= next) s condition result refusal := then_

/-- Under the condition the action succeeds. -/
theorem yields (hinges : Hinges action s condition post refusal) (holds : condition) : Yields action s post := by
  intro journal
  have ended := hinges journal
  split at ended
  · rename_i a t run
    exact ⟨a, t, run, ended.2⟩
  · exact absurd holds ended.1
  · exact ended.elim

/-- If the action has succeeded, then the condition holds. -/
theorem succeeded {s t : Journaled σ} {a : α} (hinges : Hinges action s.state condition post refusal)
    (ran : action s = .ok a t)
    : condition ∧ post a t.state := by
  have ended := hinges s.journal
  rw [show action ⟨s.state, s.journal⟩ = .ok a t from ran] at ended
  exact ended

/-- If the condition fails, then the action stops with an error. -/
theorem refused {s : Journaled σ} (hinges : Hinges action s.state condition post refusal) (fails : ¬ condition)
    : ∃ cause t, action s = .error (.error cause) t ∧ refusal cause := by
  have ended := hinges s.journal
  split at ended
  · exact absurd ended.1 fails
  · rename_i cause t run
    exact ⟨cause, t, run, ended.2⟩
  · exact ended.elim

/-- What holds if the action ends holds besides. -/
theorem ensures {stop : σ → Prop} (hinges : Hinges action s condition post refusal)
    (ensured : Ensures action s weaker stop)
    : Hinges action s condition (fun a t => post a t ∧ weaker a t) refusal := by
  intro journal
  have ended := hinges journal
  have also := ensured journal
  split at ended <;> rename_i run <;> rw [run] at also
  · exact ⟨ended.1, ended.2, also⟩
  · exact ended
  · exact ended

end Hinges

-----------------------------------------------------------------------------------------
-- Agreement
-----------------------------------------------------------------------------------------

/-- From the states `s` and `t` the two actions end alike: with results and states related by `post`
and the same events, or with the same failure.
-/
def Agree (left : Action ε σ α) (right : Action ε τ β) (s : σ) (t : τ)
    (post : α → σ → β → τ → Prop) : Prop :=
  ∀ journal,
    match left ⟨s, journal⟩, right ⟨t, journal⟩ with
    | .ok a s, .ok b t => post a s.state b t.state ∧ s.journal = t.journal
    | .error cause _, .error cause' _ => cause = cause'
    | _, _ => False

theorem Agree.mono {left : Action ε σ α} {right : Action ε τ β} {s : σ} {t : τ}
    {post weaker : α → σ → β → τ → Prop} (agree : Agree left right s t post)
    (weaken : ∀ a s b t, post a s b t → weaker a s b t)
    : Agree left right s t weaker := by
  intro journal
  have same := agree journal
  split at same <;> simp_all

/-- An action agrees with itself. -/
theorem Agree.refl (action : Action ε σ α) (s : σ)
    : Agree action action s s fun a s b t => a = b ∧ s = t := by
  intro journal
  cases action ⟨s, journal⟩ with
  | ok a t => exact ⟨⟨rfl, rfl⟩, rfl⟩
  | error cause t => rfl

theorem Agree.pure {a : α} {b : β} {s : σ} {t : τ} {post : α → σ → β → τ → Prop}
    (holds : post a s b t)
    : Agree (Pure.pure a : Action ε σ α) (Pure.pure b : Action ε τ β) s t post :=
  fun _ => ⟨holds, rfl⟩

/-- Two actions that succeed without events agree. -/
theorem Agree.of_returns {left : Action ε σ α} {right : Action ε τ β} {s : σ} {t : τ}
    {post : α → σ → Prop} {post' : β → τ → Prop} (first : Returns left s post)
    (second : Returns right t post')
    : Agree left right s t fun a s b t => post a s ∧ post' b t := by
  intro journal
  obtain ⟨a, s', run, holds⟩ := first journal
  obtain ⟨b, t', run', holds'⟩ := second journal
  rw [run, run']
  exact ⟨⟨holds, holds'⟩, rfl⟩

/-- Sequencing of two agreeing actions. -/
theorem Agree.bind {left : Action ε σ α} {right : Action ε τ β} {next : α → Action ε σ γ}
    {next' : β → Action ε τ δ} {s : σ} {t : τ} {middle : α → σ → β → τ → Prop}
    {post : γ → σ → δ → τ → Prop} (first : Agree left right s t middle)
    (second : ∀ a s b t, middle a s b t → Agree (next a) (next' b) s t post)
    : Agree (left >>= next) (right >>= next') s t post := by
  intro journal
  have same := first journal
  show match EStateM.bind left next ⟨s, journal⟩, EStateM.bind right next' ⟨t, journal⟩ with
    | .ok a s, .ok b t => post a s.state b t.state ∧ s.journal = t.journal
    | .error cause _, .error cause' _ => cause = cause'
    | _, _ => False
  simp only [EStateM.bind]
  split at same
  · rename_i a s' b t' run run'
    obtain ⟨states, journals⟩ := same
    rw [run, run']
    obtain ⟨s', journal'⟩ := s'
    subst journals
    exact second a s' b t'.state states t'.journal
  · rename_i run run'
    rw [run, run']
    exact same
  · exact same.elim

theorem Agree.current {next : σ → Action ε σ γ} {next' : τ → Action ε τ δ} {s : σ} {t : τ}
    {post : γ → σ → δ → τ → Prop} (then_ : Agree (next s) (next' t) s t post)
    : Agree (Action.current >>= next) (Action.current >>= next') s t post := then_

theorem Agree.update {change : σ → σ} {change' : τ → τ} {next : Unit → Action ε σ γ}
    {next' : Unit → Action ε τ δ} {s : σ} {t : τ} {post : γ → σ → δ → τ → Prop}
    (then_ : Agree (next ()) (next' ()) (change s) (change' t) post)
    : Agree (Action.update change >>= next) (Action.update change' >>= next') s t post := then_

theorem Agree.note {event : Event} {next : Unit → Action ε σ γ} {next' : Unit → Action ε τ δ}
    {s : σ} {t : τ} {post : γ → σ → δ → τ → Prop}
    (then_ : Agree (next ()) (next' ()) s t post)
    : Agree (Action.note event >>= next) (Action.note event >>= next') s t post :=
  fun journal => then_ (journal.push event)

/-- The same checked value, taken on both sides. -/
theorem Agree.checked {value : Checked α} {next : α → Action ε σ γ} {next' : α → Action ε τ δ}
    {s : σ} {t : τ} {post : γ → σ → δ → τ → Prop}
    (then_ : ∀ a, value = .ok a → Agree (next a) (next' a) s t post)
    : Agree ((liftM value : Action ε σ α) >>= next) ((liftM value : Action ε τ α) >>= next') s t
        post := by
  cases value with
  | ok a => exact then_ a rfl
  | error cause => exact fun _ => rfl

/-- Working on parts of the two states. -/
theorem Agree.within {left : Action ε σ α} {right : Action ε ρ β} {part : σ} {part' : ρ}
    {replace : τ → σ → τ} {replace' : τ → ρ → τ} {cause : ε → ε'} {whole whole' : τ}
    {post : α → τ → β → τ → Prop}
    (inside : Agree left right part part' fun a part b part' =>
      post a (replace whole part) b (replace' whole' part'))
    : Agree (Action.within part replace cause left) (Action.within part' replace' cause right)
        whole whole' post := by
  intro journal
  have same := inside journal
  simp only [Action.within]
  split at same
  · rename_i run run'
    rw [run, run']
    exact same
  · rename_i why s' why' t' run run'
    subst same
    rw [run, run']
    cases why <;> rfl
  · exact same.elim

end KnowledgeCompiler.Action
