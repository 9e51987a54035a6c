import KnowledgeCompiler.Journal

/-! Computations that change a state, keep a journal and may stop.

An action that stops with an error leaves the state and the journal as they were at that moment,
so what it built before the error is still there.
-/

namespace KnowledgeCompiler

/-- A state together with the journal of how it came about. -/
structure Journaled (σ : Type) where
  /-- The state. -/
  state : σ
  /-- The events so far. -/
  journal : Journal := #[]

/-- A computation on a state of type `σ` that may stop with an error of type `ε` or a fault. -/
abbrev Action (ε σ : Type) := EStateM (Failure ε) (Journaled σ)

namespace Action

variable {ε ε' σ τ α : Type}

/-- The current state. -/
def current : Action ε σ σ := do return (← get).state

/-- Changes the state. -/
def update (change : σ → σ) : Action ε σ Unit :=
  modify fun s => { s with state := change s.state }

/-- Records an event. -/
def note (event : Event) : Action ε σ Unit :=
  modify fun s => { s with journal := s.journal.push event }

/-- Stops with an error. -/
def fail (cause : ε) : Action ε σ α := throw (.error cause)

/-- Takes the value of a checked computation, or stops with its fault. -/
def ofChecked : Checked α → Action ε σ α
  | .ok a => pure a
  | .error cause => throw (.fault cause)

instance : MonadLift Checked (Action ε σ) := ⟨ofChecked⟩

/-- Performs an action on a part of the state. The whole takes over what becomes of the part, also
when the action stops.
-/
def within (part : σ) (replace : τ → σ → τ) (cause : ε → ε') (action : Action ε σ α)
    : Action ε' τ α := fun ⟨whole, journal⟩ =>
  match action ⟨part, journal⟩ with
  | .ok a ⟨part, journal⟩ => .ok a ⟨replace whole part, journal⟩
  | .error (.error e) ⟨part, journal⟩ => .error (.error (cause e)) ⟨replace whole part, journal⟩
  | .error (.fault f) ⟨part, journal⟩ => .error (.fault f) ⟨replace whole part, journal⟩

end Action

end KnowledgeCompiler
