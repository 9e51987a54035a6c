import KnowledgeCompiler.Clause

/-! Unit propagation and failed-literal probing over a fixed list of clauses.

Propagation keeps a trail of the literals that have become true. A clause whose literals are all
false is a conflict; a clause with one open literal and otherwise false ones makes that literal
true. Probing tries both polarities of a variable: when one leads to a conflict, the other is
forced.
-/

namespace KnowledgeCompiler

/-- The literals that are true, in the order in which they became so. -/
structure Trail where
  /-- The value of each variable that has one. -/
  values : Std.TreeMap Var Bool := ∅
  /-- The true literals. -/
  literals : Array Lit := #[]

/-- What a trail makes of a clause. -/
inductive ClauseStatus where
  /-- A literal is true. -/
  | satisfied
  /-- All literals are false. -/
  | falsified
  /-- All occurrences are false but one, which is open. -/
  | unit (l : Lit)
  /-- More than one occurrence is open. -/
  | unresolved
  deriving Repr, DecidableEq

namespace Trail

/-- Whether a literal is true. -/
def isTrue (trail : Trail) (l : Lit) : Bool := trail.values[l.var]? == some l.isPositive

/-- Whether the variable of a literal has no value. -/
def isOpen (trail : Trail) (l : Lit) : Bool := !trail.values.contains l.var

/-- Makes a literal true. -/
def push (trail : Trail) (l : Lit) : Trail :=
  { values := trail.values.insert l.var l.isPositive, literals := trail.literals.push l }

/-- Assumes a literal; nothing comes of it if its complement is true. -/
def assume? (trail : Trail) (l : Lit) : Option Trail :=
  if trail.isOpen l then some (trail.push l)
  else if trail.isTrue l then some trail
  else none

/-- The status of a clause. -/
def status (trail : Trail) (clause : Clause) : ClauseStatus :=
  if clause.any trail.isTrue then .satisfied
  else
    match clause.filter trail.isOpen with
    | [] => .falsified
    | [l] => .unit l
    | _ => .unresolved

/-- Draws the consequence of one clause; nothing comes of it on a conflict. -/
def resolve? (trail : Trail) (clause : Clause) : Option Trail :=
  match trail.status clause with
  | .satisfied | .unresolved => some trail
  | .falsified => none
  | .unit l => some (trail.push l)

end Trail

/-- Clauses prepared for propagation. -/
structure Propagator where
  /-- The clauses. -/
  clauses : Array Clause
  /-- Where each literal occurs. -/
  positions : Std.TreeMap Lit (List Nat)

namespace Propagator

/-- Prepares a list of clauses. -/
def ofClauses (clauses : Clauses) : Propagator :=
  { clauses := clauses.toArray, positions := clauses.positionsBy id }

/-- The clauses in which a literal occurs. -/
def clausesOf (p : Propagator) (l : Lit) : Clauses :=
  (p.positions.getD l []).map fun position => p.clauses.getD position []

/-- Draws the consequences of the literals of the trail from position `head` on, each in the
clauses of its complement. A step takes a unit of fuel; the trail holds each variable once, so
there are never more steps than variables.
-/
def drain (p : Propagator) : Nat → Nat → Trail → Checked (Option Trail)
  | 0, _, _ => throw .exhausted
  | fuel + 1, head, trail =>
      match trail.literals[head]? with
      | none => return some trail
      | some l => do
          match (p.clausesOf (← Lit.negate l)).foldlM Trail.resolve? trail with
          | none => return none
          | some extended => p.drain fuel (head + 1) extended

/-- The literals that follow from an assumption by unit propagation, in the order in which they are
found, without the assumption. There is no result on a conflict, and none if the assumption holds a
complementary pair.
-/
def propagate (p : Propagator) (assumption : List Lit) : Checked (Option (List Lit)) :=
  match assumption.foldlM Trail.assume? {} with
  | none => return none
  | some assumed =>
      match p.clauses.toList.foldlM Trail.resolve? assumed with
      | none => return none
      | some swept => do
          let closed ← p.drain (assumption.length + p.positions.size + 1) 0 swept
          return closed.map fun trail => trail.literals.toList.drop assumed.literals.size

-----------------------------------------------------------------------------------------
-- Probing
-----------------------------------------------------------------------------------------

/-- What probing has found. -/
structure Probing where
  /-- The assumption and all literals found since. -/
  known : Array Lit
  /-- The literals found, by variable. -/
  forced : Std.TreeMap Var Lit := ∅
  /-- Whether the current round has found a literal. -/
  changed : Bool := false

/-- Adds literals found by propagation. -/
def Probing.learn (state : Probing) (literals : List Lit) : Probing :=
  literals.foldl
    (fun state l =>
      { state with known := state.known.push l, forced := state.forced.insert l.var l })
    state

/-- Adds the forced literal of a variable and what follows from it. -/
def force (p : Propagator) (state : Probing) (v : Var) (l : Lit) : Checked (Option Probing) := do
  let state :=
    { known := state.known.push l, forced := state.forced.insert v l, changed := true : Probing }
  return (← p.propagate state.known.toList).map state.learn

/-- Probes a variable without a known literal. There is no result if both polarities fail. -/
def probeVariable (p : Propagator) (state : Probing) (v : Var) : Checked (Option Probing) := do
  if state.known.any fun l => l.var == v then
    return some state
  let positive := Lit.word v
  let high ← p.propagate (state.known.push positive).toList
  let negative ← Lit.negate positive
  let low ← p.propagate (state.known.push negative).toList
  match high, low with
  | none, none => return none
  | none, some _ => p.force state v negative
  | some _, none => p.force state v positive
  | some _, some _ => return some state

/-- Probes variables in turn, as long as there is a result. -/
def probeRound (p : Propagator) : List Var → Probing → Checked (Option Probing)
  | [], state => return some state
  | v :: rest, state => do
      match ← p.probeVariable state v with
      | none => return none
      | some next => p.probeRound rest next

/-- Probes in rounds, until a round finds nothing. Every round but the last settles a variable, so
the number of variables bounds the rounds.
-/
def probeRounds (p : Propagator) (vars : List Var)
    : Nat → Probing → Checked (Option Probing)
  | 0, _ => throw .exhausted
  | fuel + 1, state => do
      match ← p.probeRound vars { state with changed := false } with
      | none => return none
      | some next => if next.changed then p.probeRounds vars fuel next else return some next

/-- The literals forced under an assumption, by variable, when propagation is strengthened by
probing `vars` in one round, or in rounds until nothing new is found. There is no result if a
conflict shows that the assumption cannot be met.
-/
def probe (p : Propagator) (assumption : List Lit) (vars : List Var) (iterate : Bool)
    : Checked (Option (Std.TreeMap Var Lit)) := do
  match ← p.propagate assumption with
  | none => return none
  | some implied =>
      let start := Probing.learn { known := assumption.toArray } implied
      let final ←
        if iterate then p.probeRounds vars (vars.length + 1) start
        else p.probeRound vars start
      return final.map (·.forced)

end Propagator

end KnowledgeCompiler
