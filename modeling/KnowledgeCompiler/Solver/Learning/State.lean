import KnowledgeCompiler.Solver.Resolution

/-! The state of a search that learns from its conflicts, and propagation in it.

A true literal makes its complement false. Each clause watches two of its literals, and only when one
of them becomes false is the clause looked at: it watches another literal, or its last literal
becomes true, or all of its literals are false.
-/

namespace KnowledgeCompiler

namespace Learner

/-- A literal by number: twice the place of its variable, and one more if it is negated. -/
abbrev Code := Nat

namespace Code

/-- The place of the variable. -/
def place (q : Code) : Nat := q / 2

/-- Whether the literal is the variable itself. -/
def isPositive (q : Code) : Bool := q % 2 == 0

/-- The complementary literal. -/
def complement (q : Code) : Code := q ^^^ 1

/-- The literal with a given place and polarity. -/
def ofPlace (place : Nat) (polarity : Bool) : Code :=
  if polarity then 2 * place else 2 * place + 1

end Code

/-- A clause with the two of its literals that it watches. -/
structure WatchedClause where
  literals : Array Code
  first : Code
  second : Code
  /-- How many guesses a learnt clause joins; none for a given clause. -/
  spread : Nat := 0

end Learner

/-- The state of a search. Each variable has a place, at which the arrays by variable keep what
belongs to it; the arrays by literal go by its number.
-/
structure Learner where
  /-- The variables. -/
  vars : Array Var
  /-- The given clauses and then the derived ones. -/
  clauses : Array Learner.WatchedClause := #[]
  /-- For each literal the clauses that watch it. -/
  watchers : Array (List Nat)
  /-- For each literal whether it is true. -/
  holds : Array Bool
  /-- For each variable the number of guesses when it got its value. -/
  levels : Array Nat
  /-- For each variable the clause that gave it its value; a guess has none. -/
  reasons : Array (Option Nat)
  /-- For each variable the value that it had last. -/
  preferences : Array Bool
  /-- For each variable how much it takes part in conflicts. -/
  weights : Array Nat
  /-- What the next conflict adds to a weight. -/
  increment : Nat := 1024
  /-- The true literals, in the order in which they became true. -/
  trail : Array Learner.Code := #[]
  /-- The length of the trail before each guess. -/
  marks : Array Nat := #[]
  /-- How much of the trail has been propagated. -/
  propagated : Nat := 0
  /-- How many conflicts are left until the search starts over. -/
  patience : Nat := 100
  /-- How many conflicts there may be after that. -/
  nextPatience : Nat := 150
  /-- The derivations of the clauses beyond the given ones, last first. -/
  derivations : List Derivation := []

namespace Learner

/-- The state without clauses. -/
def ofVars (vars : Array Var) : Learner where
  vars
  watchers := Array.replicate (2 * vars.size) []
  holds := Array.replicate (2 * vars.size) false
  levels := Array.replicate vars.size 0
  reasons := Array.replicate vars.size none
  preferences := Array.replicate vars.size false
  weights := Array.replicate vars.size 0

/-- The literal of a number. -/
def literal (s : Learner) (q : Code) : Lit :=
  let v := s.vars.getD q.place 0
  if q.isPositive then (v : Int) else -(v : Int)

/-- Whether a literal is true. -/
def isTrue (s : Learner) (q : Code) : Bool := s.holds.getD q false

/-- Whether a literal is false. -/
def isFalse (s : Learner) (q : Code) : Bool := s.holds.getD q.complement false

/-- The number of guesses when the variable of a literal got its value. -/
def levelOf (s : Learner) (q : Code) : Nat := s.levels.getD q.place 0

/-- The clause that gave the variable of a literal its value. -/
def reasonOf (s : Learner) (q : Code) : Option Nat := s.reasons.getD q.place none

/-- The literals of a clause. -/
def literalsOf (s : Learner) (number : Nat) : Array Code :=
  match s.clauses[number]? with
  | none => #[]
  | some clause => clause.literals

/-- Makes a literal true. -/
def assign (q : Code) (reason : Option Nat) (s : Learner) : Learner :=
  { s with
    holds := s.holds.setIfInBounds q true
    levels := s.levels.setIfInBounds q.place s.marks.size
    reasons := s.reasons.setIfInBounds q.place reason
    trail := s.trail.push q }

/-- Lets a clause watch a literal. -/
def watch (q : Code) (number : Nat) (s : Learner) : Learner :=
  { s with watchers := s.watchers.modify q (number :: ·) }

/-- Appends a clause that watches its first two literals. -/
def append (literals : Array Code) (spread : Nat) (s : Learner) : Learner :=
  let number := s.clauses.size
  let first := literals.getD 0 0
  let second := literals.getD 1 first
  let appended := { s with clauses := s.clauses.push { literals, first, second, spread } }
  if literals.size ≤ 1 then appended else (appended.watch first number).watch second number

/-- Appends a clause that has been derived by resolving on literals, each with a clause that has
it.
-/
def derive (literals : Array Code) (spread start : Nat) (steps : List (Code × Nat)) (s : Learner)
    : Learner :=
  let derivation := { start, steps := steps.map fun step => (s.literal step.1, step.2) }
  { s with derivations := derivation :: s.derivations }.append literals spread

/-- The steps that resolve away literals which are false without a guess. Each of their complements
is a clause of its own.
-/
def settle (s : Learner) (literals : List Code) : List (Code × Nat) :=
  literals.filterMap fun q => (s.reasonOf q).map fun number => (q.complement, number)

/-- Makes the last literal of a clause true. Before the first guess the literal is derived as a
clause of its own.
-/
def infer (q : Code) (number : Nat) (s : Learner) : Learner :=
  let literals := s.literalsOf number
  if s.marks.isEmpty && 1 < literals.size then
    let derived := s.clauses.size
    let steps := s.settle (literals.toList.filter (· != q))
    (s.derive #[q] 0 number steps).assign q (some derived)
  else s.assign q (some number)

/-- Lets a clause watch one literal in place of another. -/
def rewatch (number : Nat) (old new : Code) (s : Learner) : Learner :=
  { s with
    clauses := s.clauses.modify number fun clause =>
      if clause.first == old then { clause with first := new } else { clause with second := new }
    watchers := s.watchers.modify new (number :: ·) }

/-- Looks at clauses that watched a literal which has become false. The result is the first clause
whose literals are all false.
-/
def revisit (q : Code) : List Nat → Learner → Learner × Option Nat
  | [], s => (s, none)
  | number :: rest, s =>
      match s.clauses[number]? with
      | none => revisit q rest s
      | some clause =>
          let other := if clause.first == q then clause.second else clause.first
          if s.isTrue other then revisit q rest (s.watch q number)
          else
            match clause.literals.find? fun k => k != other && !s.isFalse k with
            | some k => revisit q rest (s.rewatch number q k)
            | none =>
                if s.isFalse other then
                  ({ s with watchers := s.watchers.modify q (number :: rest ++ ·) }, some number)
                else revisit q rest ((s.watch q number).infer other number)

/-- Propagates the true literals. The result is a clause whose literals are all false, if there is
one. Each step takes one literal of the trail, so the number of variables and one more is enough
fuel.
-/
def propagate : Nat → Learner → Learner × Option Nat
  | 0, s => (s, none)
  | fuel + 1, s =>
      match s.trail[s.propagated]? with
      | none => (s, none)
      | some l =>
          let q := l.complement
          let numbers := s.watchers.getD q []
          let s := { s with
            propagated := s.propagated + 1, watchers := s.watchers.setIfInBounds q [] }
          match revisit q numbers s with
          | (s, some number) => (s, some number)
          | (s, none) => propagate fuel s

end Learner

end KnowledgeCompiler
