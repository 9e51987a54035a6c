import KnowledgeCompiler.Solver.Learning.State

/-! Learning from a conflict.

A clause whose literals are all false is resolved with the clauses that made them false, back along
the trail, until only one literal of the last guess is left. The clause that comes out follows from
the others, and it turns that literal around as soon as the guesses of its other literals stand.
-/

namespace KnowledgeCompiler.Learner

/-- A conflict as it is traced back. -/
structure Conflict where
  /-- For each variable whether it has been met. -/
  seen : Array Bool
  /-- The places of the variables that have been met. -/
  met : List Nat := []
  /-- How many literals of the last guess are left. -/
  pending : Nat := 0
  /-- The literals of earlier guesses that stay, latest first. -/
  kept : Array Code := #[]
  /-- The literals that are false without a guess. -/
  settled : List Code := []
  /-- The steps of the resolution, last first. -/
  steps : List (Code × Nat) := []

namespace Conflict

/-- Meets a false literal. -/
def meet (s : Learner) (conflict : Conflict) (q : Code) : Conflict :=
  if conflict.seen.getD q.place true then conflict
  else
    let seen := conflict.seen.setIfInBounds q.place true
    let level := s.levelOf q
    if level == 0 then { conflict with seen, settled := q :: conflict.settled }
    else
      let pending := if level == s.marks.size then conflict.pending + 1 else conflict.pending
      { conflict with seen, met := q.place :: conflict.met, pending }

/-- Meets the literals of a clause. -/
def meetAll (s : Learner) (conflict : Conflict) (number : Nat) : Conflict :=
  (s.literalsOf number).foldl (meet s) conflict

/-- The conflict at a clause whose literals are all false. -/
def ofClause (s : Learner) (number : Nat) : Conflict :=
  meetAll s { seen := Array.replicate s.vars.size false } number

/-- Resolves with the clause that made a literal true. -/
def resolve (s : Learner) (conflict : Conflict) (l : Code) (number : Nat) : Conflict :=
  { conflict with steps := (l, number) :: conflict.steps }.meetAll s number

/-- Goes back along the trail until one literal of the last guess is left. The result comes with the
position of that literal.
-/
def retrace (s : Learner) : Nat → Conflict → Option (Nat × Conflict)
  | 0, _ => none
  | position + 1, conflict =>
      let l := s.trail.getD position 0
      if !conflict.seen.getD l.place false then retrace s position conflict
      else if conflict.pending ≤ 1 then some (position, conflict)
      else
        match s.reasonOf l with
        | none => none
        | some number =>
            let rest := { conflict with pending := conflict.pending - 1 }
            retrace s position (rest.resolve s l number)

/-- Whether the other literals of the clause of a false literal have been met, or are false without
a guess.
-/
def covers (s : Learner) (conflict : Conflict) (number : Nat) : Bool :=
  (s.literalsOf number).all fun k => conflict.seen.getD k.place false || s.levelOf k == 0

/-- Goes back along the rest of the trail and keeps the literals of earlier guesses, except those that
can be resolved away without new ones.
-/
def trim (s : Learner) : Nat → Conflict → Conflict
  | 0, conflict => conflict
  | position + 1, conflict =>
      let l := s.trail.getD position 0
      if !conflict.seen.getD l.place false || s.levelOf l == 0 then trim s position conflict
      else
        match (s.reasonOf l).filter (conflict.covers s) with
        | some number => trim s position (conflict.resolve s l number)
        | none => trim s position { conflict with kept := conflict.kept.push l.complement }

end Conflict

/-- Takes back the guesses except for the first ones. -/
def retreat (level : Nat) (s : Learner) : Learner :=
  match s.marks[level]? with
  | none => s
  | some size =>
      let undone := s.trail.extract size s.trail.size
      { s with
        holds := undone.foldl (fun holds q => holds.setIfInBounds q false) s.holds
        preferences := undone.foldl
          (fun preferences q => preferences.setIfInBounds q.place q.isPositive) s.preferences
        trail := s.trail.take size
        marks := s.marks.take level
        propagated := size }

/-- Adds to the weights of the variables at some places. Later additions are larger, so that older
conflicts fade; before the numbers become large, all are scaled down.
-/
def reward (places : List Nat) (s : Learner) : Learner :=
  let weights := places.foldl (fun weights place => weights.modify place (· + s.increment)) s.weights
  let increment := s.increment + s.increment / 16
  if increment < 1099511627776 then { s with weights, increment }
  else { s with weights := weights.map (· / 1073741824), increment := increment / 1073741824 }

/-- Whether a clause is worth watching: one of the last two thousand, or one that joins few guesses.
The given clauses join none.
-/
def isUseful (clauses : Array WatchedClause) (number : Nat) : Bool :=
  clauses.size - 2000 ≤ number ||
    match clauses[number]? with
    | none => false
    | some clause => clause.spread ≤ 4

/-- Counts a conflict. When patience is over, all guesses are taken back, and the clauses that are not
useful are no longer watched.
-/
def startOver (s : Learner) : Learner :=
  match s.patience with
  | patience + 1 => { s with patience }
  | 0 =>
      let s := s.retreat 0
      let clauses := s.clauses
      { s with
        watchers := s.watchers.map fun numbers => numbers.filter (isUseful clauses)
        patience := s.nextPatience
        nextPatience := s.nextPatience + 30 }

/-- How many guesses the literals of a clause join. -/
def spread (s : Learner) (literals : Array Code) : Nat :=
  let levels := literals.foldl
    (fun levels q => if levels.contains (s.levelOf q) then levels else s.levelOf q :: levels) []
  levels.length

/-- Learns a clause from a clause whose literals are all false, and goes back to where the learnt
clause has one literal left, which becomes true. There is no result if the conflict cannot be traced
back.
-/
def learn (number : Nat) (s : Learner) : Option Learner :=
  match (Conflict.ofClause s number).retrace s s.trail.size with
  | none => none
  | some (position, conflict) =>
      let conflict := conflict.trim s position
      let turned := (s.trail.getD position 0).complement
      let literals := #[turned] ++ conflict.kept
      let steps := conflict.steps.reverse ++ s.settle conflict.settled
      let level := match conflict.kept[0]? with
        | none => 0
        | some latest => s.levelOf latest
      let learnt := s.clauses.size
      let s := (s.derive literals (s.spread literals) number steps).reward conflict.met
      some ((s.retreat level).assign turned (some learnt)).startOver

end KnowledgeCompiler.Learner
