import KnowledgeCompiler.Solver.Learning.Conflict

/-! A search for models that learns from its conflicts.

The search guesses the values of variables and propagates them, and learns a clause from every
conflict. What it finds comes with its evidence: literals that satisfy the clauses, or derivations
that lead to the empty clause. So nothing depends on how the search went.
-/

namespace KnowledgeCompiler

/-- What a search for models has found. -/
inductive Verdict where
  /-- Literals that satisfy the clauses. -/
  | model (literals : List Lit)
  /-- Derivations that lead to the empty clause. -/
  | refutation (derivations : List Derivation)
  /-- Neither. -/
  | undecided
  deriving Repr

namespace Learner

/-- A variable without a value that has the largest weight, among the variables before a place and
the best one so far.
-/
def heaviest (s : Learner) : Nat → Option (Nat × Nat) → Option (Nat × Nat)
  | 0, best => best
  | place + 1, best =>
      let q := Code.ofPlace place true
      if s.isTrue q || s.isFalse q then heaviest s place best
      else
        let weight := s.weights.getD place 0
        match best with
        | none => heaviest s place (some (place, weight))
        | some (_, largest) =>
            heaviest s place (if largest ≤ weight then some (place, weight) else best)

/-- Guesses that a literal is true. -/
def guess (q : Code) (s : Learner) : Learner :=
  { s with marks := s.marks.push s.trail.size }.assign q none

/-- The verdict on a clause whose literals are all false without a guess. -/
def refuted (number : Nat) (s : Learner) : Verdict :=
  let steps := (s.settle (s.literalsOf number).toList).map fun step => (s.literal step.1, step.2)
  .refutation ({ start := number, steps } :: s.derivations).reverse

/-- Propagates, learns and guesses until all variables have values or there is a conflict without a
guess.
-/
def run : Nat → Learner → Verdict
  | 0, _ => .undecided
  | fuel + 1, s =>
      match s.propagate (s.vars.size + 1) with
      | (s, some number) =>
          if s.marks.isEmpty then s.refuted number
          else
            match s.learn number with
            | none => .undecided
            | some s => run fuel s
      | (s, none) =>
          match s.heaviest s.vars.size none with
          | none => .model (s.trail.toList.map s.literal)
          | some (place, _) =>
              run fuel (s.guess (Code.ofPlace place (s.preferences.getD place false)))

/-- Adds the given clauses and runs the search. A clause of one literal makes the literal true; the
clause is refuted if the literal is false already. The number of steps is far more than a search can
take in practice.
-/
def start : List (Array Code) → Learner → Verdict
  | [], s => s.run 1000000000000
  | literals :: rest, s =>
      let number := s.clauses.size
      let s := s.append literals 0
      if literals.isEmpty then s.refuted number
      else if literals.size == 1 then
        let q := literals.getD 0 0
        if s.isFalse q then s.refuted number
        else if s.isTrue q then start rest s
        else start rest (s.assign q (some number))
      else start rest s

end Learner

/-- What the learning search finds out about clauses. -/
def Clauses.verdict (clauses : Clauses) : Verdict :=
  let vars := clauses.vars.toList
  let places : Std.TreeMap Var Nat :=
    vars.zipIdx.foldl (fun places entry => places.insert entry.1 entry.2) ∅
  let code (l : Lit) : Learner.Code := .ofPlace (places.getD l.var 0) l.isPositive
  Learner.start (clauses.map fun clause => (clause.map code).toArray) (.ofVars vars.toArray)

end KnowledgeCompiler
