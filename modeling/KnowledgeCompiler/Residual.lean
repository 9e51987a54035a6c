import KnowledgeCompiler.Leaf.Horn
import KnowledgeCompiler.LinkForest
import KnowledgeCompiler.Sorting

/-! The residual formula under a growing assignment.

A residual formula keeps the clauses it started with, which of them are active, and the values given
so far. What is left of an active clause are its literals without a value. Every change is recorded,
so that a scope can be closed by undoing what was done since it was opened.
-/

namespace KnowledgeCompiler

/-- A change that can be undone. -/
inductive Change where
  /-- A clause became inactive. -/
  | deactivated (position : Nat)
  /-- A variable got a value, and its literal joined the trail. -/
  | assigned (v : Var)
  /-- A literal joined the trail and nothing else. -/
  | fixed
  deriving Repr, DecidableEq

/-- A formula under an assignment. -/
structure Residual where
  /-- The clauses before any assignment. -/
  clauses : Array Clause
  /-- Where each variable occurs. -/
  positions : Std.TreeMap Var (List Nat)
  /-- The positions of the active clauses. -/
  active : SortedSet Nat
  /-- The values given so far. -/
  values : Std.TreeMap Var Bool := ∅
  /-- The literals of the assignment that led here, in order. -/
  trail : Array Lit := #[]
  /-- The changes, last one first. -/
  changes : List Change := []

namespace Residual

/-- The residual formula of clauses under the empty assignment. -/
def ofClauses (clauses : Clauses) : Residual :=
  { clauses := clauses.toArray, positions := clauses.positionsBy Lit.var,
    active := SortedSet.ofList (List.range clauses.length) }

-----------------------------------------------------------------------------------------
-- Changes
-----------------------------------------------------------------------------------------

/-- Makes a clause inactive. -/
def deactivate (g : Residual) (position : Nat) : Residual :=
  { g with active := g.active.erase position, changes := .deactivated position :: g.changes }

/-- Makes a literal true: clauses with it become inactive, and its variable disappears from the
others. A literal whose variable has a value changes nothing.
-/
def assignLiteral (g : Residual) (l : Lit) : Residual :=
  if g.values.contains l.var then g
  else
    let valued := { g with
      values := g.values.insert l.var l.isPositive
      trail := g.trail.push l
      changes := .assigned l.var :: g.changes }
    (g.positions.getD l.var []).foldl
      (fun g position =>
        if (g.clauses.getD position []).contains l && g.active.contains position then
          g.deactivate position
        else g)
      valued

/-- Makes literals true, in order. -/
def assign (g : Residual) (literals : List Lit) : Residual := literals.foldl assignLiteral g

/-- Adds a literal to the trail only, unless its variable is assigned or in the trail. -/
def fixLiteral (g : Residual) (l : Lit) : Residual :=
  if g.values.contains l.var || g.trail.any fun other => other.var == l.var then g
  else { g with trail := g.trail.push l, changes := .fixed :: g.changes }

/-- Adds literals over variables that do not occur to the trail. -/
def fix (g : Residual) (literals : List Lit) : Residual := literals.foldl fixLiteral g

/-- What is left of the clause at a position. -/
def residualClause (g : Residual) (position : Nat) : Clause :=
  (g.clauses.getD position []).filter fun l => !g.values.contains l.var

/-- Makes the clauses inactive of which something is left, but nothing over `vars`. -/
def restrict (g : Residual) (vars : SortedSet Var) : Residual :=
  let outside := g.active.toList.filter fun position =>
    let left := g.residualClause position
    !left.isEmpty && !left.any fun l => vars.contains l.var
  outside.foldl deactivate g

/-- Undoes the last change. -/
def undo (g : Residual) : Residual :=
  match g.changes with
  | [] => g
  | .deactivated position :: rest =>
      { g with active := g.active.insert position, changes := rest }
  | .assigned v :: rest =>
      { g with values := g.values.erase v, trail := g.trail.pop, changes := rest }
  | .fixed :: rest => { g with trail := g.trail.pop, changes := rest }

/-- The moment to which a scope that opens now will return. -/
def mark (g : Residual) : Nat := g.changes.length

/-- Returns to a moment by undoing all later changes. -/
def rollback (g : Residual) (moment : Nat) : Residual :=
  Nat.repeat undo (g.changes.length - moment) g

-----------------------------------------------------------------------------------------
-- Views
-----------------------------------------------------------------------------------------

/-- What is left of the active clauses. -/
def current (g : Residual) : Clauses := g.active.toList.map g.residualClause

/-- The part of the formula over `vars` as a formula of its own, with the same assignment. -/
def part (g : Residual) (vars : SortedSet Var) : Residual :=
  let clauses := g.current.filter fun clause => clause.any fun l => vars.contains l.var
  { ofClauses clauses with trail := g.trail }

/-- The literals of the assignment, in order. -/
def assignment (g : Residual) : List Lit := g.trail.toList

/-- Whether a variable has a value. -/
def isAssigned (g : Residual) (v : Var) : Bool := g.values.contains v

/-- The number of active clauses. -/
def clauseCount (g : Residual) : Nat := g.active.size

/-- Whether no clause is active. -/
def isEmpty (g : Residual) : Bool := g.active.isEmpty

/-- Whether nothing is left of an active clause. -/
def hasEmptyClause (g : Residual) : Bool :=
  g.active.toList.any fun position =>
    (g.clauses.getD position []).all fun l => g.values.contains l.var

/-- The variables without a value that occur in an active clause. -/
def vars (g : Residual) : SortedSet Var := g.current.vars

/-- How often a variable without a value occurs in active clauses. -/
def occurrences (g : Residual) (v : Var) : Nat :=
  if g.values.contains v then 0 else (g.positions.getD v []).countP g.active.contains

/-- How often each variable without a value occurs in active clauses. -/
def occurrenceCounts (g : Residual) : Std.TreeMap Var Nat := g.current.occurrenceCounts

/-- Whether at most two literals are left of every active clause. -/
def isTwoCnf (g : Residual) : Bool := g.current.all fun clause => clause.length ≤ 2

/-- Variables whose flipping makes the formula Horn, if there are any. -/
def hornRenaming? (g : Residual) : Checked (Option (SortedSet Var)) :=
  KnowledgeCompiler.hornRenaming? g.current

/-- The place of each variable in their ascending list. -/
def places (g : Residual) : Std.TreeMap Var Nat := Std.TreeMap.ofList g.vars.toList.zipIdx

/-- The places of the variables, where those of each clause are linked. -/
def links (g : Residual) : LinkForest :=
  let places := g.places
  g.current.foldl
    (fun forest clause => forest.linkAll (clause.map fun l => places.getD l.var 0))
    (LinkForest.singletons g.vars.size)

/-- The connected components of the residual formula, as sets of variables. -/
def components (g : Residual) : List (SortedSet Var) := g.links.groups g.vars.toList

end Residual

end KnowledgeCompiler
