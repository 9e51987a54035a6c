import KnowledgeCompiler.Literal
import KnowledgeCompiler.SortedSet

/-! What a query sees of its arguments at one node. -/

namespace KnowledgeCompiler

/-- The restriction of a query to the variables of a node, in ascending order: the assumed value of
each variable, and whether it is marked. Queries with the same restriction at a node have the same
answer there.
-/
structure Restriction where
  /-- The assumed value of each variable. -/
  values : List (Option Bool)
  /-- Whether each variable is marked. -/
  marked : List Bool
  deriving Repr, DecidableEq

namespace Restriction

/-- The value that literals give to a variable; a positive literal comes first. -/
def valueOf (literals : List Lit) (v : Var) : Checked (Option Bool) := do
  if literals.contains (Lit.word v) then
    return some true
  if literals.contains (← Lit.negate (Lit.word v)) then
    return some false
  return none

/-- The restriction to `vars` of a query that assumes `literals` and marks variables. -/
def of (vars : SortedSet Var) (literals : List Lit) (marked : List Var)
    : Checked Restriction := do
  return {
    values := ← vars.toList.mapM (valueOf literals)
    marked := vars.toList.map marked.contains
  }

/-- A restriction as text: a character for each value, a bar, and a character for each mark. -/
def text (r : Restriction) : String :=
  let value : Option Bool → Char
    | some true => '1'
    | some false => '0'
    | none => '-'
  String.ofList
    (r.values.map value ++ ['|'] ++ r.marked.map fun mark => if mark then '1' else '-')

end Restriction

end KnowledgeCompiler
