import KnowledgeCompiler.Formula
import KnowledgeCompiler.Solver.Learning
import KnowledgeCompiler.Solver.Model

/-! The search for models of a formula. -/

namespace KnowledgeCompiler

/-- Whether a clause has a literal that the given values make true. -/
def Clause.isSatisfied (values : Std.TreeMap Var Bool) (clause : Clause) : Bool :=
  clause.any fun l => values[l.var]? == some l.isPositive

namespace Clauses

/-- The clauses after a literal has become true. -/
def assign (l : Lit) (clauses : Clauses) : Clauses :=
  (clauses.filter fun clause => !clause.contains l).map fun clause => clause.filter (· != -l)

/-- The clauses after several variables have got a value. -/
def assignAll (values : Std.TreeMap Var Bool) (clauses : Clauses) : Clauses :=
  (clauses.filter fun clause => !clause.isSatisfied values).map
    fun clause => clause.filter fun l => !values.contains l.var

/-- A shortest clause, the first of those. -/
def shortest? : Clauses → Option Clause
  | [] => none
  | clause :: rest =>
      match shortest? rest with
      | none => some clause
      | some other => if clause.length ≤ other.length then some clause else some other

/-- Literals that satisfy all clauses, if there are any. A literal of a shortest clause is tried
first and then its complement; a clause of one literal leaves no choice. Every step settles a
variable, so the number of variables and one more is enough fuel.
-/
def search : Nat → Clauses → Option (List Lit)
  | 0, _ => none
  | fuel + 1, clauses =>
      match clauses.shortest? with
      | none => some []
      | some [] => none
      | some [l] => (search fuel (clauses.assign l)).map (l :: ·)
      | some (l :: _) =>
          match search fuel (clauses.assign l) with
          | some found => some (l :: found)
          | none => (search fuel (clauses.assign (-l))).map (-l :: ·)

/-- Literals that satisfy all clauses, if there are any. The learning search is fast, and its verdict
counts if its evidence holds; otherwise the plain search decides.
-/
def findModel? (clauses : Clauses) : Option (List Lit) :=
  let plain (_ : Unit) := clauses.search (clauses.vars.size + 1)
  match clauses.verdict with
  | .model literals =>
      let values := Model.valuesOf literals
      if clauses.all (Clause.isSatisfied values) then some literals else plain ()
  | .refutation derivations => if refutes clauses.toArray derivations then none else plain ()
  | .undecided => plain ()

end Clauses

/-- Literals that satisfy the formula, if there are any that extend an assumption without
complementary literals. The assumption comes last.
-/
def Formula.findModel? (formula : Formula) (assumption : List Lit) : Option (List Lit) :=
  let reduced := formula.clauses.assignAll (Model.valuesOf assumption)
  reduced.findModel?.map (· ++ assumption)

end KnowledgeCompiler
