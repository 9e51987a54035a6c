import Std.Data.TreeMap
import KnowledgeCompiler.Literal

/-! Models as a solver gives them. -/

namespace KnowledgeCompiler

/-- A model: values for the variables from one up to a largest one. -/
structure Model where
  /-- The largest variable with a value. -/
  reach : Nat
  /-- The values. A variable that is not listed is false. -/
  values : Std.TreeMap Var Bool

namespace Model

/-- The values that a list of literals gives to variables. Later literals win. -/
def valuesOf (literals : List Lit) : Std.TreeMap Var Bool :=
  literals.foldl (fun values l => values.insert l.var l.isPositive) ∅

/-- The model of a list of literals. -/
def ofLiterals (reach : Nat) (literals : List Lit) : Model := ⟨reach, valuesOf literals⟩

/-- The literal of a variable that is true in the model, if the variable has a value. -/
def literal? (model : Model) (v : Var) : Option Lit :=
  if v == 0 || model.reach < v then none
  else if model.values.getD v false then some (v : Int)
  else some (-(v : Int))

/-- Whether a literal is true in the model. -/
def contains (model : Model) (l : Lit) : Bool := model.literal? l.var == some l

/-- The true literals by ascending variable. -/
def literals (model : Model) : List Lit :=
  (List.range' 1 model.reach).filterMap model.literal?

end Model

end KnowledgeCompiler
