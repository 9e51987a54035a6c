/-! Requests outside the domain of an operation.

Literals are 32-bit signed integers, so the least of them has no negation. Some operations also
ask something of their arguments that their types do not say: a literal is not zero, a 2-CNF
clause is short, a hyperedge only has pins that exist, a solver has room for the variables. A
request that breaks such a demand is a fault. A fault is not an error of the domain: it carries no
message, and nothing built before it can be used.
-/

namespace KnowledgeCompiler

/-- What a faulty request asked for. -/
inductive Fault where
  /-- The negation of the least literal. -/
  | negationOverflow
  /-- A clause or a circuit literal over the literal zero. -/
  | zeroLiteral
  /-- A 2-CNF formula with a clause of more than two literals. -/
  | wideClause
  /-- A Horn formula with two positive literals in one clause. -/
  | notHorn
  /-- A model count over fewer variables than the clauses mention. -/
  | uncoveredVariables
  /-- A hyperedge with a pin that is no node. -/
  | pinOutOfRange
  /-- The side of a node to which no side is assigned. -/
  | sideMissing
  /-- A variable that a solver cannot represent. -/
  | variableTooLarge
  /-- Room for more entries than memory can address. -/
  | unaddressable
  /-- A recursion deeper than the bound computed for it. -/
  | exhausted
  deriving Repr, DecidableEq

/-- The result of a computation that may meet a fault. -/
abbrev Checked := Except Fault

/-- Why an operation stopped: an error of its domain, or a fault in the request. -/
inductive Failure (ε : Type) where
  | error (cause : ε)
  | fault (cause : Fault)
  deriving Repr

/-- The result of a computation that may meet a fault or end in an error. -/
abbrev Attempt (ε : Type) := Except (Failure ε)

instance {ε : Type} : MonadLift Checked (Attempt ε) := ⟨fun result => result.mapError .fault⟩

/-- The elements that pass a checked test, in order. -/
def filterChecked {α : Type} (test : α → Checked Bool) : List α → Checked (List α)
  | [] => pure []
  | a :: rest => do
      let keep ← test a
      let others ← filterChecked test rest
      pure (if keep then a :: others else others)

end KnowledgeCompiler
