import KnowledgeCompiler.Fault

/-! Variables and literals.

A variable is a positive number, and a literal is the number of its variable with the sign of its
polarity: `-3` is the negation of variable `3`. Literals are 32-bit words. The word after the
largest positive literal is the least literal, whose variable is `2147483648`, and it is the only
literal that cannot be negated.
-/

namespace KnowledgeCompiler

/-- A variable, counted from one. -/
abbrev Var := Nat

/-- A literal: a variable, negative when it is negated. -/
abbrev Lit := Int

namespace Lit

/-- The least 32-bit word. Its negation does not fit. -/
def least : Lit := -2147483648

/-- The variable of a literal. -/
def var (l : Lit) : Var := l.natAbs

/-- Whether a literal is positive. Zero counts as negative. -/
def isPositive (l : Lit) : Bool := decide (0 < l)

/-- The complementary literal. -/
def negate (l : Lit) : Checked Lit :=
  if l = least then .error .negationOverflow else .ok (-l)

/-- The word of a variable: numbers of half the range and above come out negative. -/
def word (v : Var) : Lit := Int.bmod v 4294967296

/-- The literal of a variable with the given polarity. -/
def ofVar (v : Var) (polarity : Bool) : Checked Lit :=
  if polarity then .ok (word v) else negate (word v)

/-- Negation succeeds above the least literal. -/
theorem negate_eq_ok {l : Lit} (above : least < l) : negate l = .ok (-l) :=
  if_neg (Int.ne_of_gt above)

/-- The word of a variable below half the range is the variable. -/
theorem word_eq_self {v : Var} (small : v < 2147483648) : word v = v := by
  unfold word
  grind

end Lit

/-- Whether the list has a literal together with its complement; zero is its own complement. -/
def hasComplements (literals : List Lit) : Checked Bool :=
  List.anyM (fun l => do return literals.contains (← Lit.negate l)) literals

end KnowledgeCompiler
