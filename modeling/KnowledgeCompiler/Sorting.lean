/-! Stable sorting by insertion, and the removal of neighbouring repetitions. -/

namespace KnowledgeCompiler

/-- Inserts an element before the first one that it does not come after. -/
def insertBy {α : Type} (le : α → α → Bool) (a : α) : List α → List α
  | [] => [a]
  | b :: rest => if le a b then a :: b :: rest else b :: insertBy le a rest

/-- Sorts a list; elements that `le` relates both ways keep their order. -/
def sortBy {α : Type} (le : α → α → Bool) (items : List α) : List α :=
  items.foldr (insertBy le) []

/-- Keeps the first element of each run of equal neighbours. -/
def dropRepeats {α : Type} [DecidableEq α] : List α → List α
  | [] => []
  | [a] => [a]
  | a :: b :: rest => if a = b then dropRepeats (b :: rest) else a :: dropRepeats (b :: rest)

/-- Whether `a` comes no later than `b` in the order of their type. -/
def inOrder {α : Type} [Ord α] (a b : α) : Bool :=
  (compare a b).isLE

end KnowledgeCompiler
