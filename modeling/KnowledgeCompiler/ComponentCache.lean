import KnowledgeCompiler.Circuit.Kind
import KnowledgeCompiler.Renaming
import KnowledgeCompiler.Residual
import KnowledgeCompiler.Tally

/-! The cache of compiled components.

A component is found again by its residual clauses. The key may also disregard the names of the
variables: then the clauses are written over the numbers that the variables get in an order which
depends on their occurrences only, and a renaming leads from the variables to these numbers.
-/

namespace KnowledgeCompiler

/-- A formula as a set of clauses with ascending literals. -/
abbrev ComponentKey := SortedSet Clause

/-- The key of clauses as they are. -/
def ComponentKey.ofClauses (clauses : Clauses) : ComponentKey :=
  @SortedSet.ofList Clause _ _ List.instLE _ _ (clauses.map (sortBy inOrder))

/-- How components are recognised. -/
inductive CachingScheme where
  /-- By their clauses. -/
  | exact
  /-- By their clauses up to the names of the variables, if they have at least this many. -/
  | upToNames (exactBelow : Nat)
  deriving Repr, DecidableEq

/-- How the variables occur, names aside: how often positively and negatively, and the ascending
lengths of their clauses.
-/
def occurrenceProfiles (clauses : Clauses) : List (List Nat × Var) :=
  let positive := Clauses.occurrenceCounts (clauses.map (List.filter Lit.isPositive))
  clauses.lengthsByVariable.toList.map fun entry =>
    let own := entry.2
    let asserted := positive.getD entry.1 0
    (asserted :: (own.length - asserted) :: sortBy (fun m n => m ≤ n) own, entry.1)

/-- Numbers the variables from one on, by their profiles and then by their names. -/
def canonicalNumbers (clauses : Clauses) : Renaming :=
  let ordered := sortBy (fun a b => inOrder a.1 b.1) (occurrenceProfiles clauses)
  Renaming.ofList (ordered.zipIdx.map fun entry => (entry.1.2, entry.2 + 1))

/-- A literal over the number of its variable. -/
def numbered (numbers : Renaming) (l : Lit) : Lit :=
  let n : Int := (numbers.find? l.var).getD 0
  if l.isPositive then n else -n

/-- The key of a residual formula, and the renaming into the variables of the key if they are
numbers.
-/
def CachingScheme.keyOf (scheme : CachingScheme) (g : Residual) : ComponentKey × Option Renaming :=
  let clauses := g.current
  match scheme with
  | .exact => (.ofClauses clauses, none)
  | .upToNames exactBelow =>
      if clauses.vars.size < exactBelow then (.ofClauses clauses, none)
      else
        let numbers := canonicalNumbers clauses
        (.ofClauses (clauses.map (List.map (numbered numbers))), some numbers)

/-- A compiled component: its node, and the renaming of the node's variables into those of the key. -/
structure CacheEntry where
  node : NodeId
  names : Option Renaming
  deriving DecidableEq

/-- The compiled components. -/
structure ComponentCache where
  /-- How components are recognised. -/
  scheme : CachingScheme
  /-- The components by key. -/
  entries : Tally ComponentKey CacheEntry := {}

namespace ComponentCache

/-- Looks a component up. -/
def get (cache : ComponentCache) (key : ComponentKey) : Option CacheEntry × ComponentCache :=
  let (found, entries) := cache.entries.get key
  (found, { cache with entries })

/-- Adds a component, unless the key has one. -/
def add (cache : ComponentCache) (key : ComponentKey) (entry : CacheEntry) : ComponentCache :=
  { cache with entries := cache.entries.insert key entry }

end ComponentCache

end KnowledgeCompiler
