import Std.Data.TreeMap
import KnowledgeCompiler.Fault

/-! A store that counts how often look-ups succeed. -/

namespace KnowledgeCompiler

/-- Values by key, with the numbers of successful and failed look-ups. -/
structure Tally (κ ν : Type) [Ord κ] where
  /-- The values. -/
  entries : Std.TreeMap κ ν := ∅
  /-- The number of look-ups that found a value. -/
  hits : Nat := 0
  /-- The number of look-ups that found none. -/
  misses : Nat := 0

namespace Tally

variable {κ ν : Type} [Ord κ]

/-- The largest number of entries for which room can be made. -/
def largestRoom : Nat := 126100789566373888

/-- A store without entries and with room for a number of them. -/
def withRoom (room : Nat) : Checked (Tally κ ν) :=
  if largestRoom < room then throw .unaddressable else return {}

/-- Number of entries. -/
def size (t : Tally κ ν) : Nat := t.entries.size

/-- Whether there are no entries. -/
def isEmpty (t : Tally κ ν) : Bool := t.entries.isEmpty

/-- The share of look-ups that found a value; zero without look-ups. -/
def hitRate (t : Tally κ ν) : Float :=
  if t.hits + t.misses = 0 then 0.0
  else Float.ofNat t.hits / Float.ofNat (t.hits + t.misses)

/-- Removes all entries and keeps the numbers. -/
def clear (t : Tally κ ν) : Tally κ ν := { t with entries := ∅ }

/-- The value of a key, without counting. -/
def peek? (t : Tally κ ν) (key : κ) : Option ν := t.entries[key]?

/-- Looks a key up and counts. -/
def get (t : Tally κ ν) (key : κ) : Option ν × Tally κ ν :=
  match t.peek? key with
  | some value => (some value, { t with hits := t.hits + 1 })
  | none => (none, { t with misses := t.misses + 1 })

/-- Adds an entry, unless the key has one. -/
def insert (t : Tally κ ν) (key : κ) (value : ν) : Tally κ ν :=
  { t with entries := t.entries.insertIfNew key value }

end Tally

end KnowledgeCompiler
