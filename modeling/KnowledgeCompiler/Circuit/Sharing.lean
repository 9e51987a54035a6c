import Std.Data.TreeMap
import KnowledgeCompiler.Circuit.Node

/-! The table through which equal nodes are shared.

Entries are kept by the fingerprint of their signature, a number that is the same for equal gates, so
that few gates have to be compared. The fingerprint decides nothing else: what the table holds is
given by `find?` alone.
-/

namespace KnowledgeCompiler

/-- A number for a list of numbers. -/
def fingerprintOf (seed : Nat) (numbers : List Nat) : Nat :=
  numbers.foldl (fun sum number => (31 * sum + number) % 4294967291) seed

/-- A number for a gate. -/
def Gate.fingerprint : Gate → Nat
  | .constant value => fingerprintOf 1 [value.toNat]
  | .literal l => fingerprintOf 2 [l.var, l.isPositive.toNat]
  | .and children => fingerprintOf 3 children
  | .or decision children => fingerprintOf 4 (decision.getD 0 :: children)
  | .mapping names child =>
      fingerprintOf 5 (child :: names.toGlobal.entries.flatMap fun entry => [entry.1, entry.2])
  | .twoCnf _ => 6
  | .horn _ => 7

/-- For each signature the node that is shared for it. -/
structure SharingTable where
  /-- The entries by fingerprint. -/
  buckets : Std.TreeMap Nat (List (Gate × NodeId)) := ∅

namespace SharingTable

/-- The node of a signature. -/
def find? (table : SharingTable) (key : Gate) : Option NodeId :=
  (table.buckets.getD key.fingerprint []).lookup key

/-- Makes a node the one of a signature. -/
def insert (table : SharingTable) (key : Gate) (id : NodeId) : SharingTable :=
  ⟨table.buckets.alter key.fingerprint fun bucket => some ((key, id) :: bucket.getD [])⟩

/-- Removes a signature. -/
def erase (table : SharingTable) (key : Gate) : SharingTable :=
  ⟨table.buckets.alter key.fingerprint fun bucket => some ((bucket.getD []).filter (·.1 != key))⟩

/-- The empty table has no signature. -/
theorem find?_empty (key : Gate) : (SharingTable.mk ∅).find? key = none := by
  simp [find?]

/-- After an insertion the signature has the new node, and the other ones have what they had; by
cases on whether the fingerprints agree.
-/
theorem find?_insert (table : SharingTable) (key other : Gate) (id : NodeId)
    : (table.insert key id).find? other = if other = key then some id else table.find? other := by
  unfold find? insert
  by_cases same : key.fingerprint = other.fingerprint
  · by_cases equal : other = key
    · simp [equal]
    · have differ : (other == key) = false := by simpa using equal
      simp [same, equal, List.lookup_cons, differ, Std.TreeMap.getD_eq_getD_getElem?]
  · have equal : ¬ other = key := fun equal => same (equal ▸ rfl)
    simp [Std.TreeMap.getD_alter, same, equal]

/-- A signature that has been filtered out is not found, and filtering loses no other one; induction
on the entries.
-/
theorem lookup_filter (key other : Gate) (entries : List (Gate × NodeId))
    : (entries.filter (·.1 != key)).lookup other
      = if other = key then none else entries.lookup other := by
  induction entries with
  | nil => simp
  | cons entry rest ih =>
      obtain ⟨gate, id⟩ := entry
      by_cases removed : gate = key
      · by_cases equal : other = key
        · simpa [removed, equal] using ih
        · have differ : (other == key) = false := by simpa using equal
          simpa [removed, equal, List.lookup_cons, differ] using ih
      · by_cases found : other = gate
        · simp [removed, found]
        · have differ : (other == gate) = false := by simpa using found
          simpa [removed, List.lookup_cons, differ] using ih

/-- A removed signature has no node, and the other ones have what they had; by cases on whether the
fingerprints agree.
-/
theorem find?_erase (table : SharingTable) (key other : Gate)
    : (table.erase key).find? other = if other = key then none else table.find? other := by
  unfold find? erase
  by_cases same : key.fingerprint = other.fingerprint
  · by_cases equal : other = key
    · simp [equal, lookup_filter]
    · simp [same, equal, lookup_filter, Std.TreeMap.getD_eq_getD_getElem?]
  · have equal : ¬ other = key := fun equal => same (equal ▸ rfl)
    simp [Std.TreeMap.getD_alter, same, equal]

end SharingTable

end KnowledgeCompiler
