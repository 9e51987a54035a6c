import KnowledgeCompiler.Clause

/-! Renamings of variables.

A renaming is a finite map between variables. A bijection is a renaming that sends no two variables
to the same one; it relates the variables inside a shared sub-circuit, called local, to those under
which the sub-circuit is exposed, called global.
-/

namespace KnowledgeCompiler

/-- Inserts an entry into an association list with ascending keys, in place of an entry with the
same key.
-/
def insertEntry (v image : Var) : List (Var × Var) → List (Var × Var)
  | [] => [(v, image)]
  | entry :: rest =>
      if v < entry.1 then (v, image) :: entry :: rest
      else if v = entry.1 then (v, image) :: rest
      else entry :: insertEntry v image rest

/-- An inserted key is the new one or an old one; induction on the entries. -/
theorem mem_insertEntry {v image : Var} {entries : List (Var × Var)} {entry : Var × Var}
    (member : entry ∈ insertEntry v image entries)
    : entry = (v, image) ∨ entry ∈ entries := by
  induction entries with
  | nil => simpa [insertEntry] using member
  | cons head rest ih =>
      unfold insertEntry at member
      split at member
      · simpa using member
      · split at member <;> grind

/-- Insertion keeps the keys ascending; induction on the entries. -/
theorem pairwise_insertEntry (v image : Var) {entries : List (Var × Var)}
    (order : entries.Pairwise (·.1 < ·.1))
    : (insertEntry v image entries).Pairwise (·.1 < ·.1) := by
  induction entries with
  | nil => simp [insertEntry]
  | cons head rest ih =>
      have below := (List.pairwise_cons.mp order).1
      unfold insertEntry
      split
      · grind [List.pairwise_cons]
      · split
        · grind [List.pairwise_cons]
        · refine List.Pairwise.cons (fun entry member => ?_) (ih order.of_cons)
          rcases mem_insertEntry member with rfl | old
          · grind
          · exact below entry old

/-- A finite map between variables, listed with ascending sources. -/
structure Renaming where
  /-- Each variable with its image. -/
  entries : List (Var × Var)
  /-- The sources ascend. -/
  ascending : entries.Pairwise (·.1 < ·.1)

namespace Renaming

instance : DecidableEq Renaming := fun r s =>
  decidable_of_iff (r.entries = s.entries) (by cases r; cases s; simp)

instance : Repr Renaming := ⟨fun r n => reprPrec r.entries n⟩

/-- The renaming that is defined nowhere. -/
def empty : Renaming := ⟨[], List.Pairwise.nil⟩

instance : Inhabited Renaming := ⟨empty⟩

/-- Sends `v` to `image`, whatever its image was before. -/
def insert (r : Renaming) (v image : Var) : Renaming :=
  ⟨insertEntry v image r.entries, pairwise_insertEntry v image r.ascending⟩

/-- The renaming of a list of pairs; a later pair replaces an earlier one of the same source. -/
def ofList (pairs : List (Var × Var)) : Renaming :=
  pairs.foldl (fun r pair => r.insert pair.1 pair.2) empty

/-- The renaming that sends each member of a set to itself. -/
def identityOn (vars : SortedSet Var) : Renaming :=
  ofList (vars.toList.map fun v => (v, v))

/-- The image of a variable. -/
def find? (r : Renaming) (v : Var) : Option Var := r.entries.lookup v

/-- Number of variables with an image. -/
def size (r : Renaming) : Nat := r.entries.length

/-- The renaming that sends images to sources; of several sources the largest counts. -/
def inverse (r : Renaming) : Renaming :=
  ofList (r.entries.map fun entry => (entry.2, entry.1))

/-- Whether every variable with an image is its own image. -/
def isIdentity (r : Renaming) : Bool := r.entries.all fun entry => entry.1 == entry.2

/-- First `r` and then `s`, where both are defined. -/
def andThen (r s : Renaming) : Renaming :=
  ofList (r.entries.filterMap fun entry => (s.find? entry.2).map fun image => (entry.1, image))

/-- The image of a literal: the literal of the variable's image with the same polarity. -/
def literal? (r : Renaming) (l : Lit) : Checked (Option Lit) :=
  match r.find? l.var with
  | none => return none
  | some image => return some (← Lit.ofVar image l.isPositive)

/-- The images of the literals that have one, in order. -/
def literals (r : Renaming) (ls : List Lit) : Checked (List Lit) := do
  return (← ls.mapM r.literal?).filterMap id

/-- The image of a clause, if all of its variables have one. -/
def clause? (r : Renaming) : Clause → Checked (Option Clause)
  | [] => return some []
  | l :: rest => do
      match ← r.literal? l with
      | none => return none
      | some image => return (← r.clause? rest).map (image :: ·)

/-- The image of a list of clauses, if all of their variables have one. -/
def clauses? (r : Renaming) : Clauses → Checked (Option Clauses)
  | [] => return some []
  | clause :: rest => do
      match ← r.clause? clause with
      | none => return none
      | some image => return (← r.clauses? rest).map (image :: ·)

end Renaming

/-- A renaming from local to global variables without two sources of one image. -/
structure Bijection where
  /-- The global variable of each local one. -/
  toGlobal : Renaming
  /-- The local variable of each global one. -/
  toLocal : Renaming
  /-- The two directions belong together. -/
  toLocal_eq : toLocal = toGlobal.inverse
  /-- No image is lost in turning the direction. -/
  injective : toGlobal.inverse.size = toGlobal.size
  deriving DecidableEq

namespace Bijection

/-- The bijection of a renaming, unless two sources share an image. -/
def ofRenaming? (r : Renaming) : Option Bijection :=
  if injective : r.inverse.size = r.size then some ⟨r, r.inverse, rfl, injective⟩ else none

/-- Whether every local variable is its own global variable. -/
def isIdentity (b : Bijection) : Bool := b.toGlobal.isIdentity

end Bijection

/-- Relates the variables of a stored result to those of the current problem. Both renamings lead
to a common numbering; the result goes there along `stored` and back along `current`. Without
renamings there is nothing to rename.
-/
def relate (stored current : Option Renaming) : Option Renaming :=
  match stored, current with
  | none, none => none
  | _, _ => some ((stored.getD .empty).andThen (current.getD .empty).inverse)

end KnowledgeCompiler
