import KnowledgeCompiler.Proofs.Assignment

/-! What the tables of occurrences hold: positions by key, counts by variable, and clause lengths by
variable. Each table is known by its look-ups.
-/

namespace KnowledgeCompiler.Clauses

-----------------------------------------------------------------------------------------
-- Positions
-----------------------------------------------------------------------------------------

section Positions

variable {κ : Type} [Ord κ] [Std.TransOrd κ] [Std.LawfulEqOrd κ] [DecidableEq κ]

/-- The positions of a key in numbered clauses, once for each occurrence. -/
def positionsIn (key : Lit → κ) (k : κ) (entries : List (Clause × Nat)) : List Nat :=
  entries.flatMap fun entry => (entry.1.filter fun l => key l = k).map fun _ => entry.2

omit [Ord κ] [Std.TransOrd κ] [Std.LawfulEqOrd κ] in
theorem mem_positionsIn {key : Lit → κ} {k : κ} {entries : List (Clause × Nat)} {position : Nat}
    : position ∈ positionsIn key k entries
      ↔ ∃ clause, (clause, position) ∈ entries ∧ ∃ l ∈ clause, key l = k := by
  simp only [positionsIn, List.mem_flatMap, List.mem_map, List.mem_filter, decide_eq_true_eq]
  constructor
  · rintro ⟨⟨clause, found⟩, inside, l, ⟨member, same⟩, rfl⟩
    exact ⟨clause, inside, l, member, same⟩
  · rintro ⟨clause, inside, l, member, same⟩
    exact ⟨(clause, position), inside, l, ⟨member, same⟩, rfl⟩

/-- Entering the literals of one clause adds its position once for each occurrence of the key;
induction on the clause.
-/
theorem getD_enterClause (key : Lit → κ) (k : κ) (position : Nat) (clause : Clause)
    (index : Std.TreeMap κ (List Nat))
    : (clause.foldr
        (fun l index => index.alter (key l) fun found => some (position :: found.getD []))
        index).getD k []
      = ((clause.filter fun l => key l = k).map fun _ => position) ++ index.getD k [] := by
  induction clause with
  | nil => simp
  | cons l rest ih =>
      simp only [List.foldr_cons, Std.TreeMap.getD_alter]
      by_cases same : key l = k
      · simp only [Std.TreeMap.getD_eq_getD_getElem?] at ih ⊢
        simp [same, ih]
      · simpa [same] using ih

/-- Entering the literals of one clause adds their keys; induction on the clause. -/
theorem mem_enterClause (key : Lit → κ) (k : κ) (position : Nat) (clause : Clause)
    (index : Std.TreeMap κ (List Nat))
    : k ∈ clause.foldr
        (fun l index => index.alter (key l) fun found => some (position :: found.getD []))
        index
      ↔ (∃ l ∈ clause, key l = k) ∨ k ∈ index := by
  induction clause with
  | nil => simp
  | cons l rest ih =>
      simp only [List.foldr_cons, Std.TreeMap.mem_alter, Std.LawfulEqOrd.compare_eq_iff_eq,
        List.exists_mem_cons_iff]
      by_cases same : key l = k
      · simp [same]
      · simp [same, ih]

/-- The positions of a key in the table of positions. -/
theorem getD_positionsBy (key : Lit → κ) (k : κ) (clauses : Clauses)
    : (clauses.positionsBy key).getD k [] = positionsIn key k clauses.zipIdx := by
  unfold positionsBy
  generalize clauses.zipIdx = entries
  induction entries with
  | nil => simp [positionsIn]
  | cons entry rest ih =>
      rw [List.foldr_cons, getD_enterClause, ih]
      simp [positionsIn]

/-- A position belongs to a key if its clause has a literal of that key. -/
theorem mem_getD_positionsBy {key : Lit → κ} {k : κ} {clauses : Clauses} {position : Nat}
    : position ∈ (clauses.positionsBy key).getD k []
      ↔ ∃ clause, clauses[position]? = some clause ∧ ∃ l ∈ clause, key l = k := by
  rw [getD_positionsBy, mem_positionsIn]
  simp only [List.mem_zipIdx_iff_getElem?]

/-- The keys of the table of positions are those of the literals. -/
theorem mem_positionsBy {key : Lit → κ} {k : κ} {clauses : Clauses}
    : k ∈ clauses.positionsBy key ↔ ∃ clause ∈ clauses, ∃ l ∈ clause, key l = k := by
  have numbered : ∀ entries : List (Clause × Nat),
      k ∈ entries.foldr
        (fun entry index =>
          entry.1.foldr
            (fun l index => index.alter (key l) fun found => some (entry.2 :: found.getD []))
            index)
        (∅ : Std.TreeMap κ (List Nat))
      ↔ ∃ clause ∈ entries.map Prod.fst, ∃ l ∈ clause, key l = k := by
    intro entries
    induction entries with
    | nil => simp
    | cons entry rest ih =>
        rw [List.foldr_cons, mem_enterClause, ih, List.map_cons, List.exists_mem_cons_iff]
  unfold positionsBy
  rw [numbered, List.zipIdx_map_fst]

end Positions

-----------------------------------------------------------------------------------------
-- Counts and lengths
-----------------------------------------------------------------------------------------

/-- Counting literals adds the number of their occurrences to a count; induction on the literals. -/
theorem getElem?_countLiterals (v : Var) (literals : List Lit) (counts : Std.TreeMap Var Nat)
    : (literals.foldl
        (fun counts l => counts.alter l.var fun count => some (count.getD 0 + 1)) counts)[v]?
      = if ∃ l ∈ literals, l.var = v
        then some (counts.getD v 0 + literals.countP fun l => l.var = v)
        else counts[v]? := by
  induction literals generalizing counts with
  | nil => simp
  | cons l rest ih =>
      rw [List.foldl_cons, ih]
      simp only [List.exists_mem_cons_iff, Std.TreeMap.getElem?_alter, Std.TreeMap.getD_alter,
        Nat.compare_eq_eq]
      by_cases same : l.var = v
      · by_cases later : ∃ l ∈ rest, l.var = v
        · simp [same, later, Std.TreeMap.getD_eq_getD_getElem?]
          omega
        · have none : List.countP (fun l => decide (Lit.var l = v)) rest = 0 := by
            simpa [List.countP_eq_zero] using later
          simp [same, later, none, Std.TreeMap.getD_eq_getD_getElem?]
      · simp [same]

/-- The counts of the variables that occur. -/
theorem getElem?_occurrenceCounts (clauses : Clauses) (v : Var)
    : clauses.occurrenceCounts[v]?
      = if v ∈ clauses.vars then some (clauses.flatten.countP fun l => l.var = v) else none := by
  rw [occurrenceCounts, getElem?_countLiterals]
  have occurs : (∃ l ∈ clauses.flatten, l.var = v) ↔ v ∈ clauses.vars := by
    rw [mem_vars]
    simp only [List.mem_flatten]
    grind
  simp only [occurs, Std.TreeMap.getD_emptyc, Std.TreeMap.getElem?_emptyc, Nat.zero_add]

/-- A variable has a count if it occurs. -/
theorem mem_occurrenceCounts {clauses : Clauses} {v : Var}
    : v ∈ clauses.occurrenceCounts ↔ v ∈ clauses.vars := by
  rw [Std.TreeMap.mem_iff_isSome_getElem?, getElem?_occurrenceCounts]
  by_cases member : v ∈ clauses.vars <;> simp [member]

/-- The variables with recorded clause lengths are those that occur; induction on the clauses and on
each clause.
-/
theorem mem_lengthsByVariable {clauses : Clauses} {v : Var}
    : v ∈ clauses.lengthsByVariable ↔ v ∈ clauses.vars := by
  have enter : ∀ (n : Nat) (clause : Clause) (lengths : Std.TreeMap Var (List Nat)),
      v ∈ clause.foldr
        (fun l lengths => lengths.alter l.var fun found => some (n :: found.getD [])) lengths
      ↔ (∃ l ∈ clause, l.var = v) ∨ v ∈ lengths := by
    intro n clause lengths
    induction clause with
    | nil => simp
    | cons l rest ih =>
        simp only [List.foldr_cons, Std.TreeMap.mem_alter, Nat.compare_eq_eq,
          List.exists_mem_cons_iff]
        by_cases same : l.var = v
        · simp [same]
        · simp [same, ih]
  rw [mem_vars]
  unfold lengthsByVariable
  induction clauses with
  | nil => simp
  | cons clause rest ih =>
      rw [List.foldr_cons, enter, List.exists_mem_cons_iff]
      exact or_congr Iff.rfl ih

-----------------------------------------------------------------------------------------
-- The variable with the most occurrences
-----------------------------------------------------------------------------------------

theorem mem_counts_iff (clauses : Clauses) {v : Var}
    : v ∈ clauses.occurrenceCounts.toList.map Prod.fst ↔ v ∈ clauses.vars := by
  rw [Std.TreeMap.map_fst_toList_eq_keys, Std.TreeMap.mem_keys, mem_occurrenceCounts]

/-- The first entry with the largest count is one of the entries; induction on them. -/
theorem foldl_leader_mem {entries : List (Var × Nat)} {start : Var × Nat}
    : ∃ leader ∈ start :: entries,
        entries.foldl
          (fun best entry =>
            match best with
            | none => some entry
            | some leader => if leader.2 < entry.2 then some entry else best)
          (some start)
        = some leader := by
  induction entries generalizing start with
  | nil => exact ⟨start, by simp, rfl⟩
  | cons entry rest ih =>
      rw [List.foldl_cons]
      dsimp only
      split
      · obtain ⟨leader, member, found⟩ := @ih entry
        exact ⟨leader, List.mem_cons_of_mem start member, found⟩
      · obtain ⟨leader, member, found⟩ := @ih start
        refine ⟨leader, ?_, found⟩
        rcases List.mem_cons.mp member with rfl | later
        · exact List.mem_cons_self
        · exact List.mem_cons_of_mem start (List.mem_cons_of_mem entry later)

/-- The variable with the most occurrences occurs, if any variable does. -/
theorem mostOccurring_spec (clauses : Clauses)
    : (clauses.mostOccurring = none ∧ ∀ v, ¬ v ∈ clauses.vars)
      ∨ ∃ v ∈ clauses.vars, clauses.mostOccurring = some v := by
  have mem_counts {v : Var} := @mem_counts_iff clauses v
  unfold mostOccurring mostFrequent
  dsimp only
  generalize clauses.occurrenceCounts.toList = counts at mem_counts ⊢
  cases counts with
  | nil => exact .inl ⟨rfl, fun v inside => by simpa using mem_counts.mpr inside⟩
  | cons entry rest =>
      obtain ⟨leader, member, found⟩ := @foldl_leader_mem rest entry
      refine .inr ⟨leader.1, mem_counts.mp (List.mem_map_of_mem member), ?_⟩
      rw [List.foldl_cons]
      exact congrArg (Option.map Prod.fst) found

end KnowledgeCompiler.Clauses
