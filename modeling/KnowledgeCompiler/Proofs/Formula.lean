import KnowledgeCompiler.Formula
import KnowledgeCompiler.Proofs.Assignment
import KnowledgeCompiler.Proofs.Checked

/-! Formulas in normal form: adding clauses over proper literals succeeds, keeps the clauses tidy and
within the variables of the formula, and conjoins the meaning of the clause.
-/

namespace KnowledgeCompiler

/-- Among literals that have a negation, the search for complementary pairs succeeds. -/
theorem hasComplements_eq {literals : List Lit} (negatable : ∀ l ∈ literals, l ≠ Lit.least)
    : hasComplements literals = .ok (literals.any fun l => literals.contains (-l)) := by
  refine Checked.anyM_ok (fun l member => ?_)
  rw [show Lit.negate l = .ok (-l) from if_neg (negatable l member)]
  rfl

theorem hasComplements_ok {literals : List Lit} (proper : ∀ l ∈ literals, l.Proper)
    : hasComplements literals = .ok (literals.any fun l => literals.contains (-l)) :=
  hasComplements_eq fun l member => (proper l member).ne_least

/-- What the search for complementary pairs tells when it succeeds. -/
theorem hasComplements_cases {literals : List Lit} {found : Bool} (done : hasComplements literals = .ok found)
    : found = true ∧ (∃ l ∈ literals, -l ∈ literals)
      ∨ found = false ∧ ∀ l ∈ literals, l ≠ Lit.least ∧ ¬ -l ∈ literals := by
  have tested : ∀ {l : Lit} {answer : Bool}, (do return literals.contains (← Lit.negate l)) = Except.ok answer
      → l ≠ Lit.least ∧ answer = literals.contains (-l) := by
    intro l answer tried
    by_cases extreme : l = Lit.least
    · simp [Lit.negate, extreme, bind, Except.bind] at tried
    · rw [show Lit.negate l = .ok (-l) from if_neg extreme] at tried
      exact ⟨extreme, (Except.ok.inj tried).symm⟩
  cases found with
  | true =>
      obtain ⟨l, member, holds⟩ := Checked.exists_of_anyM done
      exact .inl ⟨rfl, l, member, List.contains_iff_mem.mp (tested holds).2.symm⟩
  | false =>
      refine .inr ⟨rfl, fun l member => ?_⟩
      obtain ⟨negatable, absent⟩ := tested (Checked.forall_of_anyM done l member)
      exact ⟨negatable, by simpa using absent.symm⟩

namespace Formula

/-- The clauses are tidy and stay within the variables of the formula. -/
structure Normal (formula : Formula) : Prop where
  tidy : Clauses.Tidy formula.clauses
  covered : ∀ v, v ∈ Clauses.vars formula.clauses → v ≤ formula.variableCount

theorem foldl_max_var (literals : List Lit) (start : Nat)
    : start ≤ literals.foldl (fun count l => max count l.var) start
      ∧ ∀ l ∈ literals, l.var ≤ literals.foldl (fun count l => max count l.var) start := by
  induction literals generalizing start with
  | nil => simp
  | cons l rest ih =>
      obtain ⟨above, each⟩ := ih (max start l.var)
      simp only [List.foldl_cons]
      refine ⟨by omega, fun k member => ?_⟩
      rcases List.mem_cons.mp member with rfl | later
      · exact Nat.le_trans (Nat.le_max_right _ _) above
      · exact each k later

/-- An ascending list of proper literals without a complementary pair is a tidy clause. -/
theorem tidy_of_ascending {clause : Clause} (order : clause.Pairwise (· < ·))
    (proper : ∀ l ∈ clause, l.Proper) (apart : ∀ l ∈ clause, ¬ -l ∈ clause)
    : Clause.Tidy clause := by
  refine ⟨proper, ?_⟩
  rw [List.nodup_iff_pairwise_ne, List.pairwise_map]
  refine List.Pairwise.imp_of_mem (fun {l k} left right below same => ?_) order
  rcases Lit.eq_or_eq_neg same with equal | opposite
  · exact absurd below (equal ▸ Int.lt_irrefl l)
  · exact apart k right (opposite ▸ left)

/-- Adding a clause of proper literals succeeds and conjoins its meaning. A clause with a complementary
pair is always true and is left out.
-/
theorem add_ok {formula : Formula} (normal : formula.Normal) {clause : Clause}
    (proper : ∀ l ∈ clause, l.Proper)
    : ∃ grown, formula.add clause = .ok grown
      ∧ grown.Normal
      ∧ (∀ σ, Clauses.TrueIn σ grown.clauses
          ↔ Clauses.TrueIn σ formula.clauses ∧ Clause.TrueIn σ clause)
      ∧ ∀ v, v ∈ Clauses.vars grown.clauses
          → v ∈ Clauses.vars formula.clauses ∨ ∃ l ∈ clause, l.var = v := by
  have sortedProper : ∀ l ∈ (SortedSet.ofList clause).toList, l.Proper :=
    fun l member => proper l (SortedSet.mem_ofList.mp member)
  have noZero : ((SortedSet.ofList clause).contains 0) = false := by
    rw [SortedSet.contains_eq_false_iff, SortedSet.mem_ofList]
    exact fun member => (proper 0 member).1 rfl
  unfold add
  simp only [noZero, Bool.false_eq_true, if_false, hasComplements_ok sortedProper]
  cases pair : (SortedSet.ofList clause).toList.any fun l =>
      (SortedSet.ofList clause).toList.contains (-l) with
  | true =>
      refine ⟨formula, rfl, normal, fun σ => ?_, fun v => Or.inl⟩
      refine ⟨fun holds => ⟨holds, ?_⟩, And.left⟩
      simp only [List.any_eq_true, List.contains_iff_mem, SortedSet.mem_toList,
        SortedSet.mem_ofList] at pair
      obtain ⟨l, left, right⟩ := pair
      by_cases positive : Lit.TrueIn σ l
      · exact ⟨l, left, positive⟩
      · exact ⟨-l, right, (Lit.trueIn_neg (proper l left).1).mpr positive⟩
  | false =>
      have apart : ∀ l ∈ (SortedSet.ofList clause).toList,
          ¬ -l ∈ (SortedSet.ofList clause).toList := by
        simpa [List.any_eq_false] using pair
      have tidy := tidy_of_ascending (SortedSet.ofList clause).ascending sortedProper apart
      obtain ⟨above, each⟩ := foldl_max_var (SortedSet.ofList clause).toList formula.variableCount
      have occurs : ∀ v, v ∈ Clauses.vars (formula.clauses ++ [(SortedSet.ofList clause).toList])
          → v ∈ Clauses.vars formula.clauses ∨ ∃ l ∈ clause, l.var = v := by
        intro v member
        obtain ⟨d, inside, l, found, rfl⟩ := Clauses.mem_vars.mp member
        rcases List.mem_append.mp inside with old | new
        · exact .inl (Clauses.var_mem_vars old found)
        · rw [List.mem_singleton.mp new] at found
          exact .inr ⟨l, SortedSet.mem_ofList.mp found, rfl⟩
      refine ⟨_, rfl, ⟨?_, ?_⟩, fun σ => ?_, occurs⟩
      · intro d inside
        rcases List.mem_append.mp inside with old | new
        · exact normal.tidy d old
        · rw [List.mem_singleton.mp new]
          exact tidy
      · intro v member
        rcases occurs v member with old | ⟨l, found, rfl⟩
        · exact Nat.le_trans (normal.covered v old) above
        · exact each l (SortedSet.mem_ofList.mpr found)
      · rw [Clauses.trueIn_append]
        simp [Clauses.TrueIn, Clause.TrueIn]

/-- The formula of a list of clauses over proper literals exists and has their meaning; induction on
the clauses.
-/
theorem ofClauses_ok (variableCount : Nat) {raw : Clauses}
    (proper : ∀ clause ∈ raw, ∀ l ∈ clause, Lit.Proper l)
    : ∃ formula, ofClauses variableCount raw = .ok formula
      ∧ formula.Normal
      ∧ (∀ σ, Clauses.TrueIn σ formula.clauses ↔ Clauses.TrueIn σ raw)
      ∧ ∀ v, v ∈ Clauses.vars formula.clauses → v ∈ Clauses.vars raw := by
  have added : ∀ start : Formula, start.Normal
      → ∃ formula, raw.foldlM add start = .ok formula
        ∧ formula.Normal
        ∧ (∀ σ, Clauses.TrueIn σ formula.clauses
            ↔ Clauses.TrueIn σ start.clauses ∧ Clauses.TrueIn σ raw)
        ∧ ∀ v, v ∈ Clauses.vars formula.clauses
            → v ∈ Clauses.vars start.clauses ∨ v ∈ Clauses.vars raw := by
    induction raw with
    | nil =>
        intro start normal
        exact ⟨start, rfl, normal, by simp [Clauses.TrueIn], fun v => Or.inl⟩
    | cons clause rest ih =>
        intro start normal
        obtain ⟨grown, done, grownNormal, meaning, occurs⟩ := add_ok normal (proper clause (by simp))
        obtain ⟨formula, finished, formulaNormal, total, occursLater⟩ :=
          ih (fun d inside => proper d (by simp [inside])) grown grownNormal
        refine ⟨formula, ?_, formulaNormal, fun σ => ?_, fun v member => ?_⟩
        · rw [List.foldlM_cons, done]
          exact finished
        · rw [total, meaning]
          simp [Clauses.TrueIn, and_assoc]
        · rcases occursLater v member with found | found
          · rcases occurs v found with old | ⟨l, inside, rfl⟩
            · exact .inl old
            · exact .inr (Clauses.var_mem_vars (by simp) inside)
          · obtain ⟨d, inside, l, holds, rfl⟩ := Clauses.mem_vars.mp found
            exact .inr (Clauses.var_mem_vars (List.mem_cons_of_mem _ inside) holds)
  have empty : Normal { variableCount } := ⟨by simp [Clauses.Tidy], by simp [Clauses.mem_vars]⟩
  obtain ⟨formula, done, normal, meaning, occurs⟩ := added { variableCount } empty
  refine ⟨formula, done, normal, fun σ => ?_, fun v member => ?_⟩
  · rw [meaning]
    simp [Clauses.TrueIn]
  · rcases occurs v member with old | new
    · simp [Clauses.mem_vars] at old
    · exact new

theorem length_add_le {formula grown : Formula} {clause : Clause} (done : formula.add clause = .ok grown)
    : grown.clauses.length ≤ formula.clauses.length + 1 := by
  unfold add at done
  simp only at done
  split at done
  · cases done
  · cases complements : hasComplements (SortedSet.ofList clause).toList with
    | error cause =>
        rw [complements] at done
        cases done
    | ok tautology =>
        rw [complements] at done
        cases tautology with
        | true =>
            obtain rfl := Except.ok.inj done
            exact Nat.le_succ _
        | false =>
            obtain rfl := Except.ok.inj done
            simp

/-- Loading makes no clauses; induction on the clauses that remain. -/
theorem length_ofClauses_le {variableCount : Nat} {raw : Clauses} {formula : Formula}
    (done : ofClauses variableCount raw = .ok formula)
    : formula.clauses.length ≤ raw.length := by
  have added : ∀ start : Formula, raw.foldlM add start = .ok formula
      → formula.clauses.length ≤ start.clauses.length + raw.length := by
    clear done
    induction raw with
    | nil =>
        intro start done
        obtain rfl := Except.ok.inj done
        exact Nat.le_refl _
    | cons clause rest ih =>
        intro start done
        rw [List.foldlM_cons] at done
        cases first : start.add clause with
        | error cause =>
            rw [first] at done
            cases done
        | ok grown =>
            rw [first] at done
            have later := ih grown done
            have here := length_add_le first
            simp only [List.length_cons]
            omega
  simpa using added { variableCount } done

end Formula

end KnowledgeCompiler
