import KnowledgeCompiler.Proofs.Leaf.Satisfiability

/-! Formula leaves are decided, and recognised, exactly.

Clauses of one or two literals have values just if they are satisfiable. Clauses have variables to flip just if
flipping some makes them Horn. The verdict on a Horn formula is right whenever there is one, and there is one
unless the literal without a complement would have to be negated.
-/

namespace KnowledgeCompiler

variable {clauses : Clauses} {assumption : List Lit}

-----------------------------------------------------------------------------------------
-- Clauses of one or two literals
-----------------------------------------------------------------------------------------

namespace TwoSat

/-- Values for the variables of clauses, one for each of them, that make a literal of every clause true. -/
structure Solves (values : List (Var × Bool)) (clauses : Clauses) : Prop where
  domain : values.map Prod.fst = clauses.vars.toList
  satisfied : ∀ clause ∈ clauses, ∃ l ∈ clause, (l.var, l.isPositive) ∈ values

/-- An assignment with such values is a model. -/
theorem Solves.exists_model {values : List (Var × Bool)} (solves : Solves values clauses)
    : ∃ σ, clauses.TrueIn σ := by
  obtain ⟨σ, valued⟩ := exists_valued (solves.domain ▸ clauses.vars.nodup)
  refine ⟨σ, fun clause inside => ?_⟩
  obtain ⟨l, member, listed⟩ := solves.satisfied clause inside
  exact ⟨l, member, valued _ listed⟩

/-- Values under which all clauses hold, in whatever way other variables are valued, hold a true literal of each. -/
theorem Solves.of_valued {values : List (Var × Bool)} (domain : values.map Prod.fst = clauses.vars.toList)
    (holds : ∀ σ : Assignment, (∀ entry ∈ values, σ entry.1 = entry.2) → clauses.TrueIn σ)
    : Solves values clauses where
  domain := domain
  satisfied clause inside := by
    obtain ⟨σ, valued⟩ := exists_valued (domain ▸ clauses.vars.nodup)
    obtain ⟨l, member, true_⟩ := holds σ valued clause inside
    have listed : l.var ∈ values.map Prod.fst := by
      rw [domain, SortedSet.mem_toList]
      exact Clauses.var_mem_vars inside member
    obtain ⟨⟨v, value⟩, entry, rfl⟩ := List.mem_map.mp listed
    have same : l.isPositive = value := true_.symm.trans (valued _ entry)
    exact ⟨l, member, same ▸ entry⟩

end TwoSat

/-- Clauses of one or two literals, repeated literals and tautologies among them, have no values just if they
are not satisfiable; else the values are for just the variables that occur, and they satisfy all clauses. So the
verdict on a 2-CNF formula, which may hold empty clauses, is right under all literals without complements.
-/
theorem twoSat_decides (proper : clauses.Proper)
    : ((∀ clause ∈ clauses, clause ≠ [] ∧ clause.length ≤ 2)
        → ∃ outcome, TwoSat.model? clauses = .ok outcome
          ∧ (outcome = none ↔ ∀ σ, ¬ clauses.TrueIn σ)
          ∧ ∀ values, outcome = some values → TwoSat.Solves values clauses)
      ∧ ∀ (formula : TwoCnf) (assumption : List Lit), formula.clauses = clauses → ComplementFree assumption
        → Decides (formula.isSatisfiable assumption) clauses assumption := by
  refine ⟨fun short => ?_, ?_⟩
  · rcases TwoSat.model?_spec proper with ⟨made, never⟩ | ⟨values, made, domain, holds⟩
    · exact ⟨none, made, ⟨fun _ => never, fun _ => rfl⟩, by simp⟩
    · have solves : TwoSat.Solves values clauses := .of_valued domain fun σ valued clause inside =>
        holds σ valued clause inside (short clause inside).1 (short clause inside).2
      refine ⟨some values, made, ⟨by simp, fun never => ?_⟩, fun _ same => Option.some.inj same ▸ solves⟩
      obtain ⟨σ, model⟩ := solves.exists_model
      exact absurd model (never σ)
  · rintro formula assumption rfl free
    exact formula.isSatisfiable_spec proper free

/-- A unit clause that repeats its literal, a chain of implications and a tautology: there are values, and the
formula is refuted under the complement of the chain's last literal, whatever else is assumed.
-/
theorem twoSat_decides_chain
    : (∃ values, TwoSat.model? [[1, 1], [-1, 2], [3, -2], [4, -4]] = .ok (some values)
        ∧ TwoSat.Solves values [[1, 1], [-1, 2], [3, -2], [4, -4]])
      ∧ ∃ formula, TwoCnf.ofClauses [[1, 1], [-1, 2], [3, -2], [4, -4]] = .ok formula
        ∧ formula.isSatisfiable [-3, Lit.least] = .ok false
        ∧ Decides (formula.isSatisfiable [-3, Lit.least]) [[1, 1], [-1, 2], [3, -2], [4, -4]]
          [-3, Lit.least] := by
  obtain ⟨valued, decided⟩ := @twoSat_decides [[1, 1], [-1, 2], [3, -2], [4, -4]]
    (by decide : ∀ clause ∈ _, ∀ l ∈ clause, Lit.Proper l)
  obtain ⟨outcome, made, unsatisfiable, solves⟩ := valued (by decide)
  have satisfiable : outcome ≠ none := fun none_ => unsatisfiable.mp none_ (fun _ => true) (by decide)
  obtain ⟨values, rfl⟩ := Option.ne_none_iff_exists'.mp satisfiable
  refine ⟨⟨values, made, solves values rfl⟩, ⟨[[1, 1], [-1, 2], [3, -2], [4, -4]], by decide⟩, by decide,
    by decide +kernel, ?_⟩
  exact decided _ [-3, Lit.least] rfl (by decide)

-----------------------------------------------------------------------------------------
-- Variables to flip
-----------------------------------------------------------------------------------------

/-- There are variables to flip just if flipping some makes the clauses Horn. Those found do so, they occur in the
clauses, and the clauses have a Horn formula that keeps them.
-/
theorem hornRenaming_recognizes (proper : clauses.Proper)
    : ∃ outcome, hornRenaming? clauses = .ok outcome
      ∧ (outcome.isSome = true ↔ ∃ flipped, clauses.HornUnder flipped)
      ∧ ∀ flipped, outcome = some flipped
        → clauses.HornUnder flipped
          ∧ (∀ v, v ∈ flipped → v ∈ clauses.vars)
          ∧ ∃ formula, Horn.ofClauses clauses flipped = .ok formula ∧ formula.unflipped = clauses := by
  obtain ⟨outcome, found, never, sound⟩ := hornRenaming?_spec proper
  refine ⟨outcome, found, ⟨fun some_ => ?_, fun exists_ => ?_⟩, fun flipped same => ?_⟩
  · obtain ⟨flipped, same⟩ := Option.isSome_iff_exists.mp some_
    exact ⟨flipped, (sound flipped same).2⟩
  · obtain ⟨flipped, horn⟩ := exists_
    rw [← Option.ne_none_iff_isSome]
    exact fun none_ => never none_ flipped horn
  · obtain ⟨occurring, horn⟩ := sound flipped same
    obtain ⟨formula, made, kept, -⟩ := Horn.ofClauses_ok proper horn
    exact ⟨horn, occurring, formula, made, kept⟩

/-- A clause with two positive literals becomes Horn, and a clause that repeats a literal has to be flipped to
repeat it negatively.
-/
theorem hornRenaming_recognizes_repetition
    : ∃ flipped, hornRenaming? [[1, 2, -3], [-1, -2], [4, 4]] = .ok (some flipped)
      ∧ Clauses.HornUnder flipped [[1, 2, -3], [-1, -2], [4, 4]]
      ∧ ∃ formula, Horn.ofClauses [[1, 2, -3], [-1, -2], [4, 4]] flipped = .ok formula
        ∧ formula.unflipped = [[1, 2, -3], [-1, -2], [4, 4]] := by
  obtain ⟨outcome, found, recognized, sound⟩ := @hornRenaming_recognizes [[1, 2, -3], [-1, -2], [4, 4]]
    (by decide : ∀ clause ∈ _, ∀ l ∈ clause, Lit.Proper l)
  obtain ⟨flipped, rfl⟩ := Option.isSome_iff_exists.mp
    (recognized.mpr ⟨SortedSet.ofList [1, 4], by decide⟩)
  obtain ⟨horn, -, formula⟩ := sound flipped rfl
  exact ⟨flipped, found, horn, formula⟩

-----------------------------------------------------------------------------------------
-- Horn formulas
-----------------------------------------------------------------------------------------

namespace Horn

/-- Unit propagation decides a Horn formula, whatever its clauses over nonzero literals and its flipped variables
are, under all literals without complements: the verdict is right unless the literal without a complement is to be
negated. Then there is a fault, or the formula is refuted before. Over proper clauses this literal only is to be
negated if it is assumed and its variable is flipped.
-/
theorem unitPropagation_decides {original : Clauses} {flipped : SortedSet Var} {formula : Horn}
    (nonzero : ∀ clause ∈ original, ∀ l ∈ clause, l ≠ 0) (made : ofClauses original flipped = .ok formula)
    (free : ComplementFree assumption)
    : (¬ formula.Overflows assumption → Decides (formula.isSatisfiable assumption) original assumption)
      ∧ (formula.Overflows assumption
        → formula.isSatisfiable assumption = .error .negationOverflow
          ∨ formula.isSatisfiable assumption = .ok false
            ∧ ∀ σ, (∀ l ∈ assumption, l.TrueIn σ) → ¬ original.TrueIn σ)
      ∧ (original.Proper → (Lit.least ∈ assumption → ¬ Lit.least.var ∈ flipped)
        → ¬ formula.Overflows assumption) := by
  obtain ⟨rfl, rfl⟩ := eq_of_ofClauses made
  have nonzeroForm : ∀ clause ∈ formula.clauses, ∀ l ∈ clause, l ≠ 0 := forall_of_unflipped flipLiteral_ne_zero nonzero
  have cases_ := formula.isSatisfiable_cases nonzeroForm free
  refine ⟨fun calm => ?_, fun overflows => ?_, fun proper flippable =>
    not_overflows (proper_of_unflipped proper) flippable⟩
  · rcases cases_ with ⟨answer, -, model⟩ | ⟨answer, never⟩ | ⟨-, overflows⟩
    · exact ⟨true, answer, fun _ => model, fun _ => rfl⟩
    · exact ⟨false, answer, by simp, fun ⟨σ, extends_, model⟩ => absurd model (never σ extends_)⟩
    · exact absurd overflows calm
  · rcases cases_ with ⟨-, calm, -⟩ | refuted | ⟨fault, -⟩
    · exact absurd overflows calm
    · exact .inr refuted
    · exact .inl fault

/-- Beside the literal without a complement the verdict is right as long as that literal does not follow. When its
clause has no other literal left, there is a fault.
-/
theorem unitPropagation_decides_beside_least
    : ∃ formula, ofClauses [[Lit.least, 1], [-1, -1, 2]] (SortedSet.ofList [2]) = .ok formula
      ∧ formula.isSatisfiable [-2, 5] = .ok true
      ∧ Decides (formula.isSatisfiable [-2, 5]) [[Lit.least, 1], [-1, -1, 2]] [-2, 5]
      ∧ formula.Overflows [-1]
      ∧ formula.isSatisfiable [-1] = .error .negationOverflow := by
  let formula : Horn := ⟨[[Lit.least, 1], [-1, -1, -2]], SortedSet.ofList [2], by decide⟩
  have made : ofClauses [[Lit.least, 1], [-1, -1, 2]] (SortedSet.ofList [2]) = .ok formula := by decide
  have nonzero : ∀ clause ∈ ([[Lit.least, 1], [-1, -1, 2]] : Clauses), ∀ l ∈ clause, l ≠ 0 := by decide
  have verdict : formula.isSatisfiable [-2, 5] = .ok true := by decide +kernel
  have fault : formula.isSatisfiable [-1] = .error .negationOverflow := by decide +kernel
  obtain ⟨decided, overflowing, -⟩ :=
    unitPropagation_decides nonzero made (by decide : ComplementFree [-2, 5])
  have calm : ¬ formula.Overflows [-2, 5] := by
    intro overflows
    rcases overflowing overflows with stopped | ⟨refuted, -⟩
    · cases verdict.symm.trans stopped
    · cases verdict.symm.trans refuted
  have follows : formula.Overflows [-1] := by
    by_contra calm
    obtain ⟨answer, answered, -⟩ :=
      (unitPropagation_decides nonzero made (by decide : ComplementFree [-1])).1 calm
    cases fault.symm.trans answered
  exact ⟨formula, made, verdict, decided calm, follows, fault⟩

/-- The clause of the literal without a complement is satisfiable, and there is no verdict on its formula. -/
theorem least_literal_undecided
    : ∃ formula, ofClauses [[Lit.least]] (SortedSet.ofList []) = .ok formula
      ∧ Clauses.TrueIn (fun _ => false) [[Lit.least]]
      ∧ formula.isSatisfiable [] = .error .negationOverflow
      ∧ ¬ Decides (formula.isSatisfiable []) [[Lit.least]] [] := by
  have fault : isSatisfiable ⟨[[Lit.least]], SortedSet.ofList [], by decide⟩ []
      = .error .negationOverflow := by
    decide +kernel
  refine ⟨⟨[[Lit.least]], SortedSet.ofList [], by decide⟩, by decide, by decide, fault, ?_⟩
  rintro ⟨answer, verdict, -⟩
  rw [fault] at verdict
  cases verdict

end Horn

end KnowledgeCompiler
