import KnowledgeCompiler.Proofs.Leaf.Satisfiability
import KnowledgeCompiler.Proofs.ModelCount

/-! Model counts of formula leaves are exact. Flipping variables changes no count. -/

namespace KnowledgeCompiler

variable {assumption : List Lit}

/-- A count of the models of clauses over their variables that agree with an assumption. -/
def Counts (count : Checked Nat) (clauses : Clauses) (assumption : List Lit) : Prop :=
  count = .ok (countOver clauses.vars.toFinset fun σ =>
    clauses.TrueIn σ ∧ Agrees assumption clauses.vars σ)

/-- The count of a 2-CNF formula. -/
theorem TwoCnf.modelCount_spec (formula : TwoCnf) (proper : formula.clauses.Proper)
    (admissible : Admissible assumption)
    : Counts (formula.modelCount assumption) formula.clauses assumption :=
  Clauses.modelCountUnder_spec proper (fun _ => id) (fun _ => proper.vars_bound) admissible

/-- Flipped literals can be assumed as the literals can. -/
theorem Admissible.map_flipLiteral (admissible : Admissible assumption) (flipped : SortedSet Var)
    : Admissible (assumption.map (flipLiteral flipped)) where
  proper l member := by
    obtain ⟨k, found, rfl⟩ := List.mem_map.mp member
    exact proper_flipLiteral (admissible.proper k found)
  consistent l member opposite := by
    obtain ⟨k, found, rfl⟩ := List.mem_map.mp member
    obtain ⟨m, other, same⟩ := List.mem_map.mp opposite
    have vars : m.var = k.var := by
      rw [← var_flipLiteral flipped m, same, Lit.var_neg, var_flipLiteral]
    rw [admissible.eq_of_var other found vars] at same
    exact (proper_flipLiteral (admissible.proper k found)).ne_neg same

namespace Horn

/-- Literals agree with an assignment where the flipped ones agree with the flipped assignment. -/
theorem agrees_map_flipLiteral (admissible : Admissible assumption) {flipped vars : SortedSet Var}
    {σ : Assignment}
    : Agrees (assumption.map (flipLiteral flipped)) vars (σ.flip flipped) ↔ Agrees assumption vars σ := by
  simp only [Agrees, List.forall_mem_map, var_flipLiteral]
  exact forall₃_congr fun l assumed _ => trueIn_flipLiteral flipped (admissible.proper l assumed).1

/-- The count of a Horn formula. -/
theorem modelCount_spec (formula : Horn) (proper : formula.clauses.Proper)
    (admissible : Admissible assumption)
    : Counts (formula.modelCount assumption) formula.unflipped assumption := by
  have flips : assumption.mapM (flipChecked formula.flipped)
      = .ok (assumption.map (flipLiteral formula.flipped)) :=
    Checked.mapM_ok fun l member => flipChecked_ok formula.flipped (admissible.proper l member)
  have counted := Clauses.modelCountUnder_spec proper (fun _ => id) (fun _ => proper.vars_bound)
    (admissible.map_flipLiteral formula.flipped)
  have vars : formula.unflipped.vars = formula.clauses.vars :=
    SortedSet.ext_mem fun v => mem_vars_unflipped
  -- The flipped assignments are those of the Horn form.
  have same : countOver (formula.clauses.vars.toFinset.image id)
        (fun σ => formula.clauses.TrueIn σ
          ∧ Agrees (assumption.map (flipLiteral formula.flipped)) formula.clauses.vars σ)
      = countOver formula.clauses.vars.toFinset fun σ =>
        formula.unflipped.TrueIn σ ∧ Agrees assumption formula.clauses.vars σ := by
    refine @countOver_image _ _ _ id formula.flipped.contains Function.injective_id.injOn
      fun σ τ values => ?_
    have equal : ∀ v, v ∈ formula.clauses.vars → τ v = σ.flip formula.flipped v :=
      fun v inside => values v (SortedSet.mem_toFinset.mpr inside)
    rw [← trueIn_unflipped proper.nonzero, ← Clauses.trueIn_congr fun v inside => equal v (vars ▸ inside),
      Agrees.congr equal, ← agrees_map_flipLiteral admissible, Assignment.flip_flip]
  rw [Finset.image_id] at same
  unfold modelCount Counts
  rw [flips, vars, ← same]
  exact counted

/-- Literals over other variables change no count, as long as the literal without a complement is not to be
flipped.
-/
theorem modelCount_literalsOver {formula : Horn} (proper : formula.clauses.Proper)
    (flippable : ¬ (Lit.least ∈ assumption ∧ Lit.least.var ∈ formula.flipped))
    : formula.modelCount (literalsOver formula.vars assumption) = formula.modelCount assumption := by
  have flips {literals : List Lit} (among : ∀ l ∈ literals, l ∈ assumption)
      : literals.mapM (flipChecked formula.flipped)
        = .ok (literals.map (flipLiteral formula.flipped)) := by
    rw [mapM_flipChecked, if_neg fun extreme => flippable ⟨among _ extreme.1, extreme.2⟩]
  have moved : (literalsOver formula.vars assumption).map (flipLiteral formula.flipped)
      = literalsOver formula.vars (assumption.map (flipLiteral formula.flipped)) := by
    unfold literalsOver
    rw [List.filter_map]
    refine congrArg (List.map _) (List.filter_congr fun l _ => ?_)
    rw [Function.comp_apply, var_flipLiteral]
  unfold modelCount
  rw [flips fun l member => (mem_literalsOver.mp member).1, flips fun _ member => member, moved]
  exact Clauses.modelCountUnder_literalsOver proper (fun _ => id) fun _ => proper.vars_bound

/-- The count of a Horn formula under literals without complements. -/
theorem modelCount_complementFree (formula : Horn) (proper : formula.clauses.Proper)
    (free : ComplementFree assumption)
    (flippable : ¬ (Lit.least ∈ assumption ∧ Lit.least.var ∈ formula.flipped))
    : Counts (formula.modelCount assumption) formula.unflipped assumption := by
  have vars : formula.vars = formula.unflipped.vars := SortedSet.ext_mem fun v => mem_vars_unflipped.symm
  have counted : Counts (formula.modelCount (literalsOver formula.vars assumption)) formula.unflipped
      (literalsOver formula.vars assumption) :=
    modelCount_spec formula proper (free.admissible fun _ => proper.vars_bound)
  rw [modelCount_literalsOver proper flippable] at counted
  refine counted.trans (congrArg Except.ok (countOver_congr fun σ => and_congr_right fun _ => ?_))
  rw [← vars]
  exact agrees_literalsOver

/-- There is no count under the literal without a complement, if its variable is flipped. -/
theorem modelCount_of_least (formula : Horn) (assumed : Lit.least ∈ assumption)
    (flips : Lit.least.var ∈ formula.flipped)
    : formula.modelCount assumption = .error .negationOverflow := by
  rw [modelCount, mapM_flipChecked, if_pos ⟨assumed, flips⟩]
  rfl

end Horn

-----------------------------------------------------------------------------------------
-- The counter and the leaves
-----------------------------------------------------------------------------------------

/-- The number of models of clauses, which may repeat a literal, hold a complementary pair or be empty, and the
counts of the leaves that hold the clauses. The clauses are counted over any variables that cover theirs; a leaf is
counted over its variables, under any literals without complements. Every count is a number, with one exception:
there is a fault if the least literal, which has no complement, is assumed in a Horn formula that flips its variable.
-/
theorem leafCounts_exact {clauses : Clauses} (proper : clauses.Proper)
    : (∀ vars : SortedSet Var, (∀ v, v ∈ clauses.vars → v ∈ vars)
        → clauses.modelCount vars = .ok (countOver vars.toFinset fun σ => clauses.TrueIn σ))
      ∧ (∀ (formula : TwoCnf) (assumption : List Lit), formula.clauses = clauses
        → ComplementFree assumption → Counts (formula.modelCount assumption) clauses assumption)
      ∧ (∀ (formula : Horn) (assumption : List Lit), formula.unflipped = clauses
        → ComplementFree assumption
        → (¬ (Lit.least ∈ assumption ∧ Lit.least.var ∈ formula.flipped)
            → Counts (formula.modelCount assumption) clauses assumption)
          ∧ (Lit.least ∈ assumption ∧ Lit.least.var ∈ formula.flipped
            → formula.modelCount assumption = .error .negationOverflow)) := by
  refine ⟨fun vars covered => Clauses.modelCount_spec proper covered, ?_, ?_⟩
  · rintro formula assumption rfl free
    exact Clauses.modelCountUnder_complementFree proper (fun _ => id) (fun _ => proper.vars_bound) free
  · rintro formula assumption rfl free
    refine ⟨fun flippable => ?_, fun extreme => formula.modelCount_of_least extreme.1 extreme.2⟩
    exact formula.modelCount_complementFree (Horn.proper_of_unflipped proper) free flippable

/-- A clause that repeats its literal, a tautology and an implication: over four variables there are four
models, and both leaves count them under literals some of which are over other variables, the least one among them.
A Horn formula that flips the variable of the least literal does not.
-/
theorem leafCounts_of_repeated_literals
    : ∃ (formula : TwoCnf) (horn flipping : Horn), TwoCnf.ofClauses [[1, 1], [2, -2], [-1, 3]] = .ok formula
      ∧ Horn.ofClauses [[1, 1], [2, -2], [-1, 3]] (SortedSet.ofList [1, 3]) = .ok horn
      ∧ Horn.ofClauses [[1, 1], [2, -2], [-1, 3]] (SortedSet.ofList [1, 3, Lit.least.var]) = .ok flipping
      ∧ (countOver (SortedSet.ofList [1, 2, 3, 4]).toFinset fun σ =>
          Clauses.TrueIn σ [[1, 1], [2, -2], [-1, 3]]) = 4
      ∧ Counts (formula.modelCount [3, 5]) [[1, 1], [2, -2], [-1, 3]] [3, 5]
      ∧ Counts (horn.modelCount [-2, Lit.least]) [[1, 1], [2, -2], [-1, 3]] [-2, Lit.least]
      ∧ flipping.modelCount [-2, Lit.least] = .error .negationOverflow := by
  obtain ⟨counted, twoCnf, horn⟩ :=
    @leafCounts_exact [[1, 1], [2, -2], [-1, 3]] (by decide : ∀ clause ∈ _, ∀ l ∈ clause, Lit.Proper l)
  refine ⟨⟨[[1, 1], [2, -2], [-1, 3]], by decide⟩,
    ⟨[[-1, -1], [2, -2], [1, -3]], SortedSet.ofList [1, 3], by decide⟩,
    ⟨[[-1, -1], [2, -2], [1, -3]], SortedSet.ofList [1, 3, Lit.least.var], by decide⟩,
    by decide, by decide, by decide, ?_, ?_, ?_, ?_⟩
  · have four : Clauses.modelCount [[1, 1], [2, -2], [-1, 3]] (SortedSet.ofList [1, 2, 3, 4]) = .ok 4 := by
      decide +kernel
    exact Except.ok.inj ((counted _ (by decide)).symm.trans four)
  · exact twoCnf _ [3, 5] rfl (by decide)
  · exact (horn _ [-2, Lit.least] (by decide) (by decide)).1 (by decide)
  · exact (horn _ [-2, Lit.least] (by decide) (by decide)).2 (by decide)

/-- The clause of the first variable has one model, whatever the last variable is. A Horn formula that flips the
last variable has no count under its negative literal, which has no complement.
-/
theorem flipped_least_uncounted
    : ∃ formula, Horn.ofClauses [[1]] (SortedSet.ofList [Lit.least.var]) = .ok formula
      ∧ ComplementFree [Lit.least]
      ∧ (countOver (Clauses.vars [[1]]).toFinset fun σ =>
          Clauses.TrueIn σ [[1]] ∧ Agrees [Lit.least] (Clauses.vars [[1]]) σ) = 1
      ∧ formula.modelCount [Lit.least] = .error .negationOverflow
      ∧ ¬ Counts (formula.modelCount [Lit.least]) [[1]] [Lit.least] := by
  have counted : Counts (Clauses.modelCountUnder [[1]] (Clauses.vars [[1]]) [Lit.least]) [[1]] [Lit.least] :=
    Clauses.modelCountUnder_complementFree (by decide : ∀ clause ∈ _, ∀ l ∈ clause, Lit.Proper l) (fun _ => id)
      (by decide) (by decide)
  have one : Clauses.modelCountUnder [[1]] (Clauses.vars [[1]]) [Lit.least] = .ok 1 := by decide +kernel
  have fault : Horn.modelCount ⟨[[1]], SortedSet.ofList [Lit.least.var], by decide⟩ [Lit.least]
      = .error .negationOverflow := by
    decide +kernel
  refine ⟨⟨[[1]], SortedSet.ofList [Lit.least.var], by decide⟩, by decide, by decide,
    Except.ok.inj (counted.symm.trans one), fault, ?_⟩
  intro counts
  cases fault.symm.trans counts

end KnowledgeCompiler
