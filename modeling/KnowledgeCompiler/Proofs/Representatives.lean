import Mathlib.Order.Bounds.Basic
import KnowledgeCompiler.CutSet
import KnowledgeCompiler.Proofs.Assignment
import KnowledgeCompiler.Proofs.Checked
import KnowledgeCompiler.Proofs.Connected
import KnowledgeCompiler.Proofs.VariableForest

/-! The representatives of equivalent variables.

A clause of two literals and the clause of their complements make the literals opposite, so all models give their
variables equal values, or all give them opposite values. Such clauses link their variables, and the smallest
variable of a class of linked variables stands for the class. Since it depends on the class only, it does not matter
in which order the clauses and the variables are visited.
-/

namespace KnowledgeCompiler

variable {clauses : Clauses} {a b : Lit} {u v w : Var}

-----------------------------------------------------------------------------------------
-- Equivalences
-----------------------------------------------------------------------------------------

namespace Clauses

/-- The clauses of two literals whose complements, in either order, are a clause as well. -/
def equivalences (clauses : Clauses) : Clauses :=
  clauses.filter fun
    | [a, b] => clauses.contains [-a, -b] || clauses.contains [-b, -a]
    | _ => false

theorem mem_equivalences
    : [a, b] ∈ clauses.equivalences
      ↔ [a, b] ∈ clauses ∧ ([-a, -b] ∈ clauses ∨ [-b, -a] ∈ clauses) := by
  simp [equivalences]

theorem exists_of_mem_equivalences {clause : Clause} (member : clause ∈ clauses.equivalences)
    : ∃ a b, clause = [a, b] := by
  obtain ⟨-, kept⟩ := List.mem_filter.mp member
  match clause, kept with
  | [a, b], _ => exact ⟨a, b, rfl⟩

theorem mem_vars_equivalences
    : v ∈ clauses.equivalences.vars ↔ ∃ a b, [a, b] ∈ clauses.equivalences ∧ (a.var = v ∨ b.var = v) := by
  rw [mem_vars]
  constructor
  · rintro ⟨clause, member, l, inside, rfl⟩
    obtain ⟨a, b, rfl⟩ := exists_of_mem_equivalences member
    exact ⟨a, b, member, by grind⟩
  · rintro ⟨a, b, member, rfl | rfl⟩
    · exact ⟨[a, b], member, a, by simp, rfl⟩
    · exact ⟨[a, b], member, b, by simp, rfl⟩

/-- All models give two variables equal values, or all give them opposite values. -/
def Aligned (clauses : Clauses) (v w : Var) : Prop :=
  (∀ σ, clauses.TrueIn σ → σ v = σ w) ∨ ∀ σ, clauses.TrueIn σ → σ v = !σ w

theorem aligned_equivalence (clauses : Clauses) : Equivalence clauses.Aligned where
  refl _ := .inl fun _ _ => rfl
  symm := by
    rintro v w (equal | opposite)
    · exact .inl fun σ holds => (equal σ holds).symm
    · exact .inr fun σ holds => by simp [opposite σ holds]
  trans := by
    rintro u v w (equal | opposite) (equal' | opposite')
    · exact .inl fun σ holds => (equal σ holds).trans (equal' σ holds)
    · exact .inr fun σ holds => (equal σ holds).trans (opposite' σ holds)
    · exact .inr fun σ holds => by rw [opposite σ holds, equal' σ holds]
    · exact .inl fun σ holds => by rw [opposite σ holds, opposite' σ holds, Bool.not_not]

/-- In a model exactly one literal of an equivalence is true. -/
theorem trueIn_iff_not_of_equivalences {σ : Assignment} (proper : clauses.Proper)
    (member : [a, b] ∈ clauses.equivalences) (holds : clauses.TrueIn σ)
    : Lit.TrueIn σ a ↔ ¬ Lit.TrueIn σ b := by
  obtain ⟨inside, complements⟩ := mem_equivalences.mp member
  have properA : a ≠ 0 := (proper _ inside a (by simp)).1
  have properB : b ≠ 0 := (proper _ inside b (by simp)).1
  have some : Lit.TrueIn σ a ∨ Lit.TrueIn σ b := by simpa [Clause.TrueIn] using holds _ inside
  have other : ¬ Lit.TrueIn σ a ∨ ¬ Lit.TrueIn σ b := by
    rw [← Lit.trueIn_neg properA, ← Lit.trueIn_neg properB]
    rcases complements with known | known
    · simpa [Clause.TrueIn] using holds _ known
    · simpa [Clause.TrueIn, or_comm] using holds _ known
  constructor
  · intro first
    exact other.resolve_left (not_not.mpr first)
  · intro second
    exact some.resolve_right second

theorem aligned_of_equivalences (proper : clauses.Proper) (member : [a, b] ∈ clauses.equivalences)
    : clauses.Aligned a.var b.var := by
  -- Literals of one sign have variables with opposite values, and literals of two signs with equal ones.
  by_cases signs : a.isPositive = b.isPositive
  · refine .inr fun σ holds => ?_
    have one := trueIn_iff_not_of_equivalences proper member holds
    simp only [Lit.TrueIn, signs] at one
    revert one
    cases σ a.var <;> cases σ b.var <;> simp
  · refine .inl fun σ holds => ?_
    have one := trueIn_iff_not_of_equivalences proper member holds
    simp only [Lit.TrueIn, Bool.eq_not.mpr signs] at one
    revert one
    cases σ a.var <;> cases σ b.var <;> simp

end Clauses

-----------------------------------------------------------------------------------------
-- Pairs
-----------------------------------------------------------------------------------------

namespace CutSets

theorem mem_binaryPairs {pair : Lit × Lit}
    : pair ∈ binaryPairs clauses ↔ ∃ a b, [a, b] ∈ clauses ∧ (min a b, max a b) = pair := by
  rw [binaryPairs, List.mem_eraseDups, List.mem_filterMap]
  constructor
  · rintro ⟨clause, inside, found⟩
    match clause, found with
    | [a, b], found => exact ⟨a, b, inside, Option.some.inj found⟩
  · rintro ⟨a, b, inside, rfl⟩
    exact ⟨[a, b], inside, rfl⟩

/-- Two numbers in order are two other ones in order if they are the same numbers. -/
theorem ordered_eq_iff {a b c d : Int}
    : (min c d, max c d) = (min a b, max a b) ↔ c = a ∧ d = b ∨ c = b ∧ d = a := by
  rw [Prod.mk.injEq]
  omega

theorem ordered_neg (a b : Int)
    : (min (-min a b) (-max a b), max (-min a b) (-max a b)) = (min (-a) (-b), max (-a) (-b)) := by
  rw [Prod.mk.injEq]
  omega

/-- Whether the complements of a pair are a pair as well. -/
def isMirrored (clauses : Clauses) (pair : Lit × Lit) : Bool :=
  (binaryPairs clauses).contains (min (-pair.1) (-pair.2), max (-pair.1) (-pair.2))

theorem isMirrored_iff
    : isMirrored clauses (min a b, max a b) = true ↔ [-a, -b] ∈ clauses ∨ [-b, -a] ∈ clauses := by
  rw [isMirrored, List.contains_iff_mem, ordered_neg, mem_binaryPairs]
  constructor
  · rintro ⟨c, d, inside, same⟩
    rcases ordered_eq_iff.mp same with ⟨rfl, rfl⟩ | ⟨rfl, rfl⟩
    · exact .inl inside
    · exact .inr inside
  · rintro (inside | inside)
    · exact ⟨-a, -b, inside, rfl⟩
    · exact ⟨-b, -a, inside, ordered_eq_iff.mpr (.inr ⟨rfl, rfl⟩)⟩

/-- The pairs whose complements are a pair are those of the equivalences, in whatever order they are visited. -/
theorem mem_mirrored (visits : Visits) {pair : Lit × Lit}
    : pair ∈ (visits.pairs.visit (binaryPairs clauses)).filter (isMirrored clauses)
      ↔ ∃ a b, [a, b] ∈ clauses.equivalences ∧ (min a b, max a b) = pair := by
  rw [List.mem_filter, (visits.pairs.perm _).mem_iff, mem_binaryPairs]
  constructor
  · rintro ⟨⟨a, b, inside, rfl⟩, mirrored⟩
    exact ⟨a, b, Clauses.mem_equivalences.mpr ⟨inside, isMirrored_iff.mp mirrored⟩, rfl⟩
  · rintro ⟨a, b, member, rfl⟩
    obtain ⟨inside, complements⟩ := Clauses.mem_equivalences.mp member
    exact ⟨⟨a, b, inside, rfl⟩, isMirrored_iff.mpr complements⟩

theorem complements_ok {pair : Lit × Lit} (first : pair.1 ≠ Lit.least) (second : pair.2 ≠ Lit.least)
    : complements pair = .ok (min (-pair.1) (-pair.2), max (-pair.1) (-pair.2)) := by
  rw [complements, Lit.negate, if_neg first, Lit.negate, if_neg second]
  rfl

/-- No clause of two literals has the literal without a complement. -/
def Complemented (clauses : Clauses) : Prop := ∀ clause ∈ clauses, clause.length = 2 → ¬ Lit.least ∈ clause

/-- Where all pairs of literals have complements, pairs of equivalent variables are found. -/
theorem equivalentPairs_eq (visits : Visits) (complemented : Complemented clauses)
    : equivalentPairs visits clauses
      = .ok (((visits.pairs.visit (binaryPairs clauses)).filter (isMirrored clauses)).map
          fun pair => (pair.1.var, pair.2.var)) := by
  have tests : ∀ pair ∈ visits.pairs.visit (binaryPairs clauses),
      (do return (binaryPairs clauses).contains (← complements pair) : Checked Bool)
        = .ok (isMirrored clauses pair) := by
    intro pair member
    obtain ⟨a, b, inside, rfl⟩ := mem_binaryPairs.mp ((visits.pairs.perm _).mem_iff.mp member)
    have missing := complemented [a, b] inside rfl
    obtain ⟨first, second⟩ : a ≠ Lit.least ∧ b ≠ Lit.least := by simpa [eq_comm] using missing
    rw [complements_ok]
    · rfl
    · rcases min_choice a b with same | same <;> simpa [same]
    · rcases max_choice a b with same | same <;> simpa [same]
  rw [equivalentPairs, Checked.filterChecked_ok tests]
  rfl

-----------------------------------------------------------------------------------------
-- Classes
-----------------------------------------------------------------------------------------

/-- Pairs of variables as the equivalences among some clauses have them, each in one order at least. -/
structure Lists (clauses : Clauses) (links : List (Var × Var)) : Prop where
  sound
    : ∀ {v w}, (v, w) ∈ links
        → ∃ a b, [a, b] ∈ clauses.equivalences ∧ (a.var = v ∧ b.var = w ∨ b.var = v ∧ a.var = w)
  complete
    : ∀ {a b}, [a, b] ∈ clauses.equivalences → (a.var, b.var) ∈ links ∨ (b.var, a.var) ∈ links

/-- The pairs that are found are those of the equivalences, in whatever order they are visited. -/
theorem lists_equivalentPairs (visits : Visits) (complemented : Complemented clauses)
    : ∃ links, equivalentPairs visits clauses = .ok links ∧ Lists clauses links := by
  refine ⟨_, equivalentPairs_eq visits complemented, fun {v w} listed => ?_, fun {a b} member => ?_⟩
  · obtain ⟨pair, mirrored, same⟩ := List.mem_map.mp listed
    obtain ⟨a, b, member, rfl⟩ := (mem_mirrored visits).mp mirrored
    obtain ⟨rfl, rfl⟩ := Prod.mk.inj same
    refine ⟨a, b, member, ?_⟩
    rcases le_total a b with order | order
    · simp [order]
    · simp [order]
  · have listed := List.mem_map_of_mem (f := fun pair : Lit × Lit => (pair.1.var, pair.2.var))
      ((mem_mirrored visits).mpr ⟨a, b, member, rfl⟩)
    rcases le_total a b with order | order
    · rw [min_eq_left order, max_eq_right order] at listed
      exact .inl listed
    · rw [min_eq_right order, max_eq_left order] at listed
      exact .inr listed

section Lists

variable {links : List (Var × Var)} (lists : Lists clauses links)

include lists

/-- The forest has the variables of the equivalences. -/
theorem Lists.mem_parents : v ∈ (VariableForest.ofPairs links).parents ↔ v ∈ clauses.equivalences.vars := by
  rw [(VariableForest.linking_ofPairs links).known, Clauses.mem_vars_equivalences]
  constructor
  · rintro ⟨w, listed | listed⟩
    · obtain ⟨a, b, member, same⟩ := lists.sound listed
      exact ⟨a, b, member, same.imp And.left And.left⟩
    · obtain ⟨a, b, member, same⟩ := lists.sound listed
      exact ⟨a, b, member, (same.imp And.right And.right).symm⟩
  · rintro ⟨a, b, member, rfl | rfl⟩
    · exact ⟨b.var, lists.complete member⟩
    · exact ⟨a.var, (lists.complete member).symm⟩

/-- An equivalence ties its two variables. -/
theorem Lists.root_eq (member : [a, b] ∈ clauses.equivalences)
    : (VariableForest.ofPairs links).root a.var = (VariableForest.ofPairs links).root b.var := by
  have ties := (VariableForest.linking_ofPairs links).ties
  rcases lists.complete member with listed | listed
  · exact ties.joined listed
  · exact (ties.joined listed).symm

/-- Two variables have the same root if they are the same or a chain of equivalences links them. -/
theorem Lists.root_eq_iff
    : (VariableForest.ofPairs links).root v = (VariableForest.ofPairs links).root w
      ↔ v = w ∨ clauses.equivalences.Linked v w := by
  have ties := (VariableForest.linking_ofPairs links).ties
  constructor
  · apply ties.related (Clauses.linked_equivalence _)
    intro v w listed
    obtain ⟨a, b, member, same⟩ := lists.sound listed
    obtain ⟨p, at_⟩ := List.getElem?_of_mem member
    have first : clauses.equivalences.OccursAt a.var p := ⟨_, at_, a, by simp, rfl⟩
    have second : clauses.equivalences.OccursAt b.var p := ⟨_, at_, b, by simp, rfl⟩
    rcases same with ⟨rfl, rfl⟩ | ⟨rfl, rfl⟩
    · exact .inr (.within first second)
    · exact .inr (.within second first)
  · rintro (rfl | linked)
    · rfl
    · refine linked.map_eq ?_
      rintro p _ _ ⟨clause, at_, l, inside, rfl⟩ ⟨clause', at', k, inside', rfl⟩
      obtain rfl : clause = clause' := Option.some.inj (at_.symm.trans at')
      have member := List.mem_of_getElem? at_
      obtain ⟨a, b, rfl⟩ := Clauses.exists_of_mem_equivalences member
      have same := lists.root_eq member
      grind

/-- Variables with the same root are aligned, since the variables of each equivalence are. -/
theorem Lists.aligned_of_root_eq (proper : clauses.Proper)
    (same : (VariableForest.ofPairs links).root v = (VariableForest.ofPairs links).root w)
    : clauses.Aligned v w := by
  refine (VariableForest.linking_ofPairs links).ties.related clauses.aligned_equivalence ?_ same
  intro v w listed
  obtain ⟨a, b, member, same⟩ := lists.sound listed
  have aligned := Clauses.aligned_of_equivalences proper member
  rcases same with ⟨rfl, rfl⟩ | ⟨rfl, rfl⟩
  · exact aligned
  · exact clauses.aligned_equivalence.symm aligned

/-- The root of a variable is the least one of the variables that chains of equivalences link with it. -/
theorem Lists.isLeast_root (occurs : v ∈ clauses.equivalences.vars)
    : IsLeast {w | clauses.equivalences.Linked v w} ((VariableForest.ofPairs links).root v) := by
  have forest := (VariableForest.ofPairs links).roots
  constructor
  · rcases lists.root_eq_iff.mp (forest.root_root v).symm with own | linked
    · exact own ▸ .refl occurs
    · exact linked
  · intro w linked
    rw [lists.root_eq_iff.mpr (.inr linked)]
    exact forest.le w

end Lists

-----------------------------------------------------------------------------------------
-- Representatives
-----------------------------------------------------------------------------------------

/-- What a table of representatives says. It has the variables that occur in an equivalence, each with the least one
of the variables that chains of equivalences link with it, and variables with one representative are aligned.
-/
structure Merges (clauses : Clauses) (classes : Std.TreeMap Var Var) : Prop where
  known : ∀ v, v ∈ classes ↔ v ∈ clauses.equivalences.vars
  least : ∀ v r, classes[v]? = some r → IsLeast {w | clauses.equivalences.Linked v w} r
  aligned : ∀ v w r, classes[v]? = some r → classes[w]? = some r → clauses.Aligned v w

/-- The clauses determine the representatives. -/
theorem Merges.getElem?_eq {classes other : Std.TreeMap Var Var} (merges : Merges clauses classes)
    (merges' : Merges clauses other) (v : Var)
    : other[v]? = classes[v]? := by
  by_cases occurs : v ∈ clauses.equivalences.vars
  · have here := Std.TreeMap.getElem?_eq_some_getElem ((merges.known v).mpr occurs)
    have there := Std.TreeMap.getElem?_eq_some_getElem ((merges'.known v).mpr occurs)
    rw [here, there, (merges'.least v _ there).unique (merges.least v _ here)]
  · rw [Std.TreeMap.getElem?_eq_none (occurs ∘ (merges.known v).mp),
      Std.TreeMap.getElem?_eq_none (occurs ∘ (merges'.known v).mp)]

/-- The table of the roots of all variables of the forest, in whatever order they are visited. -/
theorem Lists.merges {links : List (Var × Var)} (lists : Lists clauses links) (proper : clauses.Proper)
    {visited : List Var} (complete : visited.Perm (VariableForest.ofPairs links).parents.keys)
    : Merges clauses ((VariableForest.ofPairs links).rootTable visited) := by
  have visits : ∀ {v}, v ∈ visited ↔ v ∈ clauses.equivalences.vars := by
    intro v
    rw [complete.mem_iff, Std.TreeMap.mem_keys, lists.mem_parents]
  refine ⟨fun v => ?_, fun v r here => ?_, fun v w r here there => ?_⟩
  · rw [VariableForest.mem_rootTable, visits]
  · obtain ⟨listed, rfl⟩ := VariableForest.getElem?_rootTable_eq_some.mp here
    exact lists.isLeast_root (visits.mp listed)
  · obtain ⟨-, first⟩ := VariableForest.getElem?_rootTable_eq_some.mp here
    obtain ⟨-, second⟩ := VariableForest.getElem?_rootTable_eq_some.mp there
    exact lists.aligned_of_root_eq proper (first.trans second.symm)

theorem Complemented.of_proper (proper : clauses.Proper) : Complemented clauses :=
  fun clause member _ inside => (proper clause member _ inside).ne_least rfl

/-- Where all pairs of literals have complements, there are representatives. -/
theorem representatives_ok (complemented : Complemented clauses)
    : ∃ classes, representatives clauses = .ok classes := by
  rw [representatives, representativesBy, equivalentPairs_eq _ complemented]
  exact ⟨_, rfl⟩

theorem representativesBy_merges (visits : Visits) (proper : clauses.Proper)
    : ∃ classes, representativesBy visits clauses = .ok classes ∧ Merges clauses classes := by
  obtain ⟨links, found, lists⟩ := lists_equivalentPairs visits (.of_proper proper)
  rw [representativesBy, found]
  exact ⟨_, rfl, lists.merges proper (visits.vars.perm _)⟩

/-- The representatives are the least variables of the classes that equivalences link, in whatever order the clauses
and the variables are visited, and all models align variables with one representative.
-/
theorem merging_picks_least_variables (proper : clauses.Proper)
    : ∃ classes, representatives clauses = .ok classes ∧ Merges clauses classes
      ∧ ∀ visits, ∃ other : Std.TreeMap Var Var,
          representativesBy visits clauses = .ok other ∧ ∀ v : Var, other[v]? = classes[v]? := by
  obtain ⟨classes, found, merges⟩ := representativesBy_merges .asListed proper
  refine ⟨classes, found, merges, fun visits => ?_⟩
  obtain ⟨other, found', merges'⟩ := representativesBy_merges visits proper
  exact ⟨other, found', merges.getElem?_eq merges'⟩

/-- A chain of two equivalences, whose least variable is in the middle, and a clause that is its own complement. -/
theorem merging_of_a_chain
    : let clauses : Clauses := [[5, -3], [-5, 3], [9, 3], [-3, -9], [1, 9], [4, -4], [7, 8, -2]]
      clauses.Proper
      ∧ ∀ visits, ∃ classes : Std.TreeMap Var Var,
          representativesBy visits clauses = .ok classes
          ∧ [1, 3, 4, 5, 9].map (fun v : Var => classes[v]?) = [none, some 3, some 4, some 3, some 3] := by
  intro clauses
  have proper : clauses.Proper := by
    unfold Clauses.Proper
    decide
  obtain ⟨classes, found, -, independent⟩ := merging_picks_least_variables proper
  have images : (representatives clauses).toOption.map
        (fun classes => [1, 3, 4, 5, 9].map fun v : Var => classes[v]?)
      = some [none, some 3, some 4, some 3, some 3] := by
    decide +kernel
  rw [found] at images
  refine ⟨proper, fun visits => ?_⟩
  obtain ⟨other, found', same⟩ := independent visits
  refine ⟨other, found', ?_⟩
  simp only [same]
  exact Option.some.inj images

end CutSets

end KnowledgeCompiler
