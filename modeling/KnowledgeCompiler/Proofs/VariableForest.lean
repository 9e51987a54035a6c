import Mathlib.Data.Nat.Basic
import KnowledgeCompiler.Proofs.Roots
import KnowledgeCompiler.VariableForest

/-! The classes of variables that are linked pair by pair.

A search changes no root, and linking two variables joins their classes. So the roots of a forest are tied by the
pairs that have been linked, in whatever order that was, and the variables of the forest are those of the pairs.
-/

namespace KnowledgeCompiler.VariableForest

variable {forest : VariableForest} {a b v w target : Var}

-----------------------------------------------------------------------------------------
-- Roots
-----------------------------------------------------------------------------------------

/-- Climbing from parent to parent leads to the root. -/
theorem roots (forest : VariableForest) : Roots forest.parent forest.root where
  below := forest.descending
  top stays := by rw [root, dif_pos stays]
  climb v := by
    by_cases stays : forest.parent v = v
    · rw [stays]
    · rw [root.eq_1 forest v, dif_neg stays]

theorem root_empty : empty.root = id := by
  funext v
  exact empty.roots.top Std.TreeMap.getD_emptyc

theorem parent_redirect (below : target ≤ v) (w : Var)
    : (forest.redirect v target below).parent w = if w = v then target else forest.parent w := by
  simp only [parent, redirect, Std.TreeMap.getD_insert, Nat.compare_eq_eq, @eq_comm _ w]

theorem mem_redirect (below : target ≤ v)
    : w ∈ (forest.redirect v target below).parents ↔ w = v ∨ w ∈ forest.parents := by
  simp only [redirect, Std.TreeMap.mem_insert, Nat.compare_eq_eq, @eq_comm _ w]

-----------------------------------------------------------------------------------------
-- Searches and links
-----------------------------------------------------------------------------------------

/-- With its root as its parent a variable keeps its root, and so do all others. -/
theorem root_redirect_root (forest : VariableForest) (v : Var)
    : (forest.redirect v (forest.root v) (forest.root_le v)).root = forest.root := by
  apply forest.roots.eq_of_within (roots _)
  · intro w stays
    rw [parent_redirect] at stays
    split at stays
    · rename_i here
      subst here
      have top := forest.roots.parent_root w
      rwa [stays] at top
    · exact stays
  · intro w
    rw [parent_redirect]
    split
    · rename_i here
      rw [here, forest.roots.root_root]
    · exact forest.roots.climb w

/-- A search changes no root, and it enters the variable. -/
theorem find_spec (forest : VariableForest) (v : Var)
    : (forest.find v).2.root = forest.root
      ∧ ∀ w, w ∈ (forest.find v).2.parents ↔ w = v ∨ w ∈ forest.parents :=
  ⟨forest.root_redirect_root v, fun _ => mem_redirect (forest.root_le v)⟩

/-- Linking two variables joins their classes, and it enters the variables; the one of their roots that is not a
root any longer is entered with them.
-/
theorem link_spec (forest : VariableForest) (a b : Var)
    : Joins a b forest.root (forest.link a b).root
      ∧ ∀ v, v ∈ (forest.link a b).parents
          ↔ v = a ∨ v = b ∨ v ∈ forest.parents
            ∨ forest.root a ≠ forest.root b ∧ v = max (forest.root a) (forest.root b) := by
  obtain ⟨kept, entered⟩ := forest.find_spec a
  obtain ⟨kept', entered'⟩ := (forest.find a).2.find_spec b
  have first : (forest.find a).1 = forest.root a := rfl
  have second : ((forest.find a).2.find b).1 = forest.root b := congrFun kept b
  rw [kept] at kept'
  rw [link]
  dsimp only
  generalize (forest.find a).2.find b = found at second kept' entered' ⊢
  rw [first, second]
  split
  · rename_i same
    rw [kept']
    exact ⟨.refl same, fun v => by grind⟩
  · rename_i apart
    rw [← kept'] at apart ⊢
    refine ⟨found.2.roots.joins (roots _) apart (parent_redirect _), fun v => ?_⟩
    rw [mem_redirect]
    grind

-----------------------------------------------------------------------------------------
-- Runs
-----------------------------------------------------------------------------------------

/-- What a forest holds after some pairs have been linked: its roots are tied by the pairs, and its variables are
those of the pairs.
-/
structure Linking (pairs : Var → Var → Prop) (forest : VariableForest) : Prop where
  ties : Ties pairs id forest.root
  known : ∀ v, v ∈ forest.parents ↔ ∃ w, pairs v w ∨ pairs w v

/-- The root of a variable is entered, unless the variable is its own root. -/
theorem Linking.root_known {pairs : Var → Var → Prop} (linking : Linking pairs forest) (v : Var)
    : v = forest.root v ∨ forest.root v ∈ forest.parents := by
  have equivalence : Equivalence fun v w => v = w ∨ v ∈ forest.parents ∧ w ∈ forest.parents := by
    refine ⟨fun _ => .inl rfl, ?_, ?_⟩ <;> grind
  have related := linking.ties.respects equivalence (fun v => .inl rfl) (fun {a b} pair =>
    .inr ⟨(linking.known a).mpr ⟨b, .inl pair⟩, (linking.known b).mpr ⟨a, .inr pair⟩⟩) v
  exact related.imp_right And.right

/-- Linking two variables enters no third one, since their roots are entered or are the variables themselves. -/
theorem Linking.mem_link {pairs : Var → Var → Prop} (linking : Linking pairs forest)
    : v ∈ (forest.link a b).parents ↔ v = a ∨ v = b ∨ v ∈ forest.parents := by
  have lowered : v = max (forest.root a) (forest.root b) → v = a ∨ v = b ∨ v ∈ forest.parents := by
    rintro rfl
    rcases max_choice (forest.root a) (forest.root b) with pick | pick
    · rw [pick]
      rcases linking.root_known a with own | known
      · exact .inl own.symm
      · exact .inr (.inr known)
    · rw [pick]
      rcases linking.root_known b with own | known
      · exact .inr (.inl own.symm)
      · exact .inr (.inr known)
  rw [(forest.link_spec a b).2]
  constructor
  · rintro (first | second | old | ⟨-, same⟩)
    · exact .inl first
    · exact .inr (.inl second)
    · exact .inr (.inr old)
    · exact lowered same
  · rintro (first | second | old)
    · exact .inl first
    · exact .inr (.inl second)
    · exact .inr (.inr (.inl old))

/-- One more pair. -/
theorem Linking.link {pairs : Var → Var → Prop} (linking : Linking pairs forest) (a b : Var)
    : Linking (fun v w => pairs v w ∨ v = a ∧ w = b) (forest.link a b) := by
  refine ⟨linking.ties.trans (forest.link_spec a b).1.ties, fun v => ?_⟩
  rw [linking.mem_link, linking.known]
  grind

/-- Pairs that are linked one after the other; induction on the pairs. -/
theorem Linking.foldl {pairs : Var → Var → Prop} (linking : Linking pairs forest) (links : List (Var × Var))
    : Linking (fun v w => pairs v w ∨ (v, w) ∈ links)
        (links.foldl (fun forest pair => forest.link pair.1 pair.2) forest) := by
  induction links generalizing pairs forest with
  | nil => simpa using linking
  | cons pair rest ih => simpa [or_assoc, Prod.ext_iff] using ih (linking.link pair.1 pair.2)

/-- The forest of some pairs. -/
theorem linking_ofPairs (links : List (Var × Var)) : Linking (fun v w => (v, w) ∈ links) (ofPairs links) := by
  have start : Linking (fun _ _ => False) empty := by
    refine ⟨?_, fun v => by simp [empty]⟩
    rw [root_empty]
    exact .refl id
  simpa [ofPairs] using start.foldl links

-----------------------------------------------------------------------------------------
-- Tables of roots
-----------------------------------------------------------------------------------------

/-- Entering roots changes none of them, so each is found again; induction on the variables. -/
theorem getElem?_foldl_enterRoot (vars : List Var) (state : VariableForest × Std.TreeMap Var Var) (v : Var)
    : (vars.foldl enterRoot state).2[v]? = if v ∈ vars then some (state.1.root v) else state.2[v]? := by
  induction vars generalizing state with
  | nil => simp
  | cons first rest ih =>
      have kept : (enterRoot state first).1.root = state.1.root := (state.1.find_spec first).1
      have entered : (enterRoot state first).2 = state.2.insert first (state.1.root first) := rfl
      rw [List.foldl_cons, ih, kept, entered, Std.TreeMap.getElem?_insert]
      grind

/-- The table has the variables with their roots, in whatever order they are looked up. -/
theorem getElem?_rootTable (forest : VariableForest) (vars : List Var) (v : Var)
    : (forest.rootTable vars)[v]? = if v ∈ vars then some (forest.root v) else none :=
  (getElem?_foldl_enterRoot vars (forest, ∅) v).trans (by simp)

theorem getElem?_rootTable_eq_some {vars : List Var} {r : Var}
    : (forest.rootTable vars)[v]? = some r ↔ v ∈ vars ∧ forest.root v = r := by
  simp [getElem?_rootTable]

theorem mem_rootTable {vars : List Var} : v ∈ forest.rootTable vars ↔ v ∈ vars := by
  simp [Std.TreeMap.mem_iff_isSome_getElem?, getElem?_rootTable]

end KnowledgeCompiler.VariableForest
