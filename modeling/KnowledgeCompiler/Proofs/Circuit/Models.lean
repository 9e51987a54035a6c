import KnowledgeCompiler.Proofs.Circuit.Covering
import KnowledgeCompiler.Proofs.Circuit.Queries

/-! Models of a node that agree with literals, by the gate of the node.

A conjunction whose children have no variable in common has such a model if each child has one. A mapping
node translates the literals, and agreeing with the translations is agreeing with the literals under the
global names.
-/

namespace KnowledgeCompiler.Circuit

variable {c : Circuit} {id child : NodeId} {children : List NodeId} {decision : Option Var}
variable {names : Bijection} {literals : List Lit} {marked : List Var} {σ τ : Assignment}

/-- A model of a node that agrees with literals over the variables of the node. -/
def Models (c : Circuit) (id : NodeId) (literals : List Lit) (σ : Assignment) : Prop :=
  c.Satisfies σ id ∧ Agrees literals (c.varsOf id) σ

namespace UpToDate

variable (upToDate : c.UpToDate)

include upToDate

/-- Whether an assignment is such a model depends on the variables of the node. -/
theorem models_congr (agree : ∀ v, v ∈ c.varsOf id → σ v = τ v)
    : c.Models id literals σ ↔ c.Models id literals τ :=
  and_congr (upToDate.satisfies_congr agree) (Agrees.congr agree)

theorem dependsOn_models : DependsOn (c.Models id literals) ((c.varsOf id).toFinset : Set Var) :=
  fun _ _ agree => propext (upToDate.models_congr fun v inside =>
    agree v (SortedSet.mem_toFinset.mpr inside))

/-- The models of a conjunction are the common models of its children. -/
theorem models_and (found : c.gate? id = some (.and children))
    : c.Models id literals σ ↔ ∀ child ∈ children, c.Models child literals σ := by
  rw [Models, satisfies_iff found]
  constructor
  · rintro ⟨all, agrees⟩ child member
    exact ⟨all child member, agrees.mono fun v inside =>
      (upToDate.mem_varsOf found).mpr ⟨child, member, inside⟩⟩
  · intro all
    refine ⟨fun child member => (all child member).1, fun l assumed inside => ?_⟩
    obtain ⟨child, member, here⟩ := (upToDate.mem_varsOf found).mp inside
    exact (all child member).2 l assumed here

/-- The literals of a query agree with an assignment where their translations agree with what the
assignment means inside.
-/
theorem agrees_mapping (found : c.gate? id = some (.mapping names child))
    (bounded : names.toLocal.Bounded)
    : Agrees (literals.filterMap names.toLocal.image) (c.varsOf child) (names.toGlobal.pull σ)
      ↔ Agrees literals (c.varsOf id) σ := by
  have translated {l k : Lit} (image : names.toLocal.image l = some k)
      : Lit.TrueIn (names.toGlobal.pull σ) k ↔ Lit.TrueIn σ l := by
    obtain ⟨found, sign, -⟩ := Renaming.image_eq_some (σ := σ) bounded image
    rw [Lit.TrueIn, Lit.TrueIn, sign, Renaming.pull_of_find? (names.toLocal_iff.mp found)]
  constructor
  · intro agrees l assumed inside
    obtain ⟨v, here, image⟩ := (upToDate.mem_varsOf found).mp inside
    have located : names.toLocal.image l = some (Lit.signed v l.isPositive) := by
      rw [Renaming.image, names.toLocal_iff.mpr image]
      rfl
    refine (translated located).mp (agrees _ (List.mem_filterMap.mpr ⟨l, assumed, located⟩) ?_)
    rwa [Lit.var_signed]
  · intro agrees k member inside
    obtain ⟨l, assumed, image⟩ := List.mem_filterMap.mp member
    have global := names.toLocal_iff.mp (Renaming.image_eq_some (σ := σ) bounded image).1
    exact (translated image).mpr (agrees l assumed ((upToDate.mem_varsOf found).mpr ⟨_, inside, global⟩))

/-- The models of a mapping node are those that mean models of the child inside. -/
theorem models_mapping (found : c.gate? id = some (.mapping names child))
    (bounded : names.toLocal.Bounded)
    : c.Models id literals σ
      ↔ c.Models child (literals.filterMap names.toLocal.image) (names.toGlobal.pull σ) := by
  rw [Models, satisfies_iff found]
  exact and_congr_right fun _ => (upToDate.agrees_mapping found bounded).symm

omit upToDate in
/-- Every assignment of the variables inside is meant by one outside. -/
theorem exists_pull (covered : c.Covered) (found : c.gate? id = some (.mapping names child))
    (τ : Assignment)
    : ∃ σ, ∀ v, v ∈ c.varsOf child → names.toGlobal.pull σ v = τ v := by
  refine ⟨names.toLocal.pull τ, fun v inside => ?_⟩
  obtain ⟨w, image⟩ := Option.isSome_iff_exists.mp (covered found v inside)
  rw [Renaming.pull_of_find? image, Renaming.pull_of_find? (names.toLocal_iff.mpr image)]

omit upToDate in
theorem disjoint_of_apart {a b : NodeId} (apart : c.Apart a b)
    : Disjoint (c.varsOf a).toFinset (c.varsOf b).toFinset :=
  Finset.disjoint_left.mpr fun v left right =>
    apart v (SortedSet.mem_toFinset.mp left) (SortedSet.mem_toFinset.mp right)

/-- Children without a common variable have a common model if each has one. -/
theorem exists_models_and (found : c.gate? id = some (.and children))
    (apart : children.Pairwise c.Apart)
    : (∃ σ, c.Models id literals σ) ↔ ∀ child ∈ children, ∃ σ, c.Models child literals σ := by
  classical
  constructor
  · rintro ⟨σ, models⟩ child member
    exact ⟨σ, (upToDate.models_and found).mp models child member⟩
  · intro each
    let part : NodeId → Assignment := fun child =>
      if model : ∃ σ, c.Models child literals σ then model.choose else fun _ => false
    obtain ⟨σ, merged⟩ := exists_merged (apart.imp disjoint_of_apart) part
    refine ⟨σ, (upToDate.models_and found).mpr fun child member => ?_⟩
    have model : c.Models child literals (part child) := by
      simp only [part, dif_pos (each child member)]
      exact (each child member).choose_spec
    exact (upToDate.models_congr fun v inside =>
      merged child member v (SortedSet.mem_toFinset.mpr inside)).mpr model

/-- The models of a disjunction that agree with literals are those of its children. -/
theorem exists_models_or (admissible : Admissible literals)
    (found : c.gate? id = some (.or decision children))
    : (∃ σ, c.Models id literals σ) ↔ ∃ child ∈ children, ∃ σ, c.Models child literals σ := by
  constructor
  · rintro ⟨σ, holds, agrees⟩
    obtain ⟨child, member, below⟩ := (satisfies_iff found).mp holds
    exact ⟨child, member, σ, below, agrees.mono fun v inside =>
      (upToDate.mem_varsOf found).mpr ⟨child, member, inside⟩⟩
  · rintro ⟨child, member, σ, below, agrees⟩
    -- The other children may have variables of their own, to which the literals give values.
    obtain ⟨τ, extends_, same⟩ := admissible.exists_extending agrees
    refine ⟨τ, (satisfies_iff found).mpr ⟨child, member, ?_⟩, fun l assumed _ => extends_ l assumed⟩
    exact (upToDate.satisfies_congr same).mpr below

theorem exists_models_mapping (covered : c.Covered) (found : c.gate? id = some (.mapping names child))
    (bounded : names.toLocal.Bounded)
    : (∃ σ, c.Models id literals σ)
      ↔ ∃ σ, c.Models child (literals.filterMap names.toLocal.image) σ := by
  simp only [upToDate.models_mapping found bounded]
  constructor
  · exact fun ⟨σ, models⟩ => ⟨_, models⟩
  · rintro ⟨τ, models⟩
    obtain ⟨σ, same⟩ := exists_pull covered found τ
    exact ⟨σ, (upToDate.models_congr same).mpr models⟩

-----------------------------------------------------------------------------------------
-- Leaves
-----------------------------------------------------------------------------------------

theorem models_constant {value : Bool} (found : c.gate? id = some (.constant value))
    : c.Models id literals σ ↔ value = true := by
  rw [Models, satisfies_iff found]
  exact and_iff_left fun l _ inside => ((upToDate.mem_varsOf found).mp inside).elim

/-- A literal is true in all models, and the query does not assume its complement. -/
theorem models_literal {l : Lit} (proper : l.Proper) (found : c.gate? id = some (.literal l))
    : c.Models id literals σ ↔ Lit.TrueIn σ l ∧ -l ∉ literals := by
  rw [Models, satisfies_iff found]
  refine and_congr_right fun holds => ⟨fun agrees opposite => ?_, fun free k assumed inside => ?_⟩
  · have inside : (-l).var ∈ c.varsOf id := (upToDate.mem_varsOf found).mpr (Lit.var_neg l)
    exact (Lit.trueIn_neg proper.1).mp (agrees _ opposite inside) holds
  · rcases Lit.eq_or_eq_neg ((upToDate.mem_varsOf found).mp inside) with rfl | rfl
    · exact holds
    · exact absurd assumed free

omit upToDate in
/-- Agreeing with literals is agreeing with those over the variables. -/
theorem agrees_within {vars : SortedSet Var}
    : Agrees literals vars σ ↔ ∀ l ∈ Build.within vars literals, Lit.TrueIn σ l := by
  simp only [Agrees, Build.within, List.mem_filter, SortedSet.contains_iff, and_imp]

end UpToDate

end KnowledgeCompiler.Circuit
