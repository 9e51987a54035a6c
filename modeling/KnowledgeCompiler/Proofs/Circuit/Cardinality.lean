import KnowledgeCompiler.Proofs.Circuit.Models

/-! The minimum default cardinality is an exact minimum.

A model of a disjunction is a model of one child, under which the variables of the other children are free:
the unobserved ones among them are made true, so that they cost nothing. The children of a decomposable
conjunction have no variable in common, so that their costs add up and are least together if each is least.
-/

namespace KnowledgeCompiler

open Build

variable {c : Circuit} {id child : NodeId} {children : List NodeId} {decision : Option Var}
variable {names : Bijection} {literals : List Lit} {defaults : List Var}

-----------------------------------------------------------------------------------------
-- Least costs
-----------------------------------------------------------------------------------------

section LeastCost

variable {P Q : Assignment → Prop} {cost cost' : Assignment → Nat} {a b : Option Nat}

/-- The least cost of the assignments with a property; nothing if no assignment has it. -/
def IsLeastCost (P : Assignment → Prop) (cost : Assignment → Nat) : Option Nat → Prop
  | none => ∀ σ, ¬ P σ
  | some n => (∃ σ, P σ ∧ cost σ = n) ∧ ∀ σ, P σ → n ≤ cost σ

namespace IsLeastCost

/-- Properties have the same least cost if each assignment with one of them is matched by an assignment with
the other that costs no more.
-/
theorem transfer (least : IsLeastCost P cost a) (there : ∀ σ, P σ → ∃ τ, Q τ ∧ cost' τ ≤ cost σ)
    (back : ∀ τ, Q τ → ∃ σ, P σ ∧ cost σ ≤ cost' τ)
    : IsLeastCost Q cost' a := by
  cases a with
  | none =>
      intro τ holds
      obtain ⟨σ, matched, -⟩ := back τ holds
      exact least σ matched
  | some n =>
      have bound : ∀ τ, Q τ → n ≤ cost' τ := by
        intro τ holds
        obtain ⟨σ, matched, cheaper⟩ := back τ holds
        exact (least.2 σ matched).trans cheaper
      obtain ⟨⟨σ, holds, reached⟩, -⟩ := least
      obtain ⟨τ, matched, cheaper⟩ := there σ holds
      exact ⟨⟨τ, matched, Nat.le_antisymm (reached ▸ cheaper) (bound τ matched)⟩, bound⟩

/-- The least cost of either property is the smaller of the least costs. -/
theorem or (left : IsLeastCost P cost a) (right : IsLeastCost Q cost b)
    : IsLeastCost (fun σ => P σ ∨ Q σ) cost (smaller a b) := by
  cases a with
  | none =>
      refine right.transfer (fun σ holds => ⟨σ, ?_, le_rfl⟩) fun σ holds => ⟨σ, ?_, le_rfl⟩
      · exact .inr holds
      · exact holds.resolve_left (left σ)
  | some m =>
      cases b with
      | none =>
          refine left.transfer (fun σ holds => ⟨σ, ?_, le_rfl⟩) fun σ holds => ⟨σ, ?_, le_rfl⟩
          · exact .inl holds
          · exact holds.resolve_right (right σ)
      | some n =>
          obtain ⟨⟨σ, leftHolds, leftCost⟩, leftBound⟩ := left
          obtain ⟨⟨τ, rightHolds, rightCost⟩, rightBound⟩ := right
          refine ⟨?_, fun ρ => Or.rec ?_ ?_⟩
          · rcases Nat.le_total m n with le | le
            · exact ⟨σ, .inl leftHolds, by rw [leftCost, Nat.min_eq_left le]⟩
            · exact ⟨τ, .inr rightHolds, by rw [rightCost, Nat.min_eq_right le]⟩
          · exact fun holds => (Nat.min_le_left m n).trans (leftBound ρ holds)
          · exact fun holds => (Nat.min_le_right m n).trans (rightBound ρ holds)

end IsLeastCost

end LeastCost

-----------------------------------------------------------------------------------------
-- Lowered variables
-----------------------------------------------------------------------------------------

/-- Whether a variable is a default that the observation does not mention and an assignment makes false. -/
def Lowered (literals : List Lit) (defaults : List Var) (σ : Assignment) (v : Var) : Prop :=
  v ∈ defaults ∧ (∀ l ∈ literals, l.var ≠ v) ∧ σ v = false

instance {σ : Assignment} : DecidablePred (Lowered literals defaults σ) := fun v =>
  inferInstanceAs (Decidable (v ∈ defaults ∧ (∀ l ∈ literals, l.var ≠ v) ∧ σ v = false))

/-- The number of such variables among given ones. -/
def loweredAmong (V : Finset Var) (literals : List Lit) (defaults : List Var) (σ : Assignment) : Nat :=
  (V.filter (Lowered literals defaults σ)).card

section Lowered

variable {V W : Finset Var} {σ τ : Assignment}

theorem loweredAmong_le (le : ∀ v ∈ V, Lowered literals defaults σ v → v ∈ W ∧ Lowered literals defaults τ v)
    : loweredAmong V literals defaults σ ≤ loweredAmong W literals defaults τ := by
  refine Finset.card_le_card fun v member => Finset.mem_filter.mpr ?_
  obtain ⟨inside, lowered⟩ := Finset.mem_filter.mp member
  exact le v inside lowered

theorem loweredAmong_congr (agree : ∀ v ∈ V, σ v = τ v)
    : loweredAmong V literals defaults σ = loweredAmong V literals defaults τ := by
  refine congrArg Finset.card (Finset.filter_congr fun v inside => ?_)
  rw [Lowered, Lowered, agree v inside]

end Lowered

namespace Circuit

/-- The least number of default variables of a node that its models under an observation make false. -/
def LeastLowered (c : Circuit) (id : NodeId) (literals : List Lit) (defaults : List Var)
    : Option Nat → Prop :=
  IsLeastCost (c.Models id literals) (loweredAmong (c.varsOf id).toFinset literals defaults)

/-- No formula leaf is below a node. -/
def FormulaFree (c : Circuit) (id : NodeId) : Prop :=
  ∀ leaf gate, Relation.ReflTransGen c.IsChild leaf id → c.gate? leaf = some gate
    → gate.kind ≠ .twoCnf ∧ gate.kind ≠ .horn

/-- A circuit without formula leaves has none below a node. -/
theorem formulaFree_of_all (none : ∀ node ∈ c.nodes.toList, node.gate.kind ≠ .twoCnf ∧ node.gate.kind ≠ .horn)
    : c.FormulaFree id := fun _ _ _ found =>
  (@forall_gate_iff c fun gate => gate.kind ≠ .twoCnf ∧ gate.kind ≠ .horn).mpr none found

theorem FormulaFree.of_child {gate : Gate} (free : c.FormulaFree id) (found : c.gate? id = some gate)
    (member : child ∈ gate.children)
    : c.FormulaFree child :=
  fun leaf other path => free leaf other (path.tail ⟨gate, found, member⟩)

namespace UpToDate

variable (upToDate : c.UpToDate)

include upToDate

/-- More variables change nothing: where they are not observed, they are made true. -/
theorem leastLowered_widen (admissible : Admissible literals) {V : SortedSet Var}
    (within : ∀ v, v ∈ c.varsOf id → v ∈ V) {answer : Option Nat}
    (least : c.LeastLowered id literals defaults answer)
    : IsLeastCost (fun σ => c.Satisfies σ id ∧ Agrees literals V σ)
        (loweredAmong V.toFinset literals defaults) answer := by
  refine least.transfer ?_ ?_
  · rintro σ ⟨holds, agrees⟩
    let raised : Assignment := fun v => if v ∈ c.varsOf id then σ v else true
    have inside {v : Var} (member : v ∈ c.varsOf id) : raised v = σ v := if_pos member
    obtain ⟨τ, extends_, same⟩ :=
      admissible.complementFree.exists_override ((Agrees.congr fun v => inside).mpr agrees)
    refine ⟨τ, ⟨?_, fun l assumed _ => extends_ l assumed⟩, ?_⟩
    · exact (upToDate.satisfies_congr fun v member => (same v (.inl member)).trans (inside member)).mpr holds
    · refine loweredAmong_le fun v _ ⟨default, free, false_⟩ => ?_
      -- An unobserved variable that is false after all belongs to the node.
      rw [same v (.inr free)] at false_
      have member : v ∈ c.varsOf id := by
        by_contra outside
        simp [raised, outside] at false_
      exact ⟨SortedSet.mem_toFinset.mpr member, default, free, inside member ▸ false_⟩
  · rintro τ ⟨holds, agrees⟩
    refine ⟨τ, ⟨holds, agrees.mono within⟩, loweredAmong_le fun v member lowered => ⟨?_, lowered⟩⟩
    exact SortedSet.mem_toFinset.mpr (within v (SortedSet.mem_toFinset.mp member))

/-- The models of a disjunction cost as much as the models of its children over the same variables. -/
theorem leastLowered_or (admissible : Admissible literals)
    (found : c.gate? id = some (.or decision children)) {least : NodeId → Option Nat}
    (each : ∀ child ∈ children, c.LeastLowered child literals defaults (least child))
    : c.LeastLowered id literals defaults
        (children.foldl (fun sofar child => smaller sofar (least child)) none) := by
  let Below (σ : Assignment) (child : NodeId) : Prop :=
    c.Satisfies σ child ∧ Agrees literals (c.varsOf id) σ
  let cost := loweredAmong (c.varsOf id).toFinset literals defaults
  have wide : ∀ child ∈ children, IsLeastCost (Below · child) cost (least child) := fun child member =>
    upToDate.leastLowered_widen admissible
      (fun v inside => (upToDate.mem_varsOf found).mpr ⟨child, member, inside⟩) (each child member)
  -- Induction on the children that are left, for any property of the ones before.
  have fold {P : Assignment → Prop} {sofar : Option Nat} (before : IsLeastCost P cost sofar)
      : IsLeastCost (fun σ => P σ ∨ ∃ child ∈ children, Below σ child) cost
          (children.foldl (fun sofar child => smaller sofar (least child)) sofar) := by
    clear found each
    induction children generalizing P sofar with
    | nil => simpa using before
    | cons child rest ih =>
        obtain ⟨here, later⟩ := List.forall_mem_cons.mp wide
        simpa only [List.mem_cons, exists_eq_or_imp, or_assoc, List.foldl_cons] using
          ih later (before.or here)
  have models (σ : Assignment)
      : c.Models id literals σ ↔ False ∨ ∃ child ∈ children, Below σ child := by
    rw [Models, satisfies_iff found, false_or]
    constructor
    · rintro ⟨⟨child, member, holds⟩, agrees⟩
      exact ⟨child, member, holds, agrees⟩
    · rintro ⟨child, member, holds, agrees⟩
      exact ⟨⟨child, member, holds⟩, agrees⟩
  have none : IsLeastCost (fun _ => False) cost none := fun _ impossible => impossible
  exact (fold none).transfer (fun σ holds => ⟨σ, (models σ).mpr holds, le_rfl⟩)
    fun σ holds => ⟨σ, (models σ).mp holds, le_rfl⟩

/-- What the children of a conjunction cost adds up. -/
theorem loweredAmong_and (found : c.gate? id = some (.and children)) (apart : children.Pairwise c.Apart)
    (σ : Assignment)
    : loweredAmong (c.varsOf id).toFinset literals defaults σ
      = (children.map fun child =>
          loweredAmong (c.varsOf child).toFinset literals defaults σ).sum := by
  refine card_filter_scopes (apart.imp disjoint_of_apart) fun v => ?_
  simp only [SortedSet.mem_toFinset]
  exact upToDate.mem_varsOf found

/-- The least costs of the children of a conjunction add up. -/
theorem leastLowered_and (found : c.gate? id = some (.and children)) (apart : children.Pairwise c.Apart)
    {number : NodeId → Nat}
    (each : ∀ child ∈ children, c.LeastLowered child literals defaults (some (number child)))
    : c.LeastLowered id literals defaults (some (children.map number).sum) := by
  constructor
  · choose! part models reached using fun child member => (each child member).1
    obtain ⟨σ, merged⟩ := exists_merged (apart.imp disjoint_of_apart) part
    refine ⟨σ, (upToDate.models_and found).mpr fun child member => ?_, ?_⟩
    · exact (upToDate.models_congr fun v inside =>
        merged child member v (SortedSet.mem_toFinset.mpr inside)).mpr (models child member)
    · rw [upToDate.loweredAmong_and found apart]
      refine congrArg List.sum (List.map_congr_left fun child member => ?_)
      exact (loweredAmong_congr (merged child member)).trans (reached child member)
  · intro σ model
    rw [upToDate.loweredAmong_and found apart]
    refine List.sum_le_sum fun child member => (each child member).2 σ ?_
    exact (upToDate.models_and found).mp model child member

/-- A conjunction has no model if a child has none. -/
theorem leastLowered_and_none (found : c.gate? id = some (.and children)) (member : child ∈ children)
    (none : c.LeastLowered child literals defaults none)
    : c.LeastLowered id literals defaults .none :=
  fun σ model => none σ ((upToDate.models_and found).mp model child member)

omit upToDate in
/-- A default variable of a mapping node is lowered where its local name is. -/
theorem lowered_mapping (bounded : names.toLocal.Bounded) {σ : Assignment} {v w : Var}
    (image : names.toGlobal.find? v = some w)
    : Lowered (literals.filterMap names.toLocal.image) (defaults.filterMap names.toLocal.find?)
        (names.toGlobal.pull σ) v
      ↔ Lowered literals defaults σ w := by
  have back {u : Var} : names.toLocal.find? u = some v ↔ u = w := by
    constructor
    · intro found
      have same := names.toLocal_iff.mp found
      rw [image, Option.some.injEq] at same
      exact same.symm
    · rintro rfl
      exact names.toLocal_iff.mpr image
  have default : v ∈ defaults.filterMap names.toLocal.find? ↔ w ∈ defaults := by
    simp only [List.mem_filterMap, back, exists_eq_right]
  have free : (∀ k ∈ literals.filterMap names.toLocal.image, k.var ≠ v) ↔ ∀ l ∈ literals, l.var ≠ w := by
    constructor
    · rintro unmentioned l assumed rfl
      refine unmentioned (Lit.signed v l.isPositive) (List.mem_filterMap.mpr ⟨l, assumed, ?_⟩)
        (Lit.var_signed v _)
      rw [Renaming.image, back.mpr rfl]
      rfl
    · rintro unmentioned k member rfl
      obtain ⟨l, assumed, translated⟩ := List.mem_filterMap.mp member
      exact unmentioned l assumed (back.mp (Renaming.image_eq_some (σ := σ) bounded translated).1)
  rw [Lowered, Lowered, default, free, Renaming.pull_of_find? image]

/-- Renaming changes no cost. -/
theorem leastLowered_mapping (covered : c.Covered) (found : c.gate? id = some (.mapping names child))
    (bounded : names.toLocal.Bounded) {answer : Option Nat}
    (least : c.LeastLowered child (literals.filterMap names.toLocal.image)
      (defaults.filterMap names.toLocal.find?) answer)
    : c.LeastLowered id literals defaults answer := by
  obtain ⟨global, image, injective, vars⟩ := upToDate.exists_global found (covered found)
  have cost (σ : Assignment)
      : loweredAmong (c.varsOf child).toFinset (literals.filterMap names.toLocal.image)
          (defaults.filterMap names.toLocal.find?) (names.toGlobal.pull σ)
        = loweredAmong (c.varsOf id).toFinset literals defaults σ := by
    have lowered : ∀ v ∈ (c.varsOf child).toFinset, _ := fun v inside =>
      @lowered_mapping names literals defaults bounded σ v _ (image v (SortedSet.mem_toFinset.mp inside))
    rw [loweredAmong, loweredAmong, vars, Finset.filter_image, Finset.filter_congr lowered]
    refine (Finset.card_image_of_injOn (injective.mono fun v member => ?_)).symm
    exact (Finset.mem_filter.mp (Finset.mem_coe.mp member)).1
  refine least.transfer (fun τ model => ?_) fun σ model => ?_
  · obtain ⟨σ, same⟩ := exists_pull covered found τ
    refine ⟨σ, (upToDate.models_mapping found bounded).mpr ((upToDate.models_congr same).mpr model), ?_⟩
    rw [← cost σ]
    exact (loweredAmong_congr fun v inside => same v (SortedSet.mem_toFinset.mp inside)).le
  · exact ⟨_, (upToDate.models_mapping found bounded).mp model, (cost σ).le⟩

theorem leastLowered_constant {value : Bool} (found : c.gate? id = some (.constant value))
    : c.LeastLowered id literals defaults (if value then some 0 else none) := by
  have empty : (c.varsOf id).toFinset = ∅ := Finset.eq_empty_of_forall_notMem fun v inside =>
    (upToDate.mem_varsOf found).mp (SortedSet.mem_toFinset.mp inside)
  rw [LeastLowered, empty]
  cases value with
  | true => exact ⟨⟨fun _ => false, (upToDate.models_constant found).mpr rfl, rfl⟩, fun _ _ => Nat.zero_le _⟩
  | false => exact fun σ model => Bool.noConfusion ((upToDate.models_constant found).mp model)

/-- A literal has one model over its variable, which lowers the variable if the literal is negative. -/
theorem leastLowered_literal {l : Lit} (proper : l.Proper) (found : c.gate? id = some (.literal l))
    : c.LeastLowered id literals defaults
        (if -l ∈ literals then none
          else if l ∉ literals ∧ l < 0 ∧ l.var ∈ defaults then some 1 else some 0) := by
  have single : (c.varsOf id).toFinset = {l.var} := by
    ext v
    rw [SortedSet.mem_toFinset, upToDate.mem_varsOf found, Finset.mem_singleton]
    rfl
  rw [LeastLowered, single]
  by_cases excluded : -l ∈ literals
  · rw [if_pos excluded]
    exact fun σ model => ((upToDate.models_literal proper found).mp model).2 excluded
  · rw [if_neg excluded]
    have free : (∀ k ∈ literals, k.var ≠ l.var) ↔ l ∉ literals := by
      constructor
      · exact fun unmentioned assumed => unmentioned l assumed rfl
      · intro absent k assumed same
        rcases Lit.eq_or_eq_neg same with rfl | rfl
        · exact absent assumed
        · exact excluded assumed
    have sign : l.isPositive = false ↔ l < 0 := by
      have nonzero := proper.1
      simp only [Lit.isPositive]
      grind
    have cost {σ : Assignment} (holds : Lit.TrueIn σ l)
        : loweredAmong {l.var} literals defaults σ
          = if l ∉ literals ∧ l < 0 ∧ l.var ∈ defaults then 1 else 0 := by
      have lowered : Lowered literals defaults σ l.var ↔ l ∉ literals ∧ l < 0 ∧ l.var ∈ defaults := by
        have value : σ l.var = l.isPositive := holds
        rw [Lowered, free, value, sign]
        tauto
      rw [loweredAmong, Finset.filter_singleton]
      simp only [lowered]
      split <;> rfl
    have true_ : Lit.TrueIn (fun _ => l.isPositive) l := rfl
    have models {σ : Assignment} : c.Models id literals σ ↔ Lit.TrueIn σ l :=
      (upToDate.models_literal proper found).trans (and_iff_left excluded)
    split
    · rename_i lowers
      refine ⟨⟨_, models.mpr true_, (cost true_).trans (if_pos lowers)⟩, fun σ model => ?_⟩
      exact ((cost (models.mp model)).trans (if_pos lowers)).ge
    · rename_i keeps
      exact ⟨⟨_, models.mpr true_, (cost true_).trans (if_neg keeps)⟩, fun _ _ => Nat.zero_le _⟩

end UpToDate

end Circuit

namespace Build

theorem conjoin_cardinality {value : NodeId → Outcome (Option Nat)} {number : NodeId → Nat}
    (each : ∀ child ∈ children, value child = .ok (some (number child))) (start : Nat)
    : combine cardinalityWalk.conjoin value children (some start)
      = .ok (some (start + (children.map number).sum)) := by
  induction children generalizing start with
  | nil => rfl
  | cons child rest ih =>
      obtain ⟨here, later⟩ := List.forall_mem_cons.mp each
      rw [combine, here, List.map_cons, List.sum_cons, ← Nat.add_assoc]
      exact ih later _

/-- A child without a model ends the sum. -/
theorem conjoin_infinite {value : NodeId → Outcome (Option Nat)} {least : NodeId → Option Nat}
    (each : ∀ child ∈ children, value child = .ok (least child))
    (infinite : ∃ child ∈ children, least child = none) (start : Nat)
    : combine cardinalityWalk.conjoin value children (some start) = .ok none := by
  induction children generalizing start with
  | nil => simp at infinite
  | cons child rest ih =>
      obtain ⟨here, later⟩ := List.forall_mem_cons.mp each
      rw [combine, here]
      cases found : least child with
      | none => rfl
      | some n =>
          refine ih later ?_ (start + n)
          simpa [found] using infinite

theorem disjoin_cardinality {value : NodeId → Outcome (Option Nat)} {least : NodeId → Option Nat}
    (each : ∀ child ∈ children, value child = .ok (least child)) (start : Option Nat)
    : combine cardinalityWalk.disjoin value children start
      = .ok (children.foldl (fun sofar child => smaller sofar (least child)) start) := by
  induction children generalizing start with
  | nil => rfl
  | cons child rest ih =>
      obtain ⟨here, later⟩ := List.forall_mem_cons.mp each
      rw [combine, here]
      exact ih later _

/-- On a decomposable node without formula leaves below, the walk comes to the least number of lowered
variables; induction on the fuel.
-/
theorem cardinality_answer (upToDate : c.UpToDate) (inRange : c.InRange) (covered : c.Covered)
    {fuel : Nat} (within : c.Within fuel id) (present : id < c.nodes.size)
    (admissible : Admissible literals) (decomposable : (c.throughoutOf id).decomposable = true)
    (free : c.FormulaFree id)
    : ∃ answer, cardinalityWalk.answer c fuel id literals defaults = .ok answer
      ∧ c.LeastLowered id literals defaults answer := by
  induction fuel generalizing id literals defaults with
  | zero => exact within.elim
  | succ fuel ih =>
      obtain ⟨here, found⟩ := Circuit.exists_node present
      have at_ := Circuit.gate?_of_node? found
      have step : ∀ child ∈ here.gate.children, ∀ {literals} (defaults), Admissible literals →
          ∃ answer, cardinalityWalk.answer c fuel child literals defaults = .ok answer
            ∧ c.LeastLowered child literals defaults answer :=
        fun child member {_} _ admissible => ih (within child ⟨here.gate, at_, member⟩)
          (upToDate.closed at_ child member) admissible
          (upToDate.flag_child (fun _ _ => rfl) rfl at_ decomposable member) (free.of_child at_ member)
      cases gate : here.gate with
      | and children =>
          rw [gate] at step at_
          choose! least done each using fun child member => step child member defaults admissible
          rw [Walk.answer_and found gate]
          by_cases infinite : ∃ child ∈ children, least child = none
          · obtain ⟨child, member, none⟩ := infinite
            refine ⟨_, conjoin_infinite done ⟨child, member, none⟩ 0, ?_⟩
            exact upToDate.leastLowered_and_none at_ member (none ▸ each child member)
          · have finite : ∀ child ∈ children, ∃ n, least child = some n := fun child member =>
              Option.ne_none_iff_exists'.mp fun none => infinite ⟨child, member, none⟩
            choose! number some using finite
            have answers : ∀ child ∈ children,
                cardinalityWalk.answer c fuel child literals defaults = .ok (.some (number child)) :=
              fun child member => some child member ▸ done child member
            refine ⟨_, conjoin_cardinality answers 0, ?_⟩
            · rw [Nat.zero_add]
              exact upToDate.leastLowered_and at_ (upToDate.apart_of_decomposable at_ decomposable)
                fun child member => some child member ▸ each child member
      | or decision children =>
          rw [gate] at step at_
          choose! least done each using fun child member => step child member defaults admissible
          rw [Walk.answer_or found gate]
          exact ⟨_, disjoin_cardinality done none, upToDate.leastLowered_or admissible at_ each⟩
      | mapping names child =>
          rw [gate] at step at_
          obtain ⟨-, bounded⟩ := inRange at_
          obtain ⟨answer, done, least⟩ := step child (by simp [Gate.children])
            (defaults.filterMap names.toLocal.find?) (admissible.image bounded names.toLocal_injective)
          rw [Walk.answer_mapping found gate]
          exact ⟨answer, done, upToDate.leastLowered_mapping covered at_ bounded least⟩
      | constant value =>
          rw [gate] at at_
          rw [Walk.answer_leaf found (by rw [Node.kind, gate]; rfl), gate]
          exact ⟨_, rfl, upToDate.leastLowered_constant at_⟩
      | literal l =>
          rw [gate] at at_
          have proper : l.Proper := inRange at_
          rw [Walk.answer_leaf found (by rw [Node.kind, gate]; rfl), gate]
          refine ⟨_, ?_, upToDate.leastLowered_literal proper at_⟩
          exact congrArg Outcome.ofChecked (literalCardinality_ok proper)
      | twoCnf formula => exact absurd rfl (free id _ .refl (gate ▸ at_)).1
      | horn formula => exact absurd rfl (free id _ .refl (gate ▸ at_)).2

end Build

end KnowledgeCompiler
