import Mathlib.Data.List.Pairwise
import KnowledgeCompiler.Circuit.Copy
import KnowledgeCompiler.Proofs.Circuit.Building
import KnowledgeCompiler.Proofs.Leaf

/-! Renamed copies of sub-circuits.

A copy is satisfied by an assignment exactly if the original is satisfied by the assignment seen through
the renaming, and it has the images of the variables and conjuncts. Copies that are remembered stay
copies while the circuit grows.
-/

namespace KnowledgeCompiler.Build

open KnowledgeCompiler.Action

variable {c d : Circuit} {names : Renaming} {id copied : NodeId}

-----------------------------------------------------------------------------------------
-- Copies
-----------------------------------------------------------------------------------------

/-- A node is a renamed copy of another one. -/
structure CopyOf (c : Circuit) (names : Renaming) (id copied : NodeId) : Prop where
  present : copied < c.nodes.size
  satisfies : ∀ σ, c.Satisfies σ copied ↔ c.Satisfies (names.pull σ) id
  vars : ∀ w, w ∈ c.varsOf copied ↔ ∃ v ∈ c.varsOf id, names.find? v = some w
  conjuncts : ∀ {l k}, l ∈ c.conjunctsOf id → names.image l = some k → k ∈ c.conjunctsOf copied
  isFalse : c.isFalse copied = c.isFalse id

theorem CopyOf.grow (copy : CopyOf c names id copied) (present : id < c.nodes.size)
    (grown : c.Extends d) (closed : c.Closed)
    : CopyOf d names id copied where
  present := grown.lt copy.present
  satisfies σ := by
    rw [grown.satisfies_iff closed copy.present, grown.satisfies_iff closed present]
    exact copy.satisfies σ
  vars w := by
    rw [grown.varsOf copy.present, grown.varsOf present]
    exact copy.vars w
  conjuncts := by
    rw [grown.conjunctsOf copy.present, grown.conjunctsOf present]
    exact copy.conjuncts
  isFalse := by rw [grown.isFalse copy.present, grown.isFalse present, copy.isFalse]

/-- A renaming can be applied to a node. -/
structure Renames (c : Circuit) (names : Renaming) (id : NodeId) : Prop where
  bounded : names.Bounded
  injective : names.Injective
  covered : ∀ v, v ∈ c.varsOf id → (names.find? v).isSome = true

theorem Renames.grow (renames : Renames c names id) (present : id < c.nodes.size)
    (grown : c.Extends d)
    : Renames d names id where
  bounded := renames.bounded
  injective := renames.injective
  covered := by
    rw [grown.varsOf present]
    exact renames.covered

/-- The copies made so far are copies. -/
def Remembers (c : Circuit) (names : Renaming) (known : Copies) : Prop :=
  ∀ {id copied}, known.lookup id = some copied → id < c.nodes.size ∧ CopyOf c names id copied

theorem Remembers.grow {known : Copies} (remembers : Remembers c names known) (grown : c.Extends d)
    (closed : c.Closed)
    : Remembers d names known := by
  intro id copied found
  obtain ⟨present, copy⟩ := remembers found
  exact ⟨grown.lt present, copy.grow present grown closed⟩

/-- What copying a node leads to. -/
def Copied (c : Circuit) (names : Renaming) (id : NodeId) (result : NodeId × Copies) (d : Circuit)
    : Prop :=
  c.Extends d ∧ d.Regular ∧ CopyOf d names id result.1 ∧ Remembers d names result.2

/-- A way to copy that is right for nodes up to a depth. -/
def CopiesWithin (copy : CopyCall) (depth : Nat) : Prop :=
  ∀ {c names id known}, Circuit.Regular c → id < c.nodes.size → c.Within depth id
    → Renames c names id → Remembers c names known
    → Yields (copy names id known) c (Copied c names id)

/-- Children are copied in turn, each to a node of its own choice; induction on the children. -/
theorem copyAll_spec {copy : CopyCall} {children : List NodeId} {known : Copies} {depth : Nat}
    (copies : CopiesWithin copy depth) (regular : c.Regular) (distinct : children.Nodup)
    (present : ∀ child ∈ children, child < c.nodes.size)
    (below : ∀ child ∈ children, c.Within depth child)
    (renames : ∀ child ∈ children, Renames c names child) (remembers : Remembers c names known)
    : Yields (copyAll copy names children known) c fun result d =>
        c.Extends d ∧ d.Regular ∧ Remembers d names result.2
        ∧ ∃ copyOf : NodeId → NodeId, result.1 = children.map copyOf
          ∧ ∀ child ∈ children, CopyOf d names child (copyOf child) := by
  induction children generalizing c known with
  | nil => exact Yields.pure ⟨.refl c, regular, remembers, id, rfl, by simp⟩
  | cons child rest ih =>
      obtain ⟨new, distinctRest⟩ := List.nodup_cons.mp distinct
      obtain ⟨presentFirst, presentRest⟩ := List.forall_mem_cons.mp present
      obtain ⟨belowFirst, belowRest⟩ := List.forall_mem_cons.mp below
      obtain ⟨renamesFirst, renamesRest⟩ := List.forall_mem_cons.mp renames
      refine (copies regular presentFirst belowFirst renamesFirst remembers).bind ?_
      rintro ⟨first, known⟩ d ⟨grown, regular', copy, remembers'⟩
      refine (ih regular' distinctRest (fun child member => grown.lt (presentRest child member))
        (fun child member => (belowRest child member).grow grown regular.closed (presentRest child member))
        (fun child member => (renamesRest child member).grow (presentRest child member) grown) remembers').bind ?_
      rintro ⟨others, known⟩ e ⟨grown', regular'', remembers'', copyOf, listed, each⟩
      obtain rfl : others = rest.map copyOf := listed
      exact Yields.pure ⟨grown.trans grown', regular'', remembers'',
        Circuit.exists_map_cons _ new (copy.grow (grown.lt presentFirst) grown' regular'.closed) each⟩

theorem image_spec {v : Var} (found : (names.find? v).isSome = true)
    : Yields (image names id v) c fun w d => c = d ∧ names.find? v = some w := by
  obtain ⟨w, same⟩ := Option.isSome_iff_exists.mp found
  unfold image
  rw [same]
  exact Yields.pure ⟨rfl, rfl⟩

/-- The image of the variable that a disjunction decides on. -/
theorem decision_image_spec {decision : Option Var} (covered : ∀ v, decision = some v → (names.find? v).isSome = true)
    : Yields (decision.mapM (image names id)) c fun renamed d => c = d
        ∧ ∀ w, renamed = some w ↔ ∃ v, decision = some v ∧ names.find? v = some w := by
  cases decision with
  | none => exact Yields.pure ⟨rfl, by simp⟩
  | some v =>
      refine (image_spec (covered v rfl)).bind ?_
      rintro w d ⟨rfl, found⟩
      exact Yields.pure ⟨rfl, by simp [found]⟩

-----------------------------------------------------------------------------------------
-- Copying by gate
-----------------------------------------------------------------------------------------

/-- A leaf with the images of the clauses of a leaf is a copy of it. -/
theorem CopyOf.of_leaf {e : Circuit} {clauses renamed : Clauses} (regular : c.Regular)
    (present : id < c.nodes.size)
    (satisfies : ∀ σ, c.Satisfies σ id ↔ Clauses.TrueIn σ clauses)
    (vars : ∀ v, v ∈ c.varsOf id ↔ v ∈ clauses.vars) (unforced : ∀ l, ¬ l ∈ c.conjunctsOf id)
    (open_ : c.isFalse id = false) (renames : Renames c names id)
    (same : renamed = clauses.map (List.filterMap names.image))
    (built : BuiltLeaf c renamed copied e)
    : CopyOf e names id copied := by
  obtain ⟨grown, _, denotes, openCopy, all⟩ := built
  have covers := Renaming.covers_of_vars fun v inside => renames.covered v ((vars v).mpr inside)
  refine ⟨denotes.present, fun σ => ?_, fun w => ?_, fun {l k} forced => ?_, ?_⟩
  · rw [denotes.satisfies, same, Renaming.trueIn_map_image renames.bounded covers,
      grown.satisfies_iff regular.closed present, satisfies]
  · have images : w ∈ renamed.vars ↔ ∃ v ∈ clauses.vars, names.find? v = some w := by
      rw [same]
      exact Renaming.mem_vars_map_image
    rw [grown.varsOf present]
    simp only [vars, ← images]
    exact ⟨fun inside => denotes.vars inside, all w⟩
  · rw [grown.conjunctsOf present] at forced
    exact absurd forced (unforced l)
  · rw [openCopy, grown.isFalse present, open_]

/-- A constant is its own copy. -/
theorem copy_constant (regular : c.Regular) {value : Bool} (found : c.gate? id = some (.constant value))
    : Yields (constant value) c fun copied d => c.Extends d ∧ d.Regular ∧ CopyOf d names id copied := by
  refine (constant_spec regular value).mono fun copied d built => ?_
  obtain ⟨grown, regular', gate⟩ := built
  have kept := grown.gate? found
  refine ⟨grown, regular', Circuit.lt_of_gate? gate, fun σ => ?_, fun w => ?_, fun {l k} forced => ?_, ?_⟩
  · rw [Circuit.satisfies_iff gate, Circuit.satisfies_iff kept]
    exact Iff.rfl
  · simp [regular'.mem_varsOf gate, regular'.mem_varsOf kept, Circuit.Mentions]
  · exact ((regular'.mem_conjunctsOf kept).mp forced).elim
  · rw [Bool.eq_iff_iff, Circuit.isFalse_iff, Circuit.isFalse_iff, gate, kept]

/-- The literal of the image is a copy of a literal. -/
theorem copy_literal (regular : c.Regular) {l : Lit} (found : c.gate? id = some (.literal l)) {w : Var}
    (image : names.find? l.var = some w) (positive : 0 < w) (small : w < 2147483648)
    : Yields (literal (Lit.signed w l.isPositive)) c fun copied d =>
        c.Extends d ∧ d.Regular ∧ CopyOf d names id copied := by
  refine (literal_spec regular (Lit.proper_signed positive small _)).mono fun copied d built => ?_
  obtain ⟨grown, regular', gate⟩ := built
  have kept := grown.gate? found
  refine ⟨grown, regular', Circuit.lt_of_gate? gate, fun σ => ?_, fun u => ?_, fun {k m} forced renamed => ?_, ?_⟩
  · rw [Circuit.satisfies_iff gate, Circuit.satisfies_iff kept]
    simp only [Circuit.Holds]
    rw [Lit.trueIn_signed positive, Lit.TrueIn, Renaming.pull_of_find? image]
  · simp [regular'.mem_varsOf gate, regular'.mem_varsOf kept, Circuit.Mentions, image, eq_comm]
  · obtain rfl : k = l := (regular'.mem_conjunctsOf kept).mp forced
    rw [regular'.mem_conjunctsOf gate]
    simp only [Renaming.image, image, Option.map_some, Option.some.injEq] at renamed
    exact renamed.symm
  · rw [Circuit.isFalse_of_gate? gate (by simp), Circuit.isFalse_of_gate? kept (by simp)]

section Children

variable {children : List NodeId} {known : Copies} {copyOf : NodeId → NodeId}

/-- The variables of the copies are the images of the variables. -/
theorem exists_image_iff (each : ∀ child ∈ children, CopyOf c names child (copyOf child)) {w : Var}
    : (∃ child ∈ children, w ∈ c.varsOf (copyOf child))
      ↔ ∃ v, (∃ child ∈ children, v ∈ c.varsOf child) ∧ names.find? v = some w := by
  constructor
  · intro found
    obtain ⟨child, member, inside⟩ := found
    obtain ⟨v, there, image⟩ := ((each child member).vars w).mp inside
    exact ⟨v, ⟨child, member, there⟩, image⟩
  · intro found
    obtain ⟨v, ⟨child, member, there⟩, image⟩ := found
    exact ⟨child, member, ((each child member).vars w).mpr ⟨v, there, image⟩⟩

/-- Copies of the children of a conjunction, conjoined. -/
theorem copy_conjunction (regular : c.Regular) (found : c.gate? id = some (.and children))
    (renames : Renames c names id)
    (each : ∀ child ∈ children, CopyOf c names child (copyOf child))
    : Yields (conjunction (children.map copyOf)) c fun copied d =>
        c.Extends d ∧ d.Regular ∧ CopyOf d names id copied := by
  have present : ∀ copied ∈ children.map copyOf, copied < c.nodes.size :=
    List.forall_mem_map.mpr fun child member => (each child member).present
  have separate := List.Pairwise.forall (regular.admits found)
  have apart : ∀ a ∈ children.map copyOf, ∀ b ∈ children.map copyOf, a ≠ b → c.Apart a b := by
    refine List.forall_mem_map.mpr fun a left => List.forall_mem_map.mpr fun b right differ => ?_
    intro w first second
    obtain ⟨u, inside, image⟩ := ((each a left).vars w).mp first
    obtain ⟨v, inside', image'⟩ := ((each b right).vars w).mp second
    obtain rfl := renames.injective image image'
    exact separate left right (fun same => differ (same ▸ rfl)) u inside inside'
  refine (conjunction_spec regular present apart).mono (fun copied d built => ?_)
  obtain ⟨satisfies, vars, conjuncts⟩ := built.meaning regular.closed fun child member =>
    present child (mem_children_conjunctionGate.mp member)
  obtain ⟨holds, mentions, forces⟩ := conjunctionGate_meaning c (children.map copyOf)
  obtain ⟨grown, regular', gate⟩ := built
  have here := Circuit.lt_of_gate? found
  refine ⟨grown, regular', Circuit.lt_of_gate? gate, fun σ => ?_, fun w => ?_, fun {l k} forced image => ?_, ?_⟩
  · rw [satisfies, holds, grown.satisfies_iff regular.closed here, Circuit.satisfies_iff found,
      List.forall_mem_map]
    exact forall_congr' fun child => forall_congr' fun member => (each child member).satisfies σ
  · rw [vars, mentions, grown.varsOf here]
    simp only [List.mem_map, exists_exists_and_eq_and, regular.mem_varsOf found, Circuit.Mentions]
    exact exists_image_iff each
  · rw [grown.conjunctsOf here, regular.mem_conjunctsOf found] at forced
    obtain ⟨child, member, inside⟩ := forced
    rw [conjuncts, forces]
    exact ⟨copyOf child, List.mem_map_of_mem member, (each child member).conjuncts inside image⟩
  · rw [not_isFalse_conjunction ⟨grown, regular', gate⟩, grown.isFalse here,
      Circuit.isFalse_of_gate? found (by simp)]

/-- Copies of the children of a disjunction, disjoined. -/
theorem copy_disjunction (regular : c.Regular) {decision renamed : Option Var}
    (found : c.gate? id = some (.or decision children)) (renames : Renames c names id)
    (each : ∀ child ∈ children, CopyOf c names child (copyOf child))
    (images : ∀ w, renamed = some w → ∃ v, decision = some v ∧ names.find? v = some w)
    : Yields (disjunction (children.map copyOf) renamed) c fun copied d =>
        c.Extends d ∧ d.Regular ∧ CopyOf d names id copied := by
  obtain ⟨contradictory, open_, nonempty, decided⟩ := regular.admits found
  have present : ∀ copied ∈ children.map copyOf, copied < c.nodes.size :=
    List.forall_mem_map.mpr fun child member => (each child member).present
  have contradict := List.Pairwise.forall contradictory
  have mentioned : ∀ {child v}, child ∈ children → v ∈ c.varsOf child
      → ∃ w, names.find? v = some w := fun member inside =>
    Option.isSome_iff_exists.mp (renames.covered _ ((regular.mem_varsOf found).mpr ⟨_, member, inside⟩))
  refine (disjunction_spec regular present (by simpa using nonempty) ?_ ?_ ?_).mono
    (fun copied d built => ?_)
  · refine List.forall_mem_map.mpr fun a left => List.forall_mem_map.mpr fun b right differ => ?_
    obtain ⟨l, first, second⟩ := contradict left right fun same => differ (same ▸ rfl)
    have nonzero := ((regular.sound (regular.closed found a left)).proper l first).1
    obtain ⟨w, image⟩ := mentioned left (regular.var_of_conjunct first)
    have image : names.image l = some (Lit.signed w l.isPositive) := by simp [Renaming.image, image]
    exact ⟨_, (each a left).conjuncts first image,
      (each b right).conjuncts second (Renaming.image_neg nonzero image)⟩
  · refine List.forall_mem_map.mpr fun child member => ?_
    rw [(each child member).isFalse]
    exact open_ child member
  · intro w same
    obtain ⟨v, decides, image⟩ := images w same
    obtain ⟨child, member, inside⟩ := decided v decides
    exact ⟨copyOf child, List.mem_map_of_mem member, ((each child member).vars w).mpr ⟨v, inside, image⟩⟩
  · have members : ∀ copied, copied ∈ (SortedSet.ofList (children.map copyOf)).toList
        ↔ copied ∈ children.map copyOf := by simp
    obtain ⟨satisfies, vars, conjuncts⟩ := built.meaning regular.closed fun copied member =>
      present copied ((members copied).mp member)
    obtain ⟨grown, regular', gate⟩ := built
    have here := Circuit.lt_of_gate? found
    refine ⟨grown, regular', Circuit.lt_of_gate? gate, fun σ => ?_, fun w => ?_,
      fun {l k} forced image => ?_, ?_⟩
    · rw [satisfies, grown.satisfies_iff regular.closed here, Circuit.satisfies_iff found]
      simp only [Circuit.Holds, members, List.mem_map, exists_exists_and_eq_and]
      exact exists_congr fun child => and_congr_right fun member => (each child member).satisfies σ
    · rw [vars, grown.varsOf here]
      simp only [Circuit.Mentions, members, List.mem_map, exists_exists_and_eq_and,
        regular.mem_varsOf found]
      exact exists_image_iff each
    · rw [grown.conjunctsOf here, regular.mem_conjunctsOf found] at forced
      rw [conjuncts]
      refine ⟨?_, fun copied member => ?_⟩
      · obtain ⟨child, member⟩ := List.exists_mem_of_ne_nil _ nonempty
        exact List.ne_nil_of_mem ((members _).mpr (List.mem_map_of_mem member))
      · obtain ⟨child, listed, rfl⟩ := List.mem_map.mp ((members copied).mp member)
        exact (each child listed).conjuncts (forced.2 child listed) image
    · rw [Circuit.isFalse_of_gate? gate (by simp), grown.isFalse here, Circuit.isFalse_of_gate? found (by simp)]

/-- The children of a node can be renamed as the node itself. -/
theorem Renames.child {gate : Gate} (renames : Renames c names id) (regular : c.Regular)
    (found : c.gate? id = some gate)
    (mentions : ∀ child ∈ gate.children, ∀ v, v ∈ c.varsOf child → c.Mentions v gate)
    : ∀ child ∈ gate.children, Renames c names child := fun child member =>
  ⟨renames.bounded, renames.injective, fun v inside =>
    renames.covered v ((regular.mem_varsOf found).mpr (mentions child member v inside))⟩

end Children

/-- A copy under two renamings in sequence is a copy of the renamed node. -/
theorem CopyOf.of_mapping {inner : Bijection} {child : NodeId} (regular : c.Regular)
    (found : c.gate? id = some (.mapping inner child))
    (copy : CopyOf c (inner.toGlobal.andThen names) child copied)
    : CopyOf c names id copied where
  present := copy.present
  satisfies σ := by
    rw [copy.satisfies, Renaming.pull_andThen, Circuit.satisfies_iff found]
    rfl
  vars w := by
    rw [copy.vars]
    simp only [regular.mem_varsOf found, Circuit.Mentions, Renaming.find?_andThen,
      Option.bind_eq_some_iff]
    grind
  conjuncts {l k} forced image := by
    obtain ⟨m, inside, first⟩ := (regular.mem_conjunctsOf found).mp forced
    have bounded : inner.toGlobal.Bounded := (regular.admits found).1
    obtain ⟨var, sign, _⟩ := @Renaming.image_eq_some _ (fun _ => false) m l bounded first
    refine copy.conjuncts inside ?_
    rw [Renaming.image, Renaming.find?_andThen, var, Option.bind_some, ← sign]
    exact image
  isFalse := by
    rw [copy.isFalse, (regular.admits found).2.2.1, Circuit.isFalse_of_gate? found (by simp)]

/-- The child of a renamed node can be renamed by both renamings in sequence. -/
theorem Renames.through {inner : Bijection} {child : NodeId} (renames : Renames c names id) (regular : c.Regular)
    (found : c.gate? id = some (.mapping inner child))
    : Renames c (inner.toGlobal.andThen names) child := by
  refine ⟨fun {v w} image => ?_, fun {u v w} first second => ?_, fun v inside => ?_⟩
  · rw [Renaming.find?_andThen] at image
    obtain ⟨middle, _, last⟩ := Option.bind_eq_some_iff.mp image
    exact renames.bounded last
  · rw [Renaming.find?_andThen] at first second
    obtain ⟨a, firstInner, firstOuter⟩ := Option.bind_eq_some_iff.mp first
    obtain ⟨b, secondInner, secondOuter⟩ := Option.bind_eq_some_iff.mp second
    obtain rfl := renames.injective firstOuter secondOuter
    exact inner.toGlobal_injective firstInner secondInner
  · obtain ⟨w, image⟩ := Option.isSome_iff_exists.mp ((regular.admits found).2.1 v inside)
    rw [Renaming.find?_andThen, image]
    exact renames.covered w ((regular.mem_varsOf found).mpr ⟨v, inside, image⟩)

/-- What has been remembered stays a copy after one more copy. -/
theorem Copied.of_built {known : Copies} {e : Circuit} (remembers : Remembers c names known) (regular : c.Regular)
    (built : c.Extends e ∧ e.Regular ∧ CopyOf e names id copied)
    : Copied c names id (copied, known) e :=
  ⟨built.1, built.2.1, built.2.2, remembers.grow built.1 regular.closed⟩

/-- The copy of a node by its gate, given how to copy the nodes below it. -/
theorem copyGate_spec {copy : CopyCall} {known : Copies} {gate : Gate} {depth : Nat}
    (copies : CopiesWithin copy depth) (regular : c.Regular) (found : c.gate? id = some gate)
    (within : c.Within (depth + 1) id) (renames : Renames c names id) (remembers : Remembers c names known)
    : Yields (copyGate copy false names id known gate) c (Copied c names id) := by
  have here := Circuit.lt_of_gate? found
  have before : ∀ child ∈ gate.children, c.Within depth child := fun child member =>
    within child ⟨gate, found, member⟩
  have present : ∀ child ∈ gate.children, child < c.nodes.size := fun child member =>
    regular.closed found child member
  have distinct : gate.children.Nodup := (regular.ascending found).imp Nat.ne_of_lt
  cases gate with
  | constant value =>
      exact Yields.bind (copy_constant regular found) fun copied d built =>
        Yields.pure (.of_built remembers regular built)
  | literal l =>
      have covered := renames.covered l.var ((regular.mem_varsOf found).mpr rfl)
      refine Yields.bind (image_spec covered) (fun w d result => ?_)
      obtain ⟨rfl, image⟩ := result
      obtain ⟨positive, small⟩ := renames.bounded image
      refine Yields.checked (Lit.ofVar_eq small l.isPositive) ?_
      exact Yields.bind (copy_literal regular found image positive small) fun copied d built =>
        Yields.pure (.of_built remembers regular built)
  | and children =>
      have below := renames.child regular found fun child member v inside => ⟨child, member, inside⟩
      refine Yields.bind (copyAll_spec copies regular distinct present before below remembers) fun pair d result => ?_
      obtain ⟨copied, known⟩ := pair
      obtain ⟨grown, regular', remembers', copyOf, rfl, each⟩ := result
      refine Yields.bind (copy_conjunction regular' (grown.gate? found) (renames.grow here grown) each)
        (fun copied e built => Yields.pure ?_)
      exact ⟨grown.trans built.1, built.2.1, built.2.2, remembers'.grow built.1 regular'.closed⟩
  | or decision children =>
      have below := renames.child regular found fun child member v inside => ⟨child, member, inside⟩
      have covered : ∀ v, decision = some v → (names.find? v).isSome = true := fun v decides =>
        renames.covered v ((regular.mem_varsOf found).mpr ((regular.admits found).2.2.2 v decides))
      refine Yields.bind (decision_image_spec covered) (fun renamed d result => ?_)
      obtain ⟨rfl, images⟩ := result
      refine Yields.bind (copyAll_spec copies regular distinct present before below remembers) fun pair d result => ?_
      obtain ⟨copied, known⟩ := pair
      obtain ⟨grown, regular', remembers', copyOf, rfl, each⟩ := result
      refine Yields.bind (copy_disjunction regular' (grown.gate? found) (renames.grow here grown) each
        fun w => (images w).mp) (fun copied e built => Yields.pure ?_)
      exact ⟨grown.trans built.1, built.2.1, built.2.2, remembers'.grow built.1 regular'.closed⟩
  | mapping inner child =>
      have member : child ∈ (Gate.mapping inner child).children := by simp [Gate.children]
      have nothing : Remembers c (inner.toGlobal.andThen names) [] := fun none_ => by simp at none_
      refine Yields.bind (copies regular (present child member) (before child member) (renames.through regular found)
        nothing) (fun result d copied => Yields.pure ?_)
      obtain ⟨grown, regular', copy, _⟩ := copied
      exact .of_built remembers regular ⟨grown, regular', copy.of_mapping regular' (grown.gate? found)⟩
  | twoCnf formula =>
      have vars : ∀ v, v ∈ c.varsOf id ↔ v ∈ formula.clauses.vars := fun v => regular.mem_varsOf found
      obtain ⟨renamed, done, same⟩ := formula.rename?_ok renames.bounded fun v inside =>
        renames.covered v ((vars v).mpr inside)
      have tidy := Renaming.tidy_map_image renames.bounded renames.injective (regular.admits found)
      refine Yields.checked done ?_
      refine Yields.bind (twoCnf_spec regular (same ▸ tidy)) (fun copied d built => Yields.pure ?_)
      refine .of_built remembers regular ⟨built.1, built.2.1, ?_⟩
      exact CopyOf.of_leaf regular here (fun σ => Circuit.satisfies_iff found) vars
        (fun l forced => ((regular.mem_conjunctsOf found).mp forced).elim)
        (Circuit.isFalse_of_gate? found (by simp)) renames same built
  | horn formula =>
      have vars : ∀ v, v ∈ c.varsOf id ↔ v ∈ formula.unflipped.vars := fun v => regular.mem_varsOf found
      obtain ⟨tidy, occurring⟩ := regular.admits found
      obtain ⟨renamed, done, same, flips⟩ := formula.rename?_ok renames.bounded renames.injective tidy.proper
        occurring fun v inside => renames.covered v ((vars v).mpr inside)
      have tidyImage := Renaming.tidy_map_image renames.bounded renames.injective tidy
      have occurringImage : ∀ w, w ∈ renamed.flipped → w ∈ renamed.unflipped.vars := by
        intro w inside
        obtain ⟨v, flipped, image⟩ := flips w inside
        rw [same]
        exact Renaming.mem_vars_map_image.mpr ⟨v, occurring v flipped, image⟩
      refine Yields.checked done ?_
      refine Yields.bind (horn_spec regular (same ▸ tidyImage) occurringImage)
        (fun copied d built => Yields.pure ?_)
      refine .of_built remembers regular ⟨built.1, built.2.1, ?_⟩
      exact CopyOf.of_leaf regular here (fun σ => Circuit.satisfies_iff found) vars
        (fun l forced => ((regular.mem_conjunctsOf found).mp forced).elim)
        (Circuit.isFalse_of_gate? found (by simp)) renames same built

-----------------------------------------------------------------------------------------
-- Copying a sub-circuit
-----------------------------------------------------------------------------------------

/-- The fuel suffices for the nodes up to that depth. -/
theorem copyWithin_spec (fuel : Nat) : CopiesWithin (copyWithin false fuel) fuel := by
  induction fuel with
  | zero => exact fun _ _ none_ => none_.elim
  | succ fuel ih =>
      intro c names id known regular present within renames remembers
      unfold copyWithin
      cases seen : known.lookup id with
      | some copied =>
          exact Yields.pure ⟨.refl c, regular, (remembers seen).2, remembers⟩
      | none =>
          refine Yields.bind (node_spec present) (fun node d result => ?_)
          obtain ⟨rfl, found⟩ := result
          refine Yields.bind (copyGate_spec ih regular (Circuit.gate?_of_node? found) within renames
            remembers) (fun result d copied => Yields.pure ?_)
          obtain ⟨grown, regular', copy, remembers'⟩ := copied
          refine ⟨grown, regular', copy, fun {other copied} known => ?_⟩
          by_cases same : other = id
          · subst same
            obtain rfl : result.1 = copied := by simpa using known
            exact ⟨grown.lt present, copy⟩
          · rw [List.lookup_cons, beq_false_of_ne same] at known
            exact remembers' known

/-- The renamed copy of a node. -/
theorem copy_spec (regular : c.Regular) (present : id < c.nodes.size) (renames : Renames c names id)
    : Yields (copy id names) c fun copied d => c.Extends d ∧ d.Regular ∧ CopyOf d names id copied := by
  refine Yields.current ?_
  have nothing : Remembers c names [] := fun none_ => by simp at none_
  have within := (regular.acyclic.within regular.closed present).mono (Nat.le_succ _)
  refine Yields.bind (copyWithin_spec _ regular present within renames nothing)
    (fun result d copied => Yields.pure ?_)
  exact ⟨copied.1, copied.2.1, copied.2.2.1⟩

end KnowledgeCompiler.Build
