import KnowledgeCompiler.Proofs.Circuit.Remnants
import KnowledgeCompiler.Proofs.Leaf

/-! Nodes that mirror the nodes of an earlier circuit under other names.

Children of one node may come to the same node, and formula leaves to the constant false. What is said of a copy is
said in terms of the original: it has the models of the original seen through the renaming, the images of the variables
that remain, at least the images of the conjuncts, and the properties of the original. It is smooth just if the same
variables remain in the children of each disjunction.
-/

namespace KnowledgeCompiler

open KnowledgeCompiler.Build

/-- The kinds of formula leaves. -/
def NodeKind.isFormula : NodeKind → Bool
  | .twoCnf | .horn => true
  | .constant | .literal | .and | .or | .mapping => false

/-- The clauses of a formula leaf. -/
def Gate.formula? : Gate → Option Clauses
  | .twoCnf formula => some formula.clauses
  | .horn formula => some formula.unflipped
  | .constant _ | .literal _ | .and _ | .or .. | .mapping .. => none

namespace Circuit

variable {b d e : Circuit} {id copied child : NodeId} {gate : Gate} {names : Renaming} {expanding : Bool}
variable {clauses : Clauses} {children : List NodeId} {v w : Var} {l : Lit}

-----------------------------------------------------------------------------------------
-- Circuits that can be copied
-----------------------------------------------------------------------------------------

/-- An up-to-date circuit with its numbers in range whose mapping nodes name all variables of their children, whose
decisions are about variables below, and whose Horn leaves flip variables of their own only.
-/
structure Copyable (c : Circuit) : Prop extends c.UpToDate where
  inRange : c.InRange
  covered : c.Covered
  decided : c.Decided
  flipsOwn : c.FlipsOwn

theorem Copyable.advances (copyable : b.Copyable) : b.Advances b := copyable.toUpToDate.advances copyable.inRange

theorem Copyable.mem_vars_of_flipped {formula : Horn} (copyable : b.Copyable)
    (found : b.gate? id = some (.horn formula)) (v : Var) (flipped : v ∈ formula.flipped)
    : v ∈ formula.unflipped.vars :=
  Horn.mem_vars_unflipped.mpr (copyable.flipsOwn found v (SortedSet.mem_toList.mpr flipped))

/-- The child of a mapping node can be renamed by the names of the node and a renaming of the node in sequence. -/
theorem Copyable.fits_through {inner : Bijection} (copyable : b.Copyable) (fits : names.Fits (b.varsOf id))
    (found : b.gate? id = some (.mapping inner child))
    : (inner.toGlobal.andThen names).Fits (b.varsOf child) := by
  refine fits.andThen inner.toGlobal_injective fun v inside => ?_
  obtain ⟨w, image⟩ := Option.isSome_iff_exists.mp (copyable.covered found v inside)
  exact ⟨w, (copyable.mem_varsOf found).mpr ⟨v, inside, image⟩, image⟩

/-- The children of a conjunction or disjunction can be renamed like the node. -/
theorem Copyable.fits_child (copyable : b.Copyable) (fits : names.Fits (b.varsOf id)) (found : b.gate? id = some gate)
    (inner : gate.kind = .and ∨ gate.kind = .or) (member : child ∈ gate.children)
    : names.Fits (b.varsOf child) := by
  refine fits.mono fun v inside => (copyable.mem_varsOf found).mpr ?_
  cases gate with
  | and children | or decision children => exact ⟨child, member, inside⟩
  | _ => simp [Gate.kind] at inner

-----------------------------------------------------------------------------------------
-- Formula leaves
-----------------------------------------------------------------------------------------

/-- A node stands for the clauses of a formula leaf: it has all properties, the models of the clauses, and their
variables, unless it is made of decisions and the clauses have no model.
-/
structure Stands (c : Circuit) (expanding : Bool) (clauses : Clauses) (id : NodeId) : Prop extends c.Flawless id where
  satisfies : ∀ σ, c.Satisfies σ id ↔ Clauses.TrueIn σ clauses
  mem_varsOf : ∀ v, v ∈ c.varsOf id ↔ v ∈ clauses.vars ∧ (expanding = true → clauses.Satisfiable)
  avoids : ∀ stripped, (stripped = true → expanding = true) → c.Avoids (NodeKind.isRemoved stripped) id

theorem Avoids.mono {unwanted fewer : NodeKind → Bool} (avoids : d.Avoids unwanted id)
    (weaken : ∀ kind, unwanted kind = false → fewer kind = false)
    : d.Avoids fewer id := fun other path gate found => weaken _ (avoids other path gate found)

theorem Represents.stands (represents : d.Represents clauses clauses.vars id) : d.Stands true clauses id where
  toFlawless := represents.toFlawless
  satisfies := represents.satisfies
  mem_varsOf v := (represents.mem_varsOf v).trans (and_congr_right fun _ => by simp)
  avoids stripped _ := represents.avoids.mono fun kind kept => by
    cases kind <;> cases stripped <;> simp_all [NodeKind.isRemoved]

theorem Realizes.stands (realizes : d.Realizes gate id) (upToDate : d.UpToDate) (inRange : d.InRange)
    (leaf : gate.kind.isInner = false) (holds : ∀ σ, d.Holds σ gate ↔ Clauses.TrueIn σ clauses)
    (mentions : ∀ v, d.Mentions v gate ↔ v ∈ clauses.vars)
    : d.Stands false clauses id where
  toFlawless := realizes.flawless upToDate inRange leaf
  satisfies σ := realizes.satisfies_iff.trans (holds σ)
  mem_varsOf v := (realizes.mem_varsOf upToDate).trans ((mentions v).trans (by simp))
  avoids stripped kept := by
    refine realizes.avoids_of_leaf leaf ?_
    cases stripped with
    | true => cases kept rfl
    | false =>
        cases gate with
        | mapping inner child => cases leaf
        | _ => rfl

-----------------------------------------------------------------------------------------
-- Mirrored nodes
-----------------------------------------------------------------------------------------

/-- A node of the second circuit mirrors one of the first circuit under other names. It has no node that renames below
it, and no formula leaf if such leaves are expanded or there is none below the original.
-/
structure Mirrors (b d : Circuit) (expanding : Bool) (names : Renaming) (id copied : NodeId) : Prop where
  present : copied < d.nodes.size
  satisfies : ∀ σ, d.Satisfies σ copied ↔ b.Satisfies (names.pull σ) id
  vars : ∀ w, w ∈ d.varsOf copied ↔ ∃ v, b.Remains expanding v id ∧ names.find? v = some w
  conjuncts : ∀ l k, l ∈ b.conjunctsOf id → names.image l = some k → k ∈ d.conjunctsOf copied
  falsum : b.isFalse id = true → d.isFalse copied = true
  decomposable : (b.throughoutOf id).decomposable = true → (d.throughoutOf copied).decomposable = true
  deterministic : (b.throughoutOf id).deterministic = true → (d.throughoutOf copied).deterministic = true
  smooth : (d.throughoutOf copied).smooth = true ↔ b.Level expanding id
  avoids
    : ∀ stripped,
        (stripped = true → expanding = true ∨ b.Avoids NodeKind.isFormula id)
        → d.Avoids (NodeKind.isRemoved stripped) copied

theorem Mirrors.grow (mirrors : b.Mirrors d expanding names id copied) (grown : d.Extends e) (closed : d.Closed)
    : b.Mirrors e expanding names id copied where
  present := grown.lt mirrors.present
  satisfies σ := (grown.satisfies_iff closed mirrors.present).trans (mirrors.satisfies σ)
  vars := grown.varsOf mirrors.present ▸ mirrors.vars
  conjuncts := grown.conjunctsOf mirrors.present ▸ mirrors.conjuncts
  falsum := grown.isFalse mirrors.present ▸ mirrors.falsum
  decomposable := grown.throughoutOf mirrors.present ▸ mirrors.decomposable
  deterministic := grown.throughoutOf mirrors.present ▸ mirrors.deterministic
  smooth := grown.throughoutOf mirrors.present ▸ mirrors.smooth
  avoids stripped kept := (mirrors.avoids stripped kept).grow mirrors.present grown closed

/-- A node mirrors a leaf without conjuncts that is not the constant false: it suffices that it has all properties. -/
theorem Flawless.mirrors (flawless : d.Flawless copied) (copyable : b.Copyable) (found : b.gate? id = some gate)
    (leaf : gate.kind.isInner = false)
    (satisfies : ∀ σ, d.Satisfies σ copied ↔ b.Holds (names.pull σ) gate)
    (vars : ∀ w, w ∈ d.varsOf copied ↔ ∃ v, b.Sustains expanding v gate ∧ names.find? v = some w)
    (conjuncts : ∀ l k, b.Commits l gate → names.image l = some k → k ∈ d.conjunctsOf copied)
    (falsum : gate = .constant false → d.isFalse copied = true)
    (avoids : ∀ stripped, (stripped = true → expanding = true ∨ gate.kind.isFormula = false)
      → d.Avoids (NodeKind.isRemoved stripped) copied)
    : b.Mirrors d expanding names id copied where
  present := flawless.present
  satisfies σ := (satisfies σ).trans (satisfies_iff found).symm
  vars w := by simp only [vars, remains_iff found]
  conjuncts l k forced image := conjuncts l k ((copyable.mem_conjunctsOf copyable.inRange found).mp forced) image
  falsum holds := falsum (Option.some.inj (found.symm.trans (isFalse_iff.mp holds)))
  decomposable _ := flawless.decomposable
  deterministic _ := flawless.deterministic
  smooth := by
    refine iff_of_true flawless.smooth ((level_iff found).mpr ?_)
    cases gate <;> simp_all [Gate.kind, Gate.children, NodeKind.isInner]
  avoids stripped kept := avoids stripped fun stripping =>
    (kept stripping).imp_right fun plain => ((avoids_iff found).mp plain).1

theorem mirrors_constant {value : Bool} (copyable : b.Copyable) (found : b.gate? id = some (.constant value))
    (realizes : d.Realizes (.constant value) copied) (upToDate : d.UpToDate) (inRange : d.InRange)
    : b.Mirrors d expanding names id copied := by
  refine (realizes.flawless upToDate inRange rfl).mirrors copyable found rfl (fun σ => ?_) (fun w => ?_)
    (fun l k forced => forced.elim) (fun same => ?_) fun stripped _ => realizes.avoids_of_leaf rfl rfl
  · exact realizes.satisfies_iff
  · simp [realizes.mem_varsOf upToDate, Mentions, Sustains]
  · obtain rfl : value = false := Gate.constant.inj same
    exact realizes.isFalse

theorem mirrors_literal (copyable : b.Copyable) (found : b.gate? id = some (.literal l))
    (image : names.find? l.var = some w) (positive : 0 < w)
    (realizes : d.Realizes (.literal (Lit.signed w l.isPositive)) copied) (upToDate : d.UpToDate) (inRange : d.InRange)
    : b.Mirrors d expanding names id copied := by
  refine (realizes.flawless upToDate inRange rfl).mirrors copyable found rfl (fun σ => ?_) (fun u => ?_)
    (fun k m forced renamed => ?_) nofun fun stripped _ => realizes.avoids_of_leaf rfl rfl
  · rw [realizes.satisfies_iff]
    simp only [Holds]
    rw [Lit.trueIn_signed positive, Lit.TrueIn, Renaming.pull_of_find? image]
  · simp [realizes.mem_varsOf upToDate, Mentions, Sustains, image, eq_comm]
  · obtain rfl : k = l := forced
    rw [realizes.mem_conjunctsOf upToDate inRange]
    simp only [Renaming.image, image, Option.map_some, Option.some.injEq] at renamed
    exact renamed.symm

/-- What stands for the renamed clauses of a formula leaf mirrors the leaf. -/
theorem Stands.mirrors (stands : d.Stands expanding (clauses.map (List.filterMap names.image)) copied)
    (copyable : b.Copyable) (found : b.gate? id = some gate) (formula : gate.formula? = some clauses)
    (fits : names.Fits clauses.vars)
    : b.Mirrors d expanding names id copied := by
  have holds (σ : Assignment) : b.Holds σ gate ↔ Clauses.TrueIn σ clauses := by
    cases gate <;> simp_all [Gate.formula?, Holds]
  have sustains (v : Var)
      : b.Sustains expanding v gate ↔ v ∈ clauses.vars ∧ (expanding = true → clauses.Satisfiable) := by
    cases gate <;> simp_all [Gate.formula?, Sustains]
  refine stands.toFlawless.mirrors copyable found ?_ (fun σ => ?_) (fun w => ?_) (fun l k forced => ?_) ?_ ?_
  · cases gate <;> simp_all [Gate.formula?, Gate.kind, NodeKind.isInner]
  · rw [stands.satisfies, fits.trueIn_map_image, holds]
  · have models : Clauses.Satisfiable (clauses.map (List.filterMap names.image)) ↔ clauses.Satisfiable :=
      fits.exists_model_iff
    simp only [stands.mem_varsOf, Renaming.mem_vars_map_image, sustains, models]
    grind
  · cases gate <;> simp_all [Gate.formula?, Commits]
  · rintro rfl
    cases formula
  · intro stripped kept
    refine stands.avoids stripped fun stripping => (kept stripping).resolve_right ?_
    cases gate <;> simp_all [Gate.formula?, Gate.kind, NodeKind.isFormula]

section Children

theorem UpToDate.isFalse_of_conjunct (upToDate : d.UpToDate) (inRange : d.InRange) (inside : l ∈ d.conjunctsOf id)
    : d.isFalse id = false :=
  Bool.eq_false_iff.mpr fun falsum => (upToDate.mem_conjunctsOf inRange (isFalse_iff.mp falsum)).mp inside

variable {copyOf : NodeId → NodeId} {decision : Option Var}

/-- A copy that is not the constant false is one of a node that is not. -/
theorem Mirrors.alive (mirrors : b.Mirrors d expanding names id copied) (open_ : d.isFalse copied = false)
    : b.isFalse id = false :=
  Bool.eq_false_iff.mpr fun falsum => Bool.eq_false_iff.mp open_ (mirrors.falsum falsum)

/-- The variables of copies are the images of what remains in the originals. -/
theorem exists_mem_varsOf_iff (each : ∀ child ∈ children, b.Mirrors d expanding names child (copyOf child))
    : (∃ part ∈ children.map copyOf, w ∈ d.varsOf part)
      ↔ ∃ v, (∃ child ∈ children, b.Remains expanding v child) ∧ names.find? v = some w := by
  simp only [List.mem_map, exists_exists_and_eq_and]
  constructor
  · rintro ⟨child, member, inside⟩
    obtain ⟨v, remains, image⟩ := ((each child member).vars w).mp inside
    exact ⟨v, ⟨child, member, remains⟩, image⟩
  · rintro ⟨v, ⟨child, member, remains⟩, image⟩
    exact ⟨child, member, ((each child member).vars w).mpr ⟨v, remains, image⟩⟩

/-- What remains in a child of a disjunction is a variable of the disjunction. -/
theorem Copyable.mem_varsOf_of_remains (copyable : b.Copyable) (found : b.gate? id = some (.or decision children))
    (member : child ∈ children) (remains : b.Remains expanding v child)
    : v ∈ b.varsOf id :=
  (copyable.mem_varsOf found).mpr ⟨child, member, remains.mem_varsOf copyable.toUpToDate⟩

/-- The conjuncts of a child of a disjunction have images. -/
theorem Copyable.exists_image (copyable : b.Copyable) (fits : names.Fits (b.varsOf id))
    (found : b.gate? id = some (.or decision children)) (member : child ∈ children) (forced : l ∈ b.conjunctsOf child)
    : ∃ k, names.image l = some k := by
  have inside := copyable.var_of_conjunct copyable.inRange forced
  obtain ⟨w, image⟩ := Option.isSome_iff_exists.mp
    (fits.covered _ ((copyable.mem_varsOf found).mpr ⟨child, member, inside⟩))
  exact ⟨Lit.signed w l.isPositive, by simp [Renaming.image, image]⟩

/-- The copies of different nodes of a decomposable conjunction have no common variable. -/
theorem apart_of_mirrors {x y : NodeId} (copyable : b.Copyable) (fits : names.Fits (b.varsOf id))
    (found : b.gate? id = some (.and children)) {a c : NodeId} (left : a ∈ children) (right : c ∈ children)
    (apart : b.Apart a c) (first : b.Mirrors d expanding names a x) (second : b.Mirrors d expanding names c y)
    : d.Apart x y := by
  intro w inside inside'
  obtain ⟨u, remains, image⟩ := (first.vars w).mp inside
  obtain ⟨v, remains', image'⟩ := (second.vars w).mp inside'
  have here := remains.mem_varsOf copyable.toUpToDate
  have there := remains'.mem_varsOf copyable.toUpToDate
  obtain rfl := fits.injective ((copyable.mem_varsOf found).mpr ⟨a, left, here⟩)
    ((copyable.mem_varsOf found).mpr ⟨c, right, there⟩) image image'
  exact apart u here there

/-- A conjunction of copies mirrors the conjunction. -/
theorem Conjoins.mirrors (conjoins : d.Conjoins (children.map copyOf) copied) (copyable : b.Copyable)
    (fits : names.Fits (b.varsOf id)) (found : b.gate? id = some (.and children))
    (each : ∀ child ∈ children, b.Mirrors d expanding names child (copyOf child))
    : b.Mirrors d expanding names id copied where
  present := conjoins.present
  satisfies σ := by
    rw [conjoins.satisfies, satisfies_iff found, List.forall_mem_map]
    exact forall₂_congr fun child member => (each child member).satisfies σ
  vars w := by
    rw [conjoins.vars, exists_mem_varsOf_iff each]
    simp only [remains_iff found, Sustains]
  conjuncts l k forced image := by
    obtain ⟨child, member, inside⟩ := (copyable.mem_conjunctsOf copyable.inRange found).mp forced
    exact (conjoins.conjuncts k).mpr ⟨_, List.mem_map_of_mem member, (each child member).conjuncts l k inside image⟩
  falsum falsum := by
    have impossible := found.symm.trans (isFalse_iff.mp falsum)
    cases impossible
  decomposable holds := by
    obtain ⟨apart, below⟩ := (copyable.decomposable_iff copyable.inRange found).mp holds
    refine conjoins.decomposable.mpr ⟨?_, List.forall_mem_map.mpr fun child member =>
      (each child member).decomposable (below child member)⟩
    refine List.forall_mem_map.mpr fun a left => List.forall_mem_map.mpr fun c right differ => ?_
    exact apart_of_mirrors copyable fits found left right
      ((apart _ rfl).forall left right fun same => differ (same ▸ rfl)) (each a left) (each c right)
  deterministic holds := by
    obtain ⟨-, below⟩ := (copyable.deterministic_iff copyable.inRange found).mp holds
    exact conjoins.deterministic.mpr (List.forall_mem_map.mpr fun child member =>
      (each child member).deterministic (below child member))
  smooth := by
    rw [conjoins.smooth, level_iff found, List.forall_mem_map]
    simp only [Gate.children, reduceCtorEq, false_implies, implies_true, true_and]
    exact forall₂_congr fun child member => (each child member).smooth
  avoids stripped kept := by
    refine (conjoins.avoids rfl rfl).mpr (List.forall_mem_map.mpr fun child member => ?_)
    exact (each child member).avoids stripped fun stripping =>
      (kept stripping).imp_right fun plain => ((avoids_iff found).mp plain).2 child member

/-- Copies have the same variables just if the same variables remain in the originals. -/
theorem varsOf_eq_iff_of_mirrors {x y : NodeId} (copyable : b.Copyable) (fits : names.Fits (b.varsOf id))
    (found : b.gate? id = some (.or decision children)) {a c : NodeId} (left : a ∈ children) (right : c ∈ children)
    (first : b.Mirrors d expanding names a x) (second : b.Mirrors d expanding names c y)
    : d.varsOf x = d.varsOf y ↔ ∀ v, b.Remains expanding v a ↔ b.Remains expanding v c := by
  have within {child : NodeId} (member : child ∈ children) {v : Var} (remains : b.Remains expanding v child)
      : v ∈ b.varsOf id := copyable.mem_varsOf_of_remains found member remains
  have transfer {a c x y : NodeId} (left : a ∈ children) (right : c ∈ children)
      (first : b.Mirrors d expanding names a x) (second : b.Mirrors d expanding names c y)
      (same : d.varsOf x = d.varsOf y) {v : Var} (remains : b.Remains expanding v a)
      : b.Remains expanding v c := by
    obtain ⟨w, image⟩ := Option.isSome_iff_exists.mp (fits.covered v (within left remains))
    have inside : w ∈ d.varsOf y := same ▸ (first.vars w).mpr ⟨v, remains, image⟩
    obtain ⟨u, remains', image'⟩ := (second.vars w).mp inside
    exact fits.injective (within right remains') (within left remains) image' image ▸ remains'
  constructor
  · exact fun same v => ⟨transfer left right first second same, transfer right left second first same.symm⟩
  · intro same
    refine SortedSet.ext_mem fun w => ?_
    rw [first.vars, second.vars]
    exact exists_congr fun v => and_congr_left fun _ => same v

/-- Copies of children that exclude each other exclude each other. -/
theorem Copyable.contradict_of_mirrors (copyable : b.Copyable) (fits : names.Fits (b.varsOf id))
    (found : b.gate? id = some (.or decision children)) {a c x y : NodeId} (left : a ∈ children)
    (first : b.Mirrors d expanding names a x) (second : b.Mirrors d expanding names c y) (contradict : b.Contradict a c)
    : d.Contradict x y := by
  obtain ⟨l, forced, forced'⟩ := contradict
  obtain ⟨k, image⟩ := copyable.exists_image fits found left forced
  have nonzero := (copyable.conjunct_sound copyable.inRange forced).1.1
  exact ⟨k, first.conjuncts l k forced image, second.conjuncts (-l) (-k) forced' (Renaming.image_neg nonzero image)⟩

/-- A disjunction of copies mirrors the disjunction. -/
theorem Disjoins.mirrors (disjoins : d.Disjoins (children.map copyOf) copied) (copyable : b.Copyable)
    (upToDate : d.UpToDate) (inRange : d.InRange) (fits : names.Fits (b.varsOf id))
    (found : b.gate? id = some (.or decision children))
    (each : ∀ child ∈ children, b.Mirrors d expanding names child (copyOf child))
    : b.Mirrors d expanding names id copied where
  present := disjoins.present
  satisfies σ := by
    simp only [disjoins.satisfies, satisfies_iff found, Holds, List.mem_map, exists_exists_and_eq_and]
    exact exists_congr fun child => and_congr_right fun member => (each child member).satisfies σ
  vars w := by
    rw [disjoins.vars, exists_mem_varsOf_iff each]
    simp only [remains_iff found, Sustains]
  conjuncts l k forced image := by
    obtain ⟨⟨child, member, open_⟩, every⟩ := (copyable.mem_conjunctsOf copyable.inRange found).mp forced
    have here := (each child member).conjuncts l k (every child member open_) image
    -- The copy of a child with a conjunct is not the constant false, as it has one as well.
    refine (disjoins.conjuncts k).mpr ⟨⟨_, List.mem_map_of_mem member, upToDate.isFalse_of_conjunct inRange here⟩, ?_⟩
    refine List.forall_mem_map.mpr fun other listed there => ?_
    exact (each other listed).conjuncts l k (every other listed ((each other listed).alive there)) image
  falsum falsum := by
    have impossible := found.symm.trans (isFalse_iff.mp falsum)
    cases impossible
  decomposable holds := by
    obtain ⟨-, below⟩ := (copyable.decomposable_iff copyable.inRange found).mp holds
    exact disjoins.decomposable.mpr (List.forall_mem_map.mpr fun child member =>
      (each child member).decomposable (below child member))
  deterministic holds := by
    obtain ⟨exclusive, below⟩ := (copyable.deterministic_iff copyable.inRange found).mp holds
    refine disjoins.deterministic.mpr ⟨?_, List.forall_mem_map.mpr fun child member =>
      (each child member).deterministic (below child member)⟩
    refine List.forall_mem_map.mpr fun a left => List.forall_mem_map.mpr fun c right open_ open_' differ => ?_
    have listed {child : NodeId} (member : child ∈ children) (open_ : d.isFalse (copyOf child) = false)
        : child ∈ children.filter fun child => !b.isFalse child := by
      simp [member, (each child member).alive open_]
    exact copyable.contradict_of_mirrors fits found left (each a left) (each c right)
      ((exclusive _ _ rfl).forall (listed left open_) (listed right open_') fun same => differ (same ▸ rfl))
  smooth := by
    rw [disjoins.smooth, level_iff found]
    refine and_congr ?_ (List.forall_mem_map.trans (forall₂_congr fun child member => (each child member).smooth))
    have pairs : (∀ x ∈ children.map copyOf, ∀ y ∈ children.map copyOf, d.varsOf x = d.varsOf y)
        ↔ ∀ a ∈ children, ∀ c ∈ children, ∀ v, b.Remains expanding v a ↔ b.Remains expanding v c := by
      simp only [List.forall_mem_map]
      exact forall₂_congr fun a left => forall₂_congr fun c right =>
        varsOf_eq_iff_of_mirrors copyable fits found left right (each a left) (each c right)
    rw [pairs]
    constructor
    · rintro same _ _ ⟨⟩
      exact same
    · exact fun same => same _ _ rfl
  avoids stripped kept := by
    refine (disjoins.avoids rfl).mpr (List.forall_mem_map.mpr fun child member => ?_)
    exact (each child member).avoids stripped fun stripping =>
      (kept stripping).imp_right fun plain => ((avoids_iff found).mp plain).2 child member

/-- A copy under two renamings in sequence mirrors the renamed node. -/
theorem Mirrors.of_mapping {inner : Bijection}
    (mirrors : b.Mirrors d expanding (inner.toGlobal.andThen names) child copied) (copyable : b.Copyable)
    (found : b.gate? id = some (.mapping inner child))
    : b.Mirrors d expanding names id copied where
  present := mirrors.present
  satisfies σ := by
    rw [mirrors.satisfies, Renaming.pull_andThen, satisfies_iff found]
    rfl
  vars w := by
    simp only [mirrors.vars, remains_iff found, Sustains, Renaming.find?_andThen, Option.bind_eq_some_iff]
    grind
  conjuncts l k forced image := by
    obtain ⟨m, inside, first⟩ := (copyable.mem_conjunctsOf copyable.inRange found).mp forced
    have bounded : inner.toGlobal.Bounded := (copyable.inRange found).1
    obtain ⟨var, sign, _⟩ := Renaming.image_eq_some (σ := fun _ => false) bounded first
    refine mirrors.conjuncts m k inside ?_
    rw [Renaming.image, Renaming.find?_andThen, var, Option.bind_some, ← sign]
    exact image
  falsum falsum := by
    have impossible := found.symm.trans (isFalse_iff.mp falsum)
    cases impossible
  decomposable holds := mirrors.decomposable
    (((copyable.decomposable_iff copyable.inRange found).mp holds).2 child (List.mem_singleton_self child))
  deterministic holds := mirrors.deterministic
    (((copyable.deterministic_iff copyable.inRange found).mp holds).2 child (List.mem_singleton_self child))
  smooth := by simp [mirrors.smooth, level_iff found, Gate.children]
  avoids stripped kept := mirrors.avoids stripped fun stripping => (kept stripping).imp_right fun plain =>
    ((avoids_iff found).mp plain).2 child (List.mem_singleton_self child)

end Children

end Circuit

end KnowledgeCompiler
