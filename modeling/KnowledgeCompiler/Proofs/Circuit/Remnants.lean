import KnowledgeCompiler.Proofs.Circuit.Expansion

/-! Variables that remain in a copy.

A copy has the images of the variables of the original, unless it expands formula leaves: of a leaf without a model the
constant false is left, and its variables are gone. Where such a leaf is the only place of a variable, the copy lacks
the variable, a decision on it is refused, and disjunctions above may have children with different variables.
-/

namespace KnowledgeCompiler

open Relation
open KnowledgeCompiler.Build

/-- A formula leaf has a model. -/
def Gate.Possible : Gate → Prop
  | .twoCnf formula => formula.clauses.Satisfiable
  | .horn formula => formula.unflipped.Satisfiable
  | _ => True

namespace Circuit

variable {c : Circuit} {id other child : NodeId} {node : Node} {gate : Gate} {v : Var} {expanding : Bool}

theorem Everywhere.below {P : NodeId → Prop} (everywhere : c.Everywhere P id) (path : ReflTransGen c.IsChild other id)
    : c.Everywhere P other := fun lower lowerPath => everywhere lower (lowerPath.trans path)

-----------------------------------------------------------------------------------------
-- Remaining variables
-----------------------------------------------------------------------------------------

/-- A variable occurs below a node outside of the formula leaves that come to nothing, under the names that it has
there.
-/
inductive Remains (c : Circuit) (expanding : Bool) : Var → NodeId → Prop
  | leaf {v : Var} {id : NodeId} {gate : Gate} (found : c.gate? id = some gate) (childless : gate.children = [])
    (mentioned : c.Mentions v gate) (possible : expanding = true → gate.Possible)
    : c.Remains expanding v id
  | child {v : Var} {id child : NodeId} {gate : Gate} (found : c.gate? id = some gate)
    (inner : gate.kind = .and ∨ gate.kind = .or) (member : child ∈ gate.children)
    (below : c.Remains expanding v child)
    : c.Remains expanding v id
  | renamed {u v : Var} {id child : NodeId} {names : Bijection} (found : c.gate? id = some (.mapping names child))
    (image : names.toGlobal.find? u = some v) (below : c.Remains expanding u child)
    : c.Remains expanding v id

/-- A gate sustains a variable, in terms of the nodes below it. -/
def Sustains (c : Circuit) (expanding : Bool) (v : Var) : Gate → Prop
  | .constant _ => False
  | .literal l => v = l.var
  | .and children | .or _ children => ∃ child ∈ children, c.Remains expanding v child
  | .mapping names child => ∃ u, c.Remains expanding u child ∧ names.toGlobal.find? u = some v
  | .twoCnf formula => v ∈ formula.clauses.vars ∧ (expanding = true → formula.clauses.Satisfiable)
  | .horn formula => v ∈ formula.unflipped.vars ∧ (expanding = true → formula.unflipped.Satisfiable)

theorem remains_iff (found : c.gate? id = some gate) : c.Remains expanding v id ↔ c.Sustains expanding v gate := by
  constructor
  · intro remains
    cases remains with
    | leaf there childless mentioned possible =>
        obtain rfl := Option.some.inj (found.symm.trans there)
        cases gate with
        | constant value => exact mentioned
        | literal l => exact mentioned
        | and children | or decision children =>
            obtain rfl : children = [] := childless
            obtain ⟨child, member, -⟩ := mentioned
            exact absurd member List.not_mem_nil
        | mapping names child => exact absurd childless (List.cons_ne_nil child [])
        | twoCnf formula | horn formula => exact ⟨mentioned, possible⟩
    | child there inner member below =>
        obtain rfl := Option.some.inj (found.symm.trans there)
        cases gate with
        | and children | or decision children => exact ⟨_, member, below⟩
        | _ => simp [Gate.kind] at inner
    | renamed there image below =>
        obtain rfl := Option.some.inj (found.symm.trans there)
        exact ⟨_, below, image⟩
  · intro sustains
    cases gate with
    | constant value => exact sustains.elim
    | literal l => exact .leaf found rfl sustains fun _ => trivial
    | and children =>
        obtain ⟨child, member, below⟩ := sustains
        exact .child found (.inl rfl) member below
    | or decision children =>
        obtain ⟨child, member, below⟩ := sustains
        exact .child found (.inr rfl) member below
    | mapping names child =>
        obtain ⟨u, below, image⟩ := sustains
        exact .renamed found image below
    | twoCnf formula | horn formula => exact .leaf found rfl sustains.1 sustains.2

/-- What remains does occur; induction on the occurrence. -/
theorem Remains.occurs (remains : c.Remains expanding v id) : c.Occurs v id := by
  induction remains with
  | leaf found childless mentioned _ => exact .leaf found childless mentioned
  | child found inner member _ ih => exact .child found inner member ih
  | renamed found image _ ih => exact .renamed found image ih

theorem Remains.mem_varsOf (remains : c.Remains expanding v id) (upToDate : c.UpToDate) : v ∈ c.varsOf id :=
  upToDate.mem_varsOf_of_occurs remains.occurs

/-- All formula leaves with variables at or below a node have models, if they are to be expanded. -/
def Intact (c : Circuit) (expanding : Bool) : NodeId → Prop :=
  c.Everywhere fun other => ∀ gate v, c.gate? other = some gate → c.Mentions v gate → expanding = true → gate.Possible

/-- Without expansion nothing is asked of formula leaves. -/
theorem intact_of_copy : c.Intact false id := nofun

theorem Intact.below (intact : c.Intact expanding id) (path : ReflTransGen c.IsChild other id)
    : c.Intact expanding other :=
  Everywhere.below intact path

/-- If no formula leaf comes to nothing, all variables remain; induction on the occurrence. -/
theorem Intact.remains_of_occurs (intact : c.Intact expanding id) (occurs : c.Occurs v id)
    : c.Remains expanding v id := by
  induction occurs with
  | leaf found childless mentioned =>
      exact .leaf found childless mentioned (intact _ .refl _ _ found mentioned)
  | child found inner member _ ih =>
      exact .child found inner member (ih (intact.below (.single ⟨_, found, member⟩)))
  | renamed found image _ ih =>
      exact .renamed found image (ih (intact.below (.single ⟨_, found, List.mem_singleton_self _⟩)))

theorem Intact.remains_iff (intact : c.Intact expanding id) (upToDate : c.UpToDate)
    : c.Remains expanding v id ↔ v ∈ c.varsOf id :=
  ⟨fun remains => remains.mem_varsOf upToDate, fun inside => intact.remains_of_occurs (upToDate.occurs inside)⟩

-----------------------------------------------------------------------------------------
-- Decisions and disjunctions
-----------------------------------------------------------------------------------------

/-- All decision variables at or below a node remain below their decisions. -/
def Grounded (c : Circuit) (expanding : Bool) : NodeId → Prop :=
  c.Everywhere fun other =>
    ∀ gate, c.gate? other = some gate → ∀ v, gate.decision = some v → c.Remains expanding v other

theorem grounded_iff (found : c.gate? id = some gate)
    : c.Grounded expanding id
      ↔ (∀ v, gate.decision = some v → c.Remains expanding v id)
        ∧ ∀ child ∈ gate.children, c.Grounded expanding child := by
  refine (everywhere_iff found).trans (and_congr_left fun _ => ?_)
  simp [found]

/-- The same variables remain in all children of each disjunction at or below a node. -/
def Level (c : Circuit) (expanding : Bool) : NodeId → Prop :=
  c.Everywhere fun other =>
    ∀ decision children,
      c.gate? other = some (.or decision children)
      → ∀ a ∈ children, ∀ b ∈ children, ∀ v, c.Remains expanding v a ↔ c.Remains expanding v b

theorem level_iff (found : c.gate? id = some gate)
    : c.Level expanding id
      ↔ (∀ decision children,
          gate = .or decision children
          → ∀ a ∈ children, ∀ b ∈ children, ∀ v, c.Remains expanding v a ↔ c.Remains expanding v b)
        ∧ ∀ child ∈ gate.children, c.Level expanding child := by
  refine (everywhere_iff found).trans (and_congr_left fun _ => ?_)
  simp [found]

/-- Where no formula leaf comes to nothing, all decisions stay. -/
theorem Intact.grounded (intact : c.Intact expanding id) (decided : c.Decided) : c.Grounded expanding id :=
  fun _ path _ found _ decides =>
    (intact.below path).remains_of_occurs (decided.occurs (decided.decides found decides))

/-- Where no formula leaf comes to nothing, smooth sub-circuits stay smooth and others stay uneven. -/
theorem Intact.level_iff (intact : c.Intact expanding id) (upToDate : c.UpToDate) (inRange : c.InRange)
    (present : id < c.nodes.size)
    : c.Level expanding id ↔ (c.throughoutOf id).smooth = true := by
  obtain ⟨node, found⟩ := c.exists_node present
  have everywhere : node.throughout.smooth = true ↔ ∀ {other below}, ReflTransGen c.IsChild other id
      → c.node? other = some below → below.summary.own.smooth = true :=
    upToDate.flag_iff_below (fun _ _ => rfl) rfl found
  rw [throughoutOf_of_node? found, everywhere]
  have even {other : NodeId} (path : ReflTransGen c.IsChild other id) {decision : Option Var} {children : List NodeId}
      (there : c.gate? other = some (.or decision children))
      : c.Even (.or decision children)
        ↔ ∀ a ∈ children, ∀ b ∈ children, ∀ v, c.Remains expanding v a ↔ c.Remains expanding v b := by
    have vars {child : NodeId} (member : child ∈ children) {v : Var}
        : c.Remains expanding v child ↔ v ∈ c.varsOf child :=
      (intact.below (.head ⟨_, there, member⟩ path)).remains_iff upToDate
    refine forall₂_congr fun a left => forall₂_congr fun b right => ?_
    simp only [vars left, vars right]
    exact ⟨fun same v => by rw [same], SortedSet.ext_mem⟩
  constructor
  · intro level other below path there
    refine (upToDate.evaluates inRange there).smooth.mpr ?_
    have gate := gate?_of_node? there
    cases shape : below.gate with
    | or decision children =>
        rw [shape] at gate
        exact (even path gate).mpr (level other path decision children gate)
    | _ => trivial
  · intro smooth other path decision children found
    obtain ⟨below, there, shape⟩ := Option.map_eq_some_iff.mp found
    have holds := (upToDate.evaluates inRange there).smooth.mp (smooth path there)
    rw [shape] at holds
    exact (even path found).mp holds

/-- Where a variable of a smooth sub-circuit does not remain, the sub-circuit has no model: all children of a
disjunction have the variable, so each of them stands on a leaf that comes to nothing. Induction from the children
upwards.
-/
theorem UpToDate.not_satisfies_of_lost (upToDate : c.UpToDate) (smooth : (c.throughoutOf id).smooth = true)
    (inside : v ∈ c.varsOf id) (lost : ¬ c.Remains expanding v id) (σ : Assignment)
    : ¬ c.Satisfies σ id := by
  induction id using upToDate.acyclic.induction generalizing v σ with
  | _ id ih =>
      obtain ⟨node, there⟩ := c.exists_node (lt_of_mem_varsOf inside)
      have found := gate?_of_node? there
      generalize node.gate = gate at found
      have step {child : NodeId} (member : child ∈ gate.children) {v : Var} (inside : v ∈ c.varsOf child)
          (lost : ¬ c.Remains expanding v child) (σ : Assignment)
          : ¬ c.Satisfies σ child := by
        have below : (c.throughoutOf child).smooth = true :=
          upToDate.flag_child (fun _ _ => rfl) rfl found smooth member
        exact ih child ⟨gate, found, member⟩ below inside lost σ
      have mentioned := (upToDate.mem_varsOf found).mp inside
      rw [Circuit.remains_iff found] at lost
      rw [satisfies_iff found]
      cases gate with
      | constant value => exact mentioned.elim
      | literal l => exact absurd mentioned lost
      | and children =>
          obtain ⟨child, member, inside⟩ := mentioned
          exact fun all => step member inside (fun remains => lost ⟨child, member, remains⟩) σ (all child member)
      | or decision children =>
          rintro ⟨child, member, holds⟩
          have whole : v ∈ c.varsOf child := (upToDate.vars_of_smooth found smooth member).symm ▸ inside
          exact step member whole (fun remains => lost ⟨child, member, remains⟩) σ holds
      | mapping names child =>
          obtain ⟨u, inside, image⟩ := mentioned
          exact step (List.mem_singleton_self child) inside (fun remains => lost ⟨u, remains, image⟩) _
      | twoCnf formula | horn formula => exact fun model => lost ⟨mentioned, fun _ => ⟨σ, model⟩⟩

/-- The conjuncts of a node are about its variables; induction from the children upwards. -/
theorem UpToDate.var_of_conjunct (upToDate : c.UpToDate) (inRange : c.InRange) {l : Lit}
    (forced : l ∈ c.conjunctsOf id)
    : l.var ∈ c.varsOf id := by
  induction id using upToDate.acyclic.induction generalizing l with
  | _ id ih =>
      cases found : c.gate? id with
      | none =>
          have missing : c.node? id = none := by simpa [gate?] using found
          simp [conjunctsOf, missing] at forced
      | some gate =>
          have commits := (upToDate.mem_conjunctsOf inRange found).mp forced
          rw [upToDate.mem_varsOf found]
          cases gate with
          | constant value => exact commits.elim
          | literal k => exact congrArg Lit.var commits
          | and children =>
              obtain ⟨child, member, inside⟩ := commits
              exact ⟨child, member, ih child ⟨_, found, member⟩ inside⟩
          | or decision children =>
              obtain ⟨⟨child, member, alive⟩, every⟩ := commits
              exact ⟨child, member, ih child ⟨_, found, member⟩ (every child member alive)⟩
          | mapping names child =>
              obtain ⟨k, inside, image⟩ := commits
              have bounded : names.toGlobal.Bounded := (inRange found).1
              exact ⟨k.var, ih child ⟨_, found, List.mem_singleton_self child⟩ inside,
                (Renaming.image_eq_some (σ := fun _ => false) bounded image).1⟩
          | twoCnf formula | horn formula => exact commits.elim

end Circuit

end KnowledgeCompiler
