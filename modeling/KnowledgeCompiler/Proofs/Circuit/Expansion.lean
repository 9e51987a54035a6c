import KnowledgeCompiler.Proofs.Circuit.Assembly
import KnowledgeCompiler.Proofs.ModelCount

/-! Decision circuits of clauses.

The decision circuit has the models of the clauses and all properties. Over satisfiable clauses it has all variables
that it is asked for, also those without an occurrence; of other clauses the constant false is left.
-/

namespace KnowledgeCompiler

open KnowledgeCompiler.Build
open KnowledgeCompiler.Action (Yields)

/-- The kinds of nodes that a copy leaves out: nodes that rename, and formula leaves if it expands them. -/
def NodeKind.isRemoved (expanding : Bool) : NodeKind → Bool
  | .mapping => true
  | .twoCnf | .horn => expanding
  | .constant | .literal | .and | .or => false

/-- Clauses with a model. -/
def Clauses.Satisfiable (clauses : Clauses) : Prop := ∃ σ, Clauses.TrueIn σ clauses

namespace Circuit

variable {c d : Circuit} {id p : NodeId} {gate : Gate} {parts ids : List NodeId} {clauses : Clauses}
variable {vars : SortedSet Var} {v : Var} {l : Lit} {free : Var → NodeId}

-----------------------------------------------------------------------------------------
-- Explicit sub-circuits
-----------------------------------------------------------------------------------------

/-- A sub-circuit with all properties. -/
structure Flawless (c : Circuit) (id : NodeId) : Prop where
  present : id < c.nodes.size
  decomposable : (c.throughoutOf id).decomposable = true
  deterministic : (c.throughoutOf id).deterministic = true
  smooth : (c.throughoutOf id).smooth = true

/-- A sub-circuit with all properties, without nodes that rename and without formula leaves. -/
structure Explicit (c : Circuit) (id : NodeId) : Prop extends c.Flawless id where
  avoids : c.Avoids (NodeKind.isRemoved true) id

theorem Explicit.grow (explicit : c.Explicit id) (grown : c.Extends d) (closed : c.Closed) : d.Explicit id where
  present := grown.lt explicit.present
  decomposable := grown.throughoutOf explicit.present ▸ explicit.decomposable
  deterministic := grown.throughoutOf explicit.present ▸ explicit.deterministic
  smooth := grown.throughoutOf explicit.present ▸ explicit.smooth
  avoids := explicit.avoids.grow explicit.present grown closed

/-- Nodes without children have all properties. -/
theorem Realizes.flawless (realizes : c.Realizes gate id) (upToDate : c.UpToDate) (inRange : c.InRange)
    (leaf : gate.kind.isInner = false)
    : c.Flawless id where
  present := realizes.lt
  decomposable := by
    rw [realizes.decomposable_iff upToDate inRange]
    cases gate <;> simp_all [Gate.kind, Gate.children, NodeKind.isInner]
  deterministic := by
    rw [realizes.deterministic_iff upToDate inRange]
    cases gate <;> simp_all [Gate.kind, Gate.children, NodeKind.isInner]
  smooth := by
    rw [realizes.smooth_iff upToDate inRange]
    cases gate <;> simp_all [Gate.kind, Gate.children, NodeKind.isInner, Even]

theorem Realizes.avoids_of_leaf {unwanted : NodeKind → Bool} (realizes : c.Realizes gate id)
    (leaf : gate.kind.isInner = false) (kept : unwanted gate.kind = false)
    : c.Avoids unwanted id := by
  rw [realizes.avoids_iff]
  cases gate <;> simp_all [Gate.kind, Gate.children, NodeKind.isInner]

theorem Realizes.explicit (realizes : c.Realizes gate id) (upToDate : c.UpToDate) (inRange : c.InRange)
    (leaf : gate.kind.isInner = false) (kept : gate.kind.isRemoved true = false)
    : c.Explicit id :=
  ⟨realizes.flawless upToDate inRange leaf, realizes.avoids_of_leaf leaf kept⟩

theorem Conjoins.explicit (conjoins : c.Conjoins parts id)
    (apart : ∀ a ∈ parts, ∀ b ∈ parts, a ≠ b → c.Apart a b) (each : ∀ part ∈ parts, c.Explicit part)
    : c.Explicit id where
  present := conjoins.present
  decomposable := conjoins.decomposable.mpr ⟨apart, fun part member => (each part member).decomposable⟩
  deterministic := conjoins.deterministic.mpr fun part member => (each part member).deterministic
  smooth := conjoins.smooth.mpr fun part member => (each part member).smooth
  avoids := (conjoins.avoids rfl rfl).mpr fun part member => (each part member).avoids

theorem Disjoins.explicit (disjoins : c.Disjoins parts id)
    (contradict : ∀ a ∈ parts, ∀ b ∈ parts, a ≠ b → c.Contradict a b)
    (even : ∀ a ∈ parts, ∀ b ∈ parts, c.varsOf a = c.varsOf b) (each : ∀ part ∈ parts, c.Explicit part)
    : c.Explicit id where
  present := disjoins.present
  decomposable := disjoins.decomposable.mpr fun part member => (each part member).decomposable
  deterministic := disjoins.deterministic.mpr
    ⟨fun a left b right _ _ => contradict a left b right, fun part member => (each part member).deterministic⟩
  smooth := disjoins.smooth.mpr ⟨even, fun part member => (each part member).smooth⟩
  avoids := (disjoins.avoids rfl).mpr fun part member => (each part member).avoids

theorem Frees.explicit (frees : c.Frees v id) (upToDate : c.UpToDate) (inRange : c.InRange) : c.Explicit id := by
  have decomposable := frees.balanced.decomposable upToDate inRange
  have deterministic := frees.deterministic upToDate inRange
  have balanced := frees.balanced
  obtain ⟨positive, negative, children, first, second, found, members⟩ := frees
  have literal {child : NodeId} (member : child ∈ (Gate.or none children).children) : c.Explicit child := by
    rcases (members child).mp member with rfl | rfl
    · exact Realizes.explicit ⟨_, first, .same _⟩ upToDate inRange rfl rfl
    · exact Realizes.explicit ⟨_, second, .same _⟩ upToDate inRange rfl rfl
  refine ⟨⟨lt_of_gate? found, decomposable, deterministic, ?_⟩, ?_⟩
  · exact (upToDate.smooth_iff inRange found).mpr
      ⟨balanced.even upToDate.rightVars found, fun child member => (literal member).smooth⟩
  · exact (avoids_iff found).mpr ⟨rfl, fun child member => (literal member).avoids⟩

-----------------------------------------------------------------------------------------
-- Nodes for clauses
-----------------------------------------------------------------------------------------

theorem Realizes.isFalse (realizes : c.Realizes (.constant false) id) : c.isFalse id = true := by
  obtain ⟨other, found, reorders⟩ := realizes
  cases reorders
  exact isFalse_iff.mpr found

/-- A node has the models of clauses and, if there are any, all of some variables. -/
structure Represents (c : Circuit) (clauses : Clauses) (vars : SortedSet Var) (id : NodeId) : Prop
    extends c.Explicit id where
  satisfies : ∀ σ, c.Satisfies σ id ↔ Clauses.TrueIn σ clauses
  mem_varsOf : ∀ v, v ∈ c.varsOf id ↔ v ∈ vars ∧ clauses.Satisfiable
  falsum : ¬ clauses.Satisfiable → c.isFalse id = true

namespace Represents

theorem grow (represents : c.Represents clauses vars id) (grown : c.Extends d) (closed : c.Closed)
    : d.Represents clauses vars id where
  toExplicit := represents.toExplicit.grow grown closed
  satisfies σ := (grown.satisfies_iff closed represents.present).trans (represents.satisfies σ)
  mem_varsOf := grown.varsOf represents.present ▸ represents.mem_varsOf
  falsum := grown.isFalse represents.present ▸ represents.falsum

theorem congr {other : Clauses} (represents : c.Represents clauses vars id)
    (same : ∀ σ, Clauses.TrueIn σ clauses ↔ Clauses.TrueIn σ other)
    : c.Represents other vars id where
  toExplicit := represents.toExplicit
  satisfies σ := (represents.satisfies σ).trans (same σ)
  mem_varsOf v := (represents.mem_varsOf v).trans (and_congr_right fun _ => exists_congr same)
  falsum never := represents.falsum (mt (exists_congr same).mp never)

/-- Just the clauses without a model come to the constant false. -/
theorem alive_iff (represents : c.Represents clauses vars id) : c.isFalse id = false ↔ clauses.Satisfiable := by
  constructor
  · intro alive
    by_contra never
    exact absurd (represents.falsum never) (Bool.eq_false_iff.mp alive)
  · rintro ⟨σ, model⟩
    exact Bool.eq_false_iff.mpr fun falsum =>
      not_satisfies_of_isFalse falsum ((represents.satisfies σ).mpr model)

end Represents

theorem represents_of_isFalse (upToDate : c.UpToDate) (inRange : c.InRange) (falsum : c.isFalse id = true)
    (never : ¬ clauses.Satisfiable)
    : c.Represents clauses vars id := by
  have found := isFalse_iff.mp falsum
  refine ⟨Realizes.explicit ⟨_, found, .same _⟩ upToDate inRange rfl rfl, fun σ => ?_, fun v => ?_, fun _ => falsum⟩
  · exact iff_of_false (not_satisfies_of_isFalse falsum) fun model => never ⟨σ, model⟩
  · exact iff_of_false ((upToDate.mem_varsOf found).mp ·) fun inside => never inside.2

/-- Clauses with a model fall into parts: nodes without a common variable whose conjunction has the models of the
clauses.
-/
structure Splits (c : Circuit) (clauses : Clauses) (parts : List NodeId) : Prop where
  explicit : ∀ part ∈ parts, c.Explicit part
  satisfies : ∀ σ, (∀ part ∈ parts, c.Satisfies σ part) ↔ Clauses.TrueIn σ clauses
  vars : ∀ v, (∃ part ∈ parts, v ∈ c.varsOf part) ↔ v ∈ clauses.vars
  apart : ∀ a ∈ parts, ∀ b ∈ parts, a ≠ b → c.Apart a b
  satisfiable : clauses.Satisfiable

theorem Splits.grow (splits : c.Splits clauses parts) (grown : c.Extends d) (closed : c.Closed)
    : d.Splits clauses parts where
  explicit part member := (splits.explicit part member).grow grown closed
  satisfies σ := by
    rw [← splits.satisfies σ]
    exact forall₂_congr fun part member => grown.satisfies_iff closed (splits.explicit part member).present
  vars v := by
    rw [← splits.vars v]
    exact exists_congr fun part => and_congr_right fun member => by
      rw [grown.varsOf (splits.explicit part member).present]
  apart a left b right differ := by
    unfold Apart
    rw [grown.varsOf (splits.explicit a left).present, grown.varsOf (splits.explicit b right).present]
    exact splits.apart a left b right differ
  satisfiable := splits.satisfiable

section Joined

variable (splits : c.Splits clauses parts) (upToDate : c.UpToDate)
variable (frees : ∀ v ∈ vars.diff clauses.vars, c.Frees v (free v))
variable (members : ∀ id, id ∈ ids ↔ ∃ v ∈ vars.diff clauses.vars, free v = id)

include splits upToDate frees members

/-- A variable that is left free has no occurrence, so neither the parts nor the other nodes have it. -/
theorem Splits.apart_joined : ∀ a ∈ ids ++ parts, ∀ b ∈ ids ++ parts, a ≠ b → c.Apart a b := by
  have scope {v w : Var} (outside : v ∈ vars.diff clauses.vars) : w ∈ c.varsOf (free v) ↔ w = v :=
    (frees v outside).mem_varsOf upToDate.rightVars
  have separate {v : Var} (outside : v ∈ vars.diff clauses.vars) {part : NodeId} (member : part ∈ parts)
      : c.Apart (free v) part := by
    intro w left right
    obtain rfl := (scope outside).mp left
    exact (SortedSet.mem_diff.mp outside).2 ((splits.vars w).mp ⟨part, member, right⟩)
  intro a left b right differ
  rcases List.mem_append.mp left with left | left <;> rcases List.mem_append.mp right with right | right
  · obtain ⟨v, outside, rfl⟩ := (members a).mp left
    obtain ⟨w, outside', rfl⟩ := (members b).mp right
    intro u first second
    obtain rfl := (scope outside).mp first
    obtain rfl := (scope outside').mp second
    exact differ rfl
  · obtain ⟨v, outside, rfl⟩ := (members a).mp left
    exact separate outside right
  · obtain ⟨v, outside, rfl⟩ := (members b).mp right
    exact fun u first second => separate outside left u second first
  · exact splits.apart a left b right differ

/-- The parts have the variables with an occurrence, and the other nodes have the rest. -/
theorem Splits.mem_varsOf_joined (covered : ∀ v, v ∈ clauses.vars → v ∈ vars)
    : (∃ part ∈ ids ++ parts, v ∈ c.varsOf part) ↔ v ∈ vars := by
  have scope {v w : Var} (outside : v ∈ vars.diff clauses.vars) : w ∈ c.varsOf (free v) ↔ w = v :=
    (frees v outside).mem_varsOf upToDate.rightVars
  constructor
  · rintro ⟨part, member, inside⟩
    rcases List.mem_append.mp member with member | member
    · obtain ⟨w, outside, rfl⟩ := (members part).mp member
      exact (scope outside).mp inside ▸ (SortedSet.mem_diff.mp outside).1
    · exact covered v ((splits.vars v).mp ⟨part, member, inside⟩)
  · intro inside
    by_cases occurs : v ∈ clauses.vars
    · obtain ⟨part, member, there⟩ := (splits.vars v).mpr occurs
      exact ⟨part, List.mem_append_right ids member, there⟩
    · have outside := SortedSet.mem_diff.mpr ⟨inside, occurs⟩
      exact ⟨free v, List.mem_append_left parts ((members _).mpr ⟨v, outside, rfl⟩), (scope outside).mpr rfl⟩

/-- The conjunction of the parts of clauses, together with nodes that leave the other variables free, represents the
clauses.
-/
theorem Splits.represents (inRange : c.InRange) (conjoins : c.Conjoins (ids ++ parts) id)
    (covered : ∀ v, v ∈ clauses.vars → v ∈ vars)
    : c.Represents clauses vars id := by
  have positive {v : Var} (outside : v ∈ vars.diff clauses.vars) : 0 < v :=
    (upToDate.vars_bound inRange (((frees v outside).mem_varsOf upToDate.rightVars).mpr rfl)).1
  have explicit : ∀ part ∈ ids ++ parts, c.Explicit part := by
    intro part member
    rcases List.mem_append.mp member with member | member
    · obtain ⟨v, outside, rfl⟩ := (members part).mp member
      exact (frees v outside).explicit upToDate inRange
    · exact splits.explicit part member
  refine ⟨conjoins.explicit (splits.apart_joined upToDate frees members) explicit, fun σ => ?_, fun v => ?_,
    fun never => absurd splits.satisfiable never⟩
  · rw [conjoins.satisfies, List.forall_mem_append, splits.satisfies]
    refine and_iff_right fun part member => ?_
    obtain ⟨v, outside, rfl⟩ := (members part).mp member
    exact (frees v outside).satisfies (positive outside) σ
  · rw [conjoins.vars, and_iff_left splits.satisfiable]
    exact splits.mem_varsOf_joined upToDate frees members covered

end Joined

-----------------------------------------------------------------------------------------
-- Clauses under a literal
-----------------------------------------------------------------------------------------

/-- A node has the models of clauses among the assignments that satisfy a literal. Unless it is the constant false, its
variables are the other ones.
-/
structure Branches (c : Circuit) (clauses : Clauses) (l : Lit) (id : NodeId) : Prop extends c.Explicit id where
  satisfies : ∀ σ, l.TrueIn σ → (c.Satisfies σ id ↔ Clauses.TrueIn σ clauses)
  mem_varsOf : c.isFalse id = false → ∀ v, v ∈ c.varsOf id ↔ v ∈ clauses.vars.erase l.var
  satisfiable : c.isFalse id = false → ∃ σ, l.TrueIn σ ∧ Clauses.TrueIn σ clauses

namespace Branches

theorem grow (branches : c.Branches clauses l id) (grown : c.Extends d) (closed : c.Closed)
    : d.Branches clauses l id where
  toExplicit := branches.toExplicit.grow grown closed
  satisfies σ holds := (grown.satisfies_iff closed branches.present).trans (branches.satisfies σ holds)
  mem_varsOf := by
    rw [grown.isFalse branches.present, grown.varsOf branches.present]
    exact branches.mem_varsOf
  satisfiable := grown.isFalse branches.present ▸ branches.satisfiable

/-- The clauses that are left under the literal are about the other variables. -/
theorem of_represents {rest : Clauses} (represents : c.Represents rest (clauses.vars.erase l.var) id)
    (meaning : ∀ σ, l.TrueIn σ → (Clauses.TrueIn σ rest ↔ Clauses.TrueIn σ clauses))
    (absent : ¬ l.var ∈ rest.vars)
    : c.Branches clauses l id where
  toExplicit := represents.toExplicit
  satisfies σ holds := (represents.satisfies σ).trans (meaning σ holds)
  mem_varsOf alive v := (represents.mem_varsOf v).trans (and_iff_left (represents.alive_iff.mp alive))
  satisfiable alive := by
    obtain ⟨σ, model⟩ := represents.alive_iff.mp alive
    have holds : l.TrueIn (Function.update σ l.var l.isPositive) := Function.update_self ..
    refine ⟨_, holds, (meaning _ holds).mp ((Clauses.trueIn_congr fun v inside => ?_).mp model)⟩
    exact (Function.update_of_ne (fun same : v = l.var => absent (same ▸ inside)) ..).symm

/-- A branch that is the constant false has no model. -/
theorem not_trueIn (branches : c.Branches clauses l id) (falsum : c.isFalse id = true) {σ : Assignment}
    (model : Clauses.TrueIn σ clauses)
    : ¬ l.TrueIn σ := fun holds =>
  not_satisfies_of_isFalse falsum ((branches.satisfies σ holds).mpr model)

end Branches

/-- A node has the models of clauses that satisfy a literal, and the literal is a conjunct of it. -/
structure Chooses (c : Circuit) (clauses : Clauses) (l : Lit) (id : NodeId) : Prop extends c.Explicit id where
  satisfies : ∀ σ, c.Satisfies σ id ↔ l.TrueIn σ ∧ Clauses.TrueIn σ clauses
  mem_varsOf : ∀ v, v ∈ c.varsOf id ↔ v ∈ clauses.vars
  forced : l ∈ c.conjunctsOf id
  satisfiable : clauses.Satisfiable

theorem Chooses.grow (chooses : c.Chooses clauses l id) (grown : c.Extends d) (closed : c.Closed)
    : d.Chooses clauses l id where
  toExplicit := chooses.toExplicit.grow grown closed
  satisfies σ := (grown.satisfies_iff closed chooses.present).trans (chooses.satisfies σ)
  mem_varsOf := grown.varsOf chooses.present ▸ chooses.mem_varsOf
  forced := grown.conjunctsOf chooses.present ▸ chooses.forced
  satisfiable := chooses.satisfiable

/-- The conjunction of the literal and of the node for the clauses under it. -/
theorem Branches.chooses {branch : NodeId} (branches : c.Branches clauses l branch) (alive : c.isFalse branch = false)
    (literal : c.Realizes (.literal l) p) (upToDate : c.UpToDate) (inRange : c.InRange)
    (occurs : l.var ∈ clauses.vars) (conjoins : c.Conjoins parts id)
    (members : ∀ part, part ∈ parts ↔ part = p ∨ part = branch)
    : c.Chooses clauses l id := by
  have single {w : Var} : w ∈ c.varsOf p ↔ w = l.var := literal.mem_varsOf upToDate
  have apart : c.Apart p branch := by
    intro w left right
    obtain rfl := single.mp left
    exact (SortedSet.mem_erase.mp ((branches.mem_varsOf alive _).mp right)).2 rfl
  have separate := forall_pair apart fun part => (members part).mp
  refine ⟨conjoins.explicit separate fun part member => ?_, fun σ => ?_, fun v => ?_, ?_, ?_⟩
  · rcases (members part).mp member with rfl | rfl
    · exact literal.explicit upToDate inRange rfl rfl
    · exact branches.toExplicit
  · simp only [conjoins.satisfies, members, forall_eq_or_imp, forall_eq, literal.satisfies_iff, Holds]
    exact and_congr_right (branches.satisfies σ)
  · simp only [conjoins.vars, members, exists_eq_or_imp, exists_eq_left, single, branches.mem_varsOf alive,
      SortedSet.mem_erase]
    by_cases same : v = l.var
    · simp [same, occurs]
    · simp [same]
  · exact (conjoins.conjuncts l).mpr
      ⟨p, (members p).mpr (.inl rfl), (literal.mem_conjunctsOf upToDate inRange).mpr rfl⟩
  · obtain ⟨σ, -, model⟩ := branches.satisfiable alive
    exact ⟨σ, model⟩

/-- A node that chooses a literal stands for clauses all of whose models satisfy the literal. -/
theorem Chooses.splits (chooses : c.Chooses clauses l id) (always : ∀ σ, Clauses.TrueIn σ clauses → l.TrueIn σ)
    : c.Splits clauses [id] where
  explicit := by simpa using chooses.toExplicit
  satisfies σ := by
    simp only [List.mem_singleton, forall_eq, chooses.satisfies]
    exact and_iff_right_of_imp (always σ)
  vars v := by simp [chooses.mem_varsOf]
  apart := by simp
  satisfiable := chooses.satisfiable

/-- The disjunction of the choices of a literal and of its complement stands for the clauses. -/
theorem Disjoins.splits {a b : NodeId} (nonzero : l ≠ 0) (high : c.Chooses clauses l a)
    (low : c.Chooses clauses (-l) b) (disjoins : c.Disjoins [a, b] id)
    : c.Splits clauses [id] := by
  have even {x y : NodeId} (left : x ∈ [a, b]) (right : y ∈ [a, b]) : c.varsOf x = c.varsOf y := by
    have vars {x : NodeId} (member : x ∈ [a, b]) (v : Var) : v ∈ c.varsOf x ↔ v ∈ clauses.vars := by
      rcases List.mem_pair.mp member with rfl | rfl
      · exact high.mem_varsOf v
      · exact low.mem_varsOf v
    exact SortedSet.ext_mem fun v => (vars left v).trans (vars right v).symm
  have opposite : c.Contradict a b := ⟨l, high.forced, low.forced⟩
  have explicit : c.Explicit id := by
    refine disjoins.explicit (forall_pair opposite fun _ => List.mem_pair.mp)
      (fun x left y right => even left right) ?_
    simpa using ⟨high.toExplicit, low.toExplicit⟩
  refine ⟨by simpa using explicit, fun σ => ?_, fun v => ?_, by simp, high.satisfiable⟩
  · simp only [List.mem_singleton, forall_eq, disjoins.satisfies, List.mem_pair, exists_eq_or_imp, exists_eq_left,
      high.satisfies, low.satisfies, ← or_and_right]
    exact and_iff_right (by rw [Lit.trueIn_neg nonzero]; exact Classical.em _)
  · simp [disjoins.vars, high.mem_varsOf, low.mem_varsOf]

end Circuit

namespace Build

open Circuit

variable {c d : Circuit} {clauses : Clauses} {vars : SortedSet Var} {known : Expansions} {v : Var}
variable {expand : ExpandCall} {bound : Nat}

-----------------------------------------------------------------------------------------
-- Expansions
-----------------------------------------------------------------------------------------

/-- The decision circuits made so far represent their clauses. -/
def Knows (c : Circuit) (known : Expansions) : Prop :=
  ∀ key id, known.lookup key = some id → c.Represents key.1 key.2 id

theorem Knows.grow (knows : Knows c known) (grown : c.Extends d) (closed : c.Closed) : Knows d known :=
  fun key id found => (knows key id found).grow grown closed

theorem Knows.cons {id : NodeId} (knows : Knows c known) (represents : c.Represents clauses vars id)
    : Knows c (((clauses, vars), id) :: known) := by
  intro key other found
  by_cases same : key = (clauses, vars)
  · subst same
    obtain rfl : id = other := by simpa using found
    exact represents
  · rw [List.lookup_cons, beq_false_of_ne same] at found
    exact knows key other found

/-- A way to expand clauses that is right for fewer variables than a bound. -/
def ExpandsBelow (expand : ExpandCall) (bound : Nat) : Prop :=
  ∀ {c clauses vars known}, Circuit.UpToDate c → c.InRange → clauses.Proper → (∀ v, v ∈ clauses.vars → v ∈ vars)
    → (∀ v, v ∈ vars → 0 < v ∧ v < 2147483648) → clauses.vars.size < bound → Knows c known
    → Yields (expand clauses vars known) c fun result d =>
        c.Advances d ∧ d.Represents clauses vars result.1 ∧ Knows d result.2

theorem isFalse_spec (id : NodeId) : Yields (isFalse id) c fun value d => c = d ∧ value = c.isFalse id :=
  Yields.current (Yields.pure ⟨rfl, rfl⟩)

/-- What comes of parts of clauses: nodes for the parts, or a part that is the constant false. -/
def Settles (c : Circuit) (clauses : Clauses) : Except NodeId (List NodeId) → Prop
  | .ok parts => c.Splits clauses parts
  | .error falsum => c.isFalse falsum = true ∧ ¬ clauses.Satisfiable

/-- The components in turn; induction on them. -/
theorem expandComponents_spec (expands : ExpandsBelow expand bound) {components : List (Clauses × SortedSet Var)}
    (upToDate : c.UpToDate) (inRange : c.InRange) (proper : ∀ part ∈ components, part.1.Proper)
    (scopes : ∀ part ∈ components, part.2 = part.1.vars) (fewer : ∀ part ∈ components, part.1.vars.size < bound)
    (apart : components.Pairwise fun a b => ∀ v, v ∈ a.1.vars → ¬ v ∈ b.1.vars) (knows : Knows c known)
    : Yields (expandComponents expand components known) c fun result d =>
        c.Advances d ∧ Knows d result.2
        ∧ match result.1 with
          | .error falsum => d.isFalse falsum = true ∧ ∃ part ∈ components, ¬ part.1.Satisfiable
          | .ok ids =>
              ids.Pairwise d.Apart
              ∧ (∀ part ∈ components, part.1.Satisfiable ∧ ∃ id ∈ ids, d.Represents part.1 part.2 id)
              ∧ ∀ id ∈ ids, ∃ part ∈ components, d.Represents part.1 part.2 id := by
  induction components generalizing c known with
  | nil => exact Yields.pure ⟨upToDate.advances inRange, knows, by simp⟩
  | cons part rest ih =>
      obtain ⟨properHere, properRest⟩ := List.forall_mem_cons.mp proper
      obtain ⟨scopeHere, scopesRest⟩ := List.forall_mem_cons.mp scopes
      obtain ⟨fewerHere, fewerRest⟩ := List.forall_mem_cons.mp fewer
      obtain ⟨apartHere, apartRest⟩ := List.pairwise_cons.mp apart
      have first := expands upToDate inRange properHere (fun v inside => scopeHere ▸ inside)
        (fun v inside => properHere.vars_bound (scopeHere ▸ inside)) fewerHere knows
      refine first.bind ?_
      rintro ⟨id, known⟩ d ⟨advances, represents, knows⟩
      refine (isFalse_spec id).bind ?_
      rintro falsum _ ⟨rfl, rfl⟩
      split
      · rename_i falsum
        refine Yields.pure ⟨advances, knows, falsum, part, List.mem_cons_self, fun satisfiable => ?_⟩
        exact absurd falsum (Bool.eq_false_iff.mp (represents.alive_iff.mpr satisfiable))
      · rename_i alive
        have satisfiable := represents.alive_iff.mp (Bool.eq_false_iff.mpr alive)
        refine (ih advances.upToDate advances.inRange properRest scopesRest fewerRest apartRest knows).bind ?_
        rintro ⟨others, known⟩ e ⟨later, knows, settled⟩
        refine Yields.pure ⟨advances.trans later, knows, ?_⟩
        cases others with
        | error falsum =>
            obtain ⟨falsum, part, member, never⟩ := settled
            exact ⟨falsum, part, List.mem_cons_of_mem _ member, never⟩
        | ok ids =>
            obtain ⟨apart, every, each⟩ := settled
            have here := represents.grow later.extends_ advances.upToDate.closed
            refine ⟨List.pairwise_cons.mpr ⟨fun other member v left right => ?_, apart⟩, ?_, ?_⟩
            · obtain ⟨part', member', represents'⟩ := each other member
              have inside := ((here.mem_varsOf v).mp left).1
              have inside' := ((represents'.mem_varsOf v).mp right).1
              rw [scopeHere] at inside
              rw [scopesRest part' member'] at inside'
              exact apartHere part' member' v inside inside'
            · refine List.forall_mem_cons.mpr ⟨⟨satisfiable, id, List.mem_cons_self, here⟩, fun part' member => ?_⟩
              obtain ⟨satisfiable, other, listed, represents'⟩ := every part' member
              exact ⟨satisfiable, other, List.mem_cons_of_mem id listed, represents'⟩
            · refine List.forall_mem_cons.mpr ⟨⟨part, List.mem_cons_self, here⟩, fun other member => ?_⟩
              obtain ⟨part', member', represents'⟩ := each other member
              exact ⟨part', List.mem_cons_of_mem part member', represents'⟩

/-- Components with models have a model together, as they have no common variable. -/
theorem satisfiable_of_components (each : ∀ part ∈ clauses.components, part.1.Satisfiable) : clauses.Satisfiable := by
  obtain ⟨-, -, apart⟩ := clauses.components_spec
  choose! model holds using each
  have disjoint : clauses.components.Pairwise fun a b => Disjoint a.1.vars.toFinset b.1.vars.toFinset :=
    apart.imp fun separate => Finset.disjoint_left.mpr fun v left right =>
      separate v (SortedSet.mem_toFinset.mp left) (SortedSet.mem_toFinset.mp right)
  obtain ⟨σ, parts⟩ := exists_merged disjoint model
  refine ⟨σ, Clauses.trueIn_components.mpr fun part member => ?_⟩
  refine (Clauses.trueIn_congr fun v inside => ?_).mpr (holds part member)
  exact parts part member v (SortedSet.mem_toFinset.mpr inside)

/-- The nodes of the components stand for the clauses. -/
theorem components_settle (expands : ExpandsBelow expand bound) (upToDate : c.UpToDate) (inRange : c.InRange)
    (proper : clauses.Proper) (fewer : ∀ part ∈ clauses.components, part.1.vars.size < bound) (knows : Knows c known)
    : Yields (expandComponents expand clauses.components known) c fun result d =>
        c.Advances d ∧ Knows d result.2 ∧ Settles d clauses result.1 := by
  obtain ⟨members, each, apart⟩ := clauses.components_spec
  have properParts : ∀ part ∈ clauses.components, part.1.Proper := fun part member clause listed =>
    proper clause ((members clause).mpr ⟨part, member, listed⟩)
  refine (expandComponents_spec expands upToDate inRange properParts (fun part member => (each part member).2) fewer
    apart knows).mono ?_
  rintro ⟨parts, known⟩ d ⟨advances, knows, settled⟩
  refine ⟨advances, knows, ?_⟩
  cases parts with
  | error falsum =>
      obtain ⟨falsum, part, member, never⟩ := settled
      exact ⟨falsum, fun ⟨σ, model⟩ => never ⟨σ, Clauses.trueIn_components.mp model part member⟩⟩
  | ok ids =>
      obtain ⟨separate, every, only⟩ := settled
      refine ⟨fun id listed => ?_, fun σ => ?_, fun v => ?_, fun a left b right => separate.forall left right, ?_⟩
      · obtain ⟨part, member, represents⟩ := only id listed
        exact represents.toExplicit
      · rw [Clauses.trueIn_components]
        constructor
        · intro holds part member
          obtain ⟨-, id, listed, represents⟩ := every part member
          exact (represents.satisfies σ).mp (holds id listed)
        · intro model id listed
          obtain ⟨part, member, represents⟩ := only id listed
          exact (represents.satisfies σ).mpr (model part member)
      · rw [← Clauses.exists_component_iff]
        constructor
        · rintro ⟨id, listed, inside⟩
          obtain ⟨part, member, represents⟩ := only id listed
          exact ⟨part, member, (each part member).2 ▸ ((represents.mem_varsOf v).mp inside).1⟩
        · rintro ⟨part, member, inside⟩
          obtain ⟨satisfiable, id, listed, represents⟩ := every part member
          exact ⟨id, listed, (represents.mem_varsOf v).mpr ⟨(each part member).2 ▸ inside, satisfiable⟩⟩
      · exact satisfiable_of_components fun part member => (every part member).1

/-- The clauses under a literal of one of their variables. -/
theorem expandUnder_spec (expands : ExpandsBelow expand bound) (upToDate : c.UpToDate) (inRange : c.InRange)
    (proper : clauses.Proper) (occurs : v ∈ clauses.vars) (enough : clauses.vars.size ≤ bound) (knows : Knows c known)
    (polarity : Bool)
    : Yields (expandUnder expand clauses (clauses.vars.erase v) v polarity known) c fun result d =>
        c.Advances d ∧ Knows d result.2 ∧ d.Branches clauses (Lit.signed v polarity) result.1 := by
  obtain ⟨positive, small⟩ := proper.vars_bound occurs
  have only {σ : Assignment} {l : Lit} (holds : l.TrueIn σ) : ∀ k ∈ [l], k.TrueIn σ := by simpa using holds
  have var : (Lit.signed v polarity).var = v := Lit.var_signed v polarity
  refine Yields.checked (Lit.ofVar_eq small polarity) ?_
  rcases Clauses.condition_spec [Lit.signed v polarity] proper with ⟨fails, never⟩ | ⟨rest, done, conditioned⟩
  · -- The literal contradicts the clauses: the constant false represents the empty clause.
    refine Yields.checked fails ((constant_advances upToDate inRange false).bind ?_)
    rintro id d ⟨advances, realizes⟩
    refine Yields.pure ⟨advances, knows.grow advances.extends_ upToDate.closed, ?_⟩
    have contradiction : ∀ σ, ¬ Clauses.TrueIn σ [[]] :=
      fun σ model => by simpa [Clause.TrueIn] using model [] (by simp)
    have nothing : d.Represents [[]] (clauses.vars.erase (Lit.signed v polarity).var) id := by
      refine represents_of_isFalse advances.upToDate advances.inRange realizes.isFalse ?_
      rintro ⟨σ, model⟩
      exact contradiction σ model
    refine Branches.of_represents nothing (fun σ holds => ?_) (by simp [Clauses.mem_vars])
    exact iff_of_false (contradiction σ) (never σ (only holds))
  · have absent : ¬ v ∈ rest.vars := var ▸ conditioned.absent _ List.mem_cons_self
    have within : ∀ w, w ∈ rest.vars → w ∈ clauses.vars.erase v := fun w inside =>
      SortedSet.mem_erase.mpr ⟨conditioned.mem_vars inside, fun same => absent (same ▸ inside)⟩
    have fewer : rest.vars.size < bound :=
      Nat.lt_of_lt_of_le (SortedSet.size_lt (fun w inside => conditioned.mem_vars inside) occurs absent) enough
    refine Yields.checked done ((expands upToDate inRange (conditioned.proper proper) within
      (fun w inside => proper.vars_bound (SortedSet.mem_erase.mp inside).1) fewer knows).mono ?_)
    rintro ⟨id, known⟩ d ⟨advances, represents, knows⟩
    refine ⟨advances, knows, Branches.of_represents (var.symm ▸ represents) (fun σ holds => ?_) (var.symm ▸ absent)⟩
    exact conditioned.meaning (only holds)

/-- The decision on a variable, if neither branch is the constant false. -/
theorem decision_advances {high low : NodeId} (upToDate : c.UpToDate) (inRange : c.InRange) (positive : 0 < v)
    (small : v < 2147483648) (occurs : v ∈ clauses.vars) (above : c.Branches clauses (v : Int) high)
    (below : c.Branches clauses (-(v : Int)) low) (alive : c.isFalse high = false) (alive' : c.isFalse low = false)
    : Yields (decision v high low) c fun id d => c.Advances d ∧ d.Splits clauses [id] := by
  have proper : Lit.Proper (v : Int) := Lit.proper_signed positive small true
  have negated : Lit.negate (Lit.word v) = .ok (-(v : Int)) := by
    rw [Lit.word_eq_self small]
    exact proper.negate
  unfold decision
  rw [Lit.word_eq_self small] at negated ⊢
  refine (literal_advances upToDate inRange proper).bind ?_
  rintro p c₁ ⟨step₁, literal⟩
  refine Yields.checked negated ((literal_advances step₁.upToDate step₁.inRange proper.neg).bind ?_)
  rintro n c₂ ⟨step₂, literal'⟩
  -- Both branches are conjoined with their literals.
  have above₂ := above.grow (step₁.trans step₂).extends_ upToDate.closed
  have presentHigh : ∀ part ∈ [high, p], part < c₂.nodes.size := by
    simpa using ⟨above₂.present, (literal.grow step₂.extends_).lt⟩
  refine (conjunction_advances step₂.upToDate step₂.inRange presentHigh).bind ?_
  rintro a c₃ ⟨step₃, conjoins⟩
  have closed₂ : c₂.Closed := step₂.upToDate.closed
  have chooses : c₃.Chooses clauses (v : Int) a := by
    refine (above₂.grow step₃.extends_ closed₂).chooses ?_ (literal.grow (step₂.trans step₃).extends_) step₃.upToDate
      step₃.inRange occurs conjoins fun part => ?_
    · rw [(step₁.trans (step₂.trans step₃)).extends_.isFalse above.present, alive]
    · simp [or_comm]
  have below₃ := below.grow (step₁.trans (step₂.trans step₃)).extends_ upToDate.closed
  have presentLow : ∀ part ∈ [low, n], part < c₃.nodes.size := by
    simpa using ⟨below₃.present, (literal'.grow step₃.extends_).lt⟩
  refine (conjunction_advances step₃.upToDate step₃.inRange presentLow).bind ?_
  rintro b c₄ ⟨step₄, conjoins'⟩
  have closed₃ : c₃.Closed := step₃.upToDate.closed
  have chooses' : c₄.Chooses clauses (-(v : Int)) b := by
    refine (below₃.grow step₄.extends_ closed₃).chooses ?_ (literal'.grow (step₃.trans step₄).extends_) step₄.upToDate
      step₄.inRange (Lit.var_neg v ▸ occurs) conjoins' fun part => ?_
    · rw [(step₁.trans (step₂.trans (step₃.trans step₄))).extends_.isFalse below.present, alive']
    · simp [or_comm]
  have first := chooses.grow step₄.extends_ closed₃
  have present : ∀ part ∈ [a, b], part < c₄.nodes.size := by simpa using ⟨first.present, chooses'.present⟩
  have decided : ∀ w, some v = some w → ∃ part ∈ [a, b], w ∈ c₄.varsOf part := by
    rintro _ ⟨⟩
    exact ⟨a, List.mem_cons_self, (first.mem_varsOf v).mpr occurs⟩
  refine ((disjunction_hinges step₄.upToDate step₄.inRange present (by simp)).yields decided).mono ?_
  rintro id d ⟨step₅, disjoins⟩
  refine ⟨step₁.trans (step₂.trans (step₃.trans (step₄.trans step₅))), ?_⟩
  have closed₄ : c₄.Closed := step₄.upToDate.closed
  exact disjoins.splits proper.1 (first.grow step₅.extends_ closed₄) (chooses'.grow step₅.extends_ closed₄)

/-- A branch that is left alone is conjoined with its literal. -/
theorem only_branch_settles {l : Lit} {branch : NodeId} (upToDate : c.UpToDate) (inRange : c.InRange)
    (proper : l.Proper) (occurs : l.var ∈ clauses.vars) (branches : c.Branches clauses l branch)
    (alive : c.isFalse branch = false) (always : ∀ σ, Clauses.TrueIn σ clauses → l.TrueIn σ) (knows : Knows c known)
    : Yields
        (do
          let p ← literal l
          return (.ok (← conjunction [p, branch]), known) : Build (Except NodeId NodeId × Expansions))
        c fun result d => c.Advances d ∧ Knows d result.2 ∧ Settles d clauses (result.1.map ([·])) := by
  refine (literal_advances upToDate inRange proper).bind ?_
  rintro p c₁ ⟨step₁, literal⟩
  have branches₁ := branches.grow step₁.extends_ upToDate.closed
  have present : ∀ part ∈ [p, branch], part < c₁.nodes.size := by simpa using ⟨literal.lt, branches₁.present⟩
  refine (conjunction_advances step₁.upToDate step₁.inRange present).bind ?_
  rintro id d ⟨step₂, conjoins⟩
  have advances := step₁.trans step₂
  refine Yields.pure ⟨advances, knows.grow advances.extends_ upToDate.closed, Chooses.splits ?_ always⟩
  refine (branches.grow advances.extends_ upToDate.closed).chooses ?_ (literal.grow step₂.extends_) step₂.upToDate
    step₂.inRange occurs conjoins fun part => ?_
  · rw [advances.extends_.isFalse branches.present, alive]
  · simp

/-- Both values of a variable. -/
theorem expandDecision_spec (expands : ExpandsBelow expand bound) (upToDate : c.UpToDate) (inRange : c.InRange)
    (proper : clauses.Proper) (occurs : v ∈ clauses.vars) (enough : clauses.vars.size ≤ bound) (knows : Knows c known)
    : Yields (expandDecision expand clauses (clauses.vars.erase v) v known) c fun result d =>
        c.Advances d ∧ Knows d result.2 ∧ Settles d clauses (result.1.map ([·])) := by
  obtain ⟨positive, small⟩ := proper.vars_bound occurs
  have literal : Lit.Proper (v : Int) := Lit.proper_signed positive small true
  refine (expandUnder_spec expands upToDate inRange proper occurs enough knows true).bind ?_
  rintro ⟨high, known⟩ c₁ ⟨step₁, knows, above⟩
  refine (expandUnder_spec expands step₁.upToDate step₁.inRange proper occurs enough knows false).bind ?_
  rintro ⟨low, known⟩ c₂ ⟨step₂, knows, below⟩
  replace above : c₂.Branches clauses (v : Int) high := above.grow step₂.extends_ step₁.upToDate.closed
  replace below : c₂.Branches clauses (-(v : Int)) low := below
  refine (isFalse_spec high).bind ?_
  rintro noHigh _ ⟨rfl, rfl⟩
  refine (isFalse_spec low).bind ?_
  rintro noLow _ ⟨rfl, rfl⟩
  have advances := step₁.trans step₂
  have either (σ : Assignment) (positive : ¬ Lit.TrueIn σ (v : Int)) : Lit.TrueIn σ (-(v : Int)) :=
    (Lit.trueIn_neg literal.1).mpr positive
  cases high_ : c₂.isFalse high with
  | true =>
      cases low_ : c₂.isFalse low with
      | true =>
          refine Yields.pure ⟨advances, knows, high_, fun ⟨σ, model⟩ => ?_⟩
          exact below.not_trueIn low_ model (either σ (above.not_trueIn high_ model))
      | false =>
          have always : ∀ σ, Clauses.TrueIn σ clauses → Lit.TrueIn σ (-(v : Int)) := fun σ model =>
            either σ (above.not_trueIn high_ model)
          refine Yields.checked (Lit.ofVar_eq small false) ?_
          refine (only_branch_settles advances.upToDate advances.inRange literal.neg (Lit.var_neg v ▸ occurs) below low_
            always knows).mono fun result d settled => ⟨advances.trans settled.1, settled.2⟩
  | false =>
      cases low_ : c₂.isFalse low with
      | true =>
          have always : ∀ σ, Clauses.TrueIn σ clauses → Lit.TrueIn σ (v : Int) := fun σ model =>
            by_contra fun negative => below.not_trueIn low_ model (either σ negative)
          refine Yields.checked (Lit.ofVar_eq small true) ?_
          refine (only_branch_settles advances.upToDate advances.inRange literal occurs above high_ always knows).mono
            fun result d settled => ⟨advances.trans settled.1, settled.2⟩
      | false =>
          refine (decision_advances advances.upToDate advances.inRange positive small occurs above below high_
            low_).bind ?_
          rintro id d ⟨step₃, splits⟩
          exact Yields.pure ⟨advances.trans step₃, knows.grow step₃.extends_ advances.upToDate.closed, splits⟩

/-- The parts are joined with the nodes that leave the other variables free; a part that is false stands for all. -/
theorem joinParts_spec {ids : List NodeId} {free : Var → NodeId} {parts : Except NodeId (List NodeId)}
    (upToDate : c.UpToDate) (inRange : c.InRange) (settles : Settles c clauses parts) (knows : Knows c known)
    (frees : ∀ v ∈ vars.diff clauses.vars, c.Frees v (free v))
    (members : ∀ id, id ∈ ids ↔ ∃ v ∈ vars.diff clauses.vars, free v = id)
    (covered : ∀ v, v ∈ clauses.vars → v ∈ vars)
    : Yields
        (match parts.map (ids ++ ·) with
          | .error falsum => pure (falsum, known)
          | .ok parts => do
              let id ← match parts with
                | [part] => pure part
                | _ => conjunction parts
              return (id, ((clauses, vars), id) :: known))
        c fun result d => c.Advances d ∧ d.Represents clauses vars result.1 ∧ Knows d result.2 := by
  cases parts with
  | error falsum =>
      refine Yields.pure ⟨upToDate.advances inRange, ?_, knows⟩
      exact represents_of_isFalse upToDate inRange settles.1 settles.2
  | ok parts =>
      have splits : c.Splits clauses parts := settles
      have present : ∀ part ∈ ids ++ parts, part < c.nodes.size := by
        intro part member
        rcases List.mem_append.mp member with member | member
        · obtain ⟨v, outside, rfl⟩ := (members part).mp member
          exact (frees v outside).balanced.lt
        · exact (splits.explicit part member).present
      have finish (id : NodeId) (d : Circuit) (made : c.Advances d ∧ d.Conjoins (ids ++ parts) id)
          : Yields (pure (id, ((clauses, vars), id) :: known) : Build (NodeId × Expansions)) d
              fun result e => c.Advances e ∧ e.Represents clauses vars result.1 ∧ Knows e result.2 := by
        obtain ⟨advances, conjoins⟩ := made
        have represents : d.Represents clauses vars id :=
          (splits.grow advances.extends_ upToDate.closed).represents advances.upToDate
            (fun v outside => (frees v outside).grow advances.extends_) members advances.inRange conjoins covered
        exact Yields.pure ⟨advances, represents, (knows.grow advances.extends_ upToDate.closed).cons represents⟩
      dsimp only [Except.map]
      split
      · rename_i part single
        have only : c.Conjoins (ids ++ parts) part := single ▸ conjoins_singleton (present part (by simp [single]))
        exact Yields.bind (Yields.pure ⟨upToDate.advances inRange, only⟩) finish
      · exact Yields.bind (conjunction_advances upToDate inRange present) finish

/-- The decision circuit of clauses; induction on the fuel, of which there is more than there are variables with an
occurrence.
-/
theorem expandWithin_spec (fuel : Nat) : ExpandsBelow (expandWithin fuel) fuel := by
  induction fuel with
  | zero => exact fun _ _ _ _ _ none_ => absurd none_ (Nat.not_lt_zero _)
  | succ fuel ih =>
      intro c clauses vars known upToDate inRange proper covered bounded enough knows
      unfold expandWithin
      split
      · rename_i empty
        obtain ⟨clause, inside, none_⟩ := List.any_eq_true.mp empty
        refine (constant_advances upToDate inRange false).bind ?_
        rintro id d ⟨advances, realizes⟩
        refine Yields.pure ⟨advances, ?_, knows.grow advances.extends_ upToDate.closed⟩
        refine represents_of_isFalse advances.upToDate advances.inRange realizes.isFalse ?_
        rintro ⟨σ, model⟩
        exact Clauses.not_trueIn_of_nil (List.isEmpty_iff.mp none_ ▸ inside) model
      · rename_i full
        -- Sorting the clauses changes neither their models nor their variables.
        have listed {clause : Clause} : clause ∈ sortBy inOrder clauses ↔ clause ∈ clauses := mem_sortBy
        have same (σ : Assignment) : Clauses.TrueIn σ (sortBy inOrder clauses) ↔ Clauses.TrueIn σ clauses :=
          forall_congr' fun clause => imp_congr_left listed
        have sameVars : Clauses.vars (sortBy inOrder clauses) = clauses.vars :=
          SortedSet.ext_mem fun v => by simp only [Clauses.mem_vars, listed]
        have nonempty : ∀ clause ∈ sortBy inOrder clauses, clause ≠ [] := fun clause inside none_ =>
          full (List.any_eq_true.mpr ⟨clause, listed.mp inside, List.isEmpty_iff.mpr none_⟩)
        replace proper : Clauses.Proper (sortBy inOrder clauses) :=
          fun clause inside => proper clause (listed.mp inside)
        rw [← sameVars] at covered enough
        refine Yields.mono (?_ : Yields _ c fun result d =>
          c.Advances d ∧ d.Represents (sortBy inOrder clauses) vars result.1 ∧ Knows d result.2)
          fun result d done => ⟨done.1, done.2.1.congr same, done.2.2⟩
        generalize sortBy inOrder clauses = clauses at *
        dsimp only
        split
        · rename_i id found
          exact Yields.pure ⟨upToDate.advances inRange, knows _ id found, knows⟩
        · have free : ∀ v ∈ (vars.diff (Clauses.vars clauses)).toList, 0 < v ∧ v < 2147483648 := fun v outside =>
            bounded v (SortedSet.mem_diff.mp outside).1
          refine (gadgets_advance upToDate inRange free).bind ?_
          rintro ⟨ids, _⟩ c₁ ⟨step₁, free, frees, members⟩
          replace knows := knows.grow step₁.extends_ upToDate.closed
          -- What comes of the parts is joined with the nodes for the other variables.
          have join (parts : Except NodeId (List NodeId)) (known : Expansions) (d : Circuit)
              (made : c₁.Advances d ∧ Knows d known ∧ Settles d clauses parts) :=
            joinParts_spec made.1.upToDate made.1.inRange made.2.2 made.2.1
              (fun v outside => (frees v outside).grow made.1.extends_) members covered
          dsimp only
          split
          · rename_i several
            refine (components_settle ih step₁.upToDate step₁.inRange proper (fun part member => ?_) knows).bind ?_
            · have smaller := Clauses.size_component_lt nonempty several member
              omega
            · rintro ⟨parts, known⟩ d made
              exact (join parts known d made).mono fun result e done =>
                ⟨step₁.trans (made.1.trans done.1), done.2⟩
          · rcases Clauses.mostOccurring_spec clauses with ⟨missing, nowhere⟩ | ⟨v, occurs, found⟩
            · -- Without an occurrence there is no clause, and nothing but the free variables is left.
              obtain rfl : clauses = [] := List.eq_nil_iff_forall_not_mem.mpr fun clause inside => by
                obtain ⟨l, member⟩ := List.exists_mem_of_ne_nil clause (nonempty clause inside)
                exact nowhere l.var (Clauses.var_mem_vars inside member)
              have nothing : c₁.Splits [] [] := by
                refine ⟨by simp, by simp [Clauses.TrueIn], by simp [nowhere], by simp, fun _ => false, ?_⟩
                simp [Clauses.TrueIn]
              rw [missing]
              exact (join (.ok []) known c₁ ⟨step₁.refl, knows, nothing⟩).mono fun result e done =>
                ⟨step₁.trans done.1, done.2⟩
            · rw [found]
              refine (expandDecision_spec ih step₁.upToDate step₁.inRange proper occurs (Nat.le_of_lt_succ enough)
                knows).bind ?_
              rintro ⟨part, known⟩ d made
              exact (join (part.map ([·])) known d made).mono fun result e done =>
                ⟨step₁.trans (made.1.trans done.1), done.2⟩

/-- The decision circuit of the clauses of a formula leaf. -/
theorem expandClauses_spec (upToDate : c.UpToDate) (inRange : c.InRange) (proper : clauses.Proper)
    : Yields (expandClauses clauses) c fun id d => c.Advances d ∧ d.Represents clauses clauses.vars id := by
  have nothing : Knows c [] := fun key id none_ => by simp at none_
  refine (expandWithin_spec _ upToDate inRange proper (fun _ => id) (fun v => proper.vars_bound) (Nat.lt_succ_self _)
    nothing).bind ?_
  rintro ⟨id, known⟩ d ⟨advances, represents, -⟩
  exact Yields.pure ⟨advances, represents⟩

end Build

end KnowledgeCompiler
