import KnowledgeCompiler.Proofs.Circuit.RenamedCopies
import KnowledgeCompiler.Proofs.Nnf.Written

/-! Roots whose formula leaves are expanded.

Expanding the formula leaves keeps the meaning of the root and makes a circuit of the text format, together with
expanding what renames. A leaf without a model becomes the constant false. Its variables may get lost then, and with
them smoothness and counts, or a decision on such a variable is refused. Nothing is lost if all leaves have models.
-/

namespace KnowledgeCompiler

open Relation
open KnowledgeCompiler.Build
open KnowledgeCompiler.Action (Yields Hinges outcome after)

namespace Circuit

variable {c d : Circuit} {id new : NodeId} {literals : List Lit}

/-- What expanding the formula leaves below a node makes of the node. -/
structure Expands (c d : Circuit) (id new : NodeId) : Prop where
  present : new < d.nodes.size
  satisfies : ∀ σ, d.Satisfies σ new ↔ c.Satisfies σ id
  vars : ∀ v, v ∈ d.varsOf new ↔ c.Remains true v id
  decomposable : (c.throughoutOf id).decomposable = true → (d.throughoutOf new).decomposable = true
  deterministic : (c.throughoutOf id).deterministic = true → (d.throughoutOf new).deterministic = true
  smooth : (d.throughoutOf new).smooth = true ↔ c.Level true id
  formulaFree : d.Avoids NodeKind.isFormula new
  explicit : ¬ c.Avoids NodeKind.isFormula id ∨ c.Avoids (· == .mapping) id → d.Avoids (NodeKind.isRemoved true) new

/-- The copy under the same names. -/
theorem Mirrors.expands (mirrors : c.Mirrors d true (.identityOn (c.varsOf id)) id new) (upToDate : c.UpToDate)
    : c.Expands d id new where
  present := mirrors.present
  satisfies σ := (mirrors.satisfies σ).trans upToDate.satisfies_identity
  vars v := by
    simp only [mirrors.vars, Renaming.find?_identityOn]
    constructor
    · rintro ⟨_, remains, _, rfl⟩
      exact remains
    · exact fun remains => ⟨v, remains, remains.mem_varsOf upToDate, rfl⟩
  decomposable := mirrors.decomposable
  deterministic := mirrors.deterministic
  smooth := mirrors.smooth
  formulaFree := (avoids_removed_iff.mp (mirrors.avoids true fun _ => .inl rfl)).2
  explicit _ := mirrors.avoids true fun _ => .inl rfl

/-- Without formula leaves all variables remain. -/
theorem Avoids.intact {expanding : Bool} (free : c.Avoids NodeKind.isFormula id) : c.Intact expanding id := by
  intro other path gate v found _ _
  have plain := free other path gate found
  cases gate with
  | twoCnf formula | horn formula => cases plain
  | constant value | literal l | and children | or decision children | mapping names child => trivial

/-- Without formula leaves a node stays as it is. -/
theorem Avoids.expands (free : c.Avoids NodeKind.isFormula id) (upToDate : c.UpToDate) (inRange : c.InRange)
    (present : id < c.nodes.size)
    : c.Expands c id id where
  present := present
  satisfies _ := Iff.rfl
  vars _ := (free.intact.remains_iff upToDate).symm
  decomposable holds := holds
  deterministic holds := holds
  smooth := (free.intact.level_iff upToDate inRange present).symm
  formulaFree := free
  explicit := fun
    | .inl leaf => absurd free leaf
    | .inr plain => avoids_removed_iff.mpr ⟨plain, free⟩

/-- A smooth node has the same number of models afterwards: where variables get lost, it has none. -/
theorem Expands.modelNumber_eq (expands : c.Expands d id new) (upToDate : c.UpToDate)
    (smooth : (c.throughoutOf id).smooth = true)
    : d.modelNumber new literals = c.modelNumber id literals := by
  by_cases whole : ∀ v, v ∈ c.varsOf id → c.Remains true v id
  · have vars : d.varsOf new = c.varsOf id := SortedSet.ext_mem fun v =>
      (expands.vars v).trans ⟨fun remains => remains.mem_varsOf upToDate, whole v⟩
    unfold modelNumber Models
    rw [vars]
    exact countOver_congr fun σ => and_congr_left fun _ => expands.satisfies σ
  · obtain ⟨v, lost⟩ := not_forall.mp whole
    obtain ⟨inside, lost⟩ := Classical.not_imp.mp lost
    have never (σ : Assignment) : ¬ c.Satisfies σ id := upToDate.not_satisfies_of_lost smooth inside lost σ
    rw [modelNumber, modelNumber, countOver_false fun σ holds => never σ ((expands.satisfies σ).mp holds.1),
      countOver_false fun σ holds => never σ holds.1]

end Circuit

namespace Build

open Circuit

variable {c : Circuit} {root : NodeId}

/-- The formula leaves below the root can be expanded just if all decision variables remain. -/
theorem expandLeaves_hinges (copyable : c.Copyable) (chosen : c.root = some root) (present : root < c.nodes.size)
    : Hinges expandLeaves c (c.Grounded true root)
        (fun _ d => (c.Advances d ∧ c.Enlarges d) ∧ ∃ new, d.root = some new ∧ c.Expands d root new) LostVariable := by
  have kinds : (fun kind : NodeKind => kind == .twoCnf || kind == .horn) = NodeKind.isFormula := by
    funext kind
    cases kind <;> rfl
  have grounded : c.Avoids NodeKind.isFormula root ∨ c.Grounded true root ↔ c.Grounded true root :=
    or_iff_right_of_imp fun free => free.intact.grounded copyable.decided
  rw [expandLeaves, kinds]
  refine (replaceRoot_hinges copyable chosen present).mono grounded ?_
  rintro _ d ⟨grows, ⟨free, rfl⟩ | ⟨new, replaced, mirrors⟩⟩
  · exact ⟨grows, root, chosen, free.expands copyable.toUpToDate copyable.inRange present⟩
  · exact ⟨grows, new, replaced, mirrors.expands copyable.toUpToDate⟩

end Build

namespace Circuit

variable {s t u : Journaled Circuit} {root new : NodeId}

-----------------------------------------------------------------------------------------
-- Meaning and text
-----------------------------------------------------------------------------------------

/-- After both expansions, in either order, nothing below the root renames and nothing is a formula. -/
theorem Copyable.explicit_of_expansions (copyable : s.state.Copyable) (chosen : s.state.root = some root)
    (present : root < s.state.nodes.size)
    (ran : expandMappings s = .ok () t ∧ expandLeaves t = .ok () u
      ∨ expandLeaves s = .ok () t ∧ expandMappings t = .ok () u)
    : ∃ new, u.state.root = some new ∧ new < u.state.nodes.size ∧ u.state.UpToDate
      ∧ u.state.Avoids (NodeKind.isRemoved true) new := by
  rcases ran with ⟨first, second⟩ | ⟨first, second⟩
  · obtain ⟨⟨advances, enlarges⟩, middle, chosen', renames⟩ :=
      (expandMappings_yields copyable chosen present).succeeded first
    obtain ⟨-, ⟨later, -⟩, new, replaced, expands⟩ :=
      (expandLeaves_hinges (copyable.advance advances enlarges) chosen' renames.present).succeeded second
    exact ⟨new, replaced, expands.present, later.upToDate, expands.explicit (.inr renames.plain)⟩
  · obtain ⟨-, ⟨advances, enlarges⟩, middle, chosen', expands⟩ :=
      (expandLeaves_hinges copyable chosen present).succeeded first
    obtain ⟨⟨later, -⟩, new, replaced, renames⟩ :=
      (expandMappings_yields (copyable.advance advances enlarges) chosen' expands.present).succeeded second
    exact ⟨new, replaced, renames.present, later.upToDate,
      avoids_removed_iff.mpr ⟨renames.plain, renames.formulaFree expands.formulaFree⟩⟩

/-- Where the formula leaves below the root have been expanded, the new root has the models of the old one, and it is
decomposable and deterministic if the old one was. If there was a formula leaf, then nothing below the new root renames
and nothing is a formula; and after both expansions the root can be written in the text format.
-/
theorem Reachable.expandLeaves_correct (reachable : s.state.Reachable) (inRange : s.state.InRange)
    (covered : s.state.Covered) (flips : s.state.FlipsOwn) (chosen : s.state.root = some root)
    : (∀ {t},
        expandLeaves s = .ok () t
        → s.state.Undisturbed t.state
          ∧ ∃ new, t.state.root = some new
            ∧ (∀ σ, t.state.Satisfies σ new ↔ s.state.Satisfies σ root)
            ∧ (¬ s.state.Avoids NodeKind.isFormula root → t.state.Avoids (NodeKind.isRemoved true) new)
            ∧ ∀ flag ∈ [Properties.decomposable, Properties.deterministic],
                flag (s.state.throughoutOf root) = true → flag (t.state.throughoutOf new) = true)
      ∧ ∀ {t u},
          (expandMappings s = .ok () t ∧ expandLeaves t = .ok () u
            ∨ expandLeaves s = .ok () t ∧ expandMappings t = .ok () u)
          → ∃ new text, u.state.root = some new ∧ Nnf.write new u = .ok text u := by
  have consistent := reachable.consistent
  have copyable := consistent.copyable inRange covered flips
  have present := consistent.rooted.present chosen
  refine ⟨fun {t} ran => ?_, fun {t u} ran => ?_⟩
  · obtain ⟨-, ⟨-, enlarges⟩, new, replaced, expands⟩ := (expandLeaves_hinges copyable chosen present).succeeded ran
    refine ⟨enlarges.undisturbed, new, replaced, expands.satisfies, fun leaf => expands.explicit (.inl leaf), ?_⟩
    simp only [List.forall_mem_cons]
    exact ⟨expands.decomposable, expands.deterministic, List.forall_mem_nil _⟩
  · obtain ⟨new, replaced, there, upToDate, avoids⟩ := copyable.explicit_of_expansions chosen present ran
    obtain ⟨text, written⟩ := Nnf.write_succeeds upToDate.toWired there fun id gate path found lacking => by
      have kept := avoids id path gate found
      rcases lacking with kind | kind | kind <;> simp [kind, NodeKind.isRemoved] at kept
    exact ⟨new, text, replaced, written⟩

/-- The conjunction has a Horn leaf and a node that renames, and it can be written after both expansions. -/
theorem expandLeaves_correct_conjoined
    : (∃ t new, expandLeaves conjoined = .ok () t ∧ t.state.root = some new
        ∧ (∀ σ, t.state.Satisfies σ new ↔ conjoined.state.Satisfies σ 3)
        ∧ t.state.Avoids (NodeKind.isRemoved true) new)
      ∧ ∃ t u new text, expandMappings conjoined = .ok () t ∧ expandLeaves t = .ok () u ∧ u.state.root = some new
        ∧ Nnf.write new u = .ok text u := by
  obtain ⟨correct, written⟩ := conjoined_reachable.expandLeaves_correct conjoined_inRange conjoined_covered
    conjoined_flipsOwn conjoined_root
  have below : ReflTransGen conjoined.state.IsChild 0 3 :=
    (conjoined_reachable.consistent.upToDate.toWired.mem_dominated_iff (by decide +kernel)).mp (by decide +kernel)
  have leaf : ¬ conjoined.state.Avoids NodeKind.isFormula 3 := fun avoids =>
    Bool.noConfusion (avoids 0 below (.horn disjunctionOfTwo) rfl)
  have leaves : expandLeaves conjoined = .ok () (after expandLeaves conjoined) :=
    Action.eq_ok_of_isOk (by decide +kernel)
  have mappings : expandMappings conjoined = .ok () (after expandMappings conjoined) :=
    Action.eq_ok_of_isOk (by decide +kernel)
  have both : expandLeaves (after expandMappings conjoined)
      = .ok () (after expandLeaves (after expandMappings conjoined)) :=
    Action.eq_ok_of_isOk (by decide +kernel)
  constructor
  · obtain ⟨-, new, root, satisfies, explicit, -⟩ := correct leaves
    exact ⟨_, new, leaves, root, satisfies, explicit leaf⟩
  · obtain ⟨new, text, root, lines⟩ := written (.inl ⟨mappings, both⟩)
    exact ⟨_, _, new, text, mappings, both, root, lines⟩

-----------------------------------------------------------------------------------------
-- Variables, smoothness and counts
-----------------------------------------------------------------------------------------

section Counts

variable {id : NodeId} {literals : List Lit} {memoize : Bool} {count : Nat}

/-- Counting without a complementary pair between requests. -/
theorem Reachable.count_outcome (reachable : s.state.Reachable) (inRange : s.state.InRange) (covered : s.state.Covered)
    (present : id < s.state.nodes.size) (small : ∀ l ∈ literals, l.var < 2147483648)
    (consistent : ∀ l ∈ literals, ¬ -l ∈ literals) (memoize : Bool)
    : outcome (modelCount id literals memoize) s
      = if (s.state.throughoutOf id).decomposable = false then .error (.error (.notDecomposable id))
        else if (s.state.throughoutOf id).deterministic = false then .error (.error (.notDeterministic id))
        else if (s.state.throughoutOf id).smooth = false then .error (.error (.notSmooth id))
        else .ok (s.state.modelNumber id literals) := by
  obtain ⟨node, found⟩ := s.state.exists_node present
  rw [throughoutOf_of_node? found]
  exact ((modelCount_computes reachable.consistent.upToDate inRange memoize small).outcome_eq
    (reachable.asked inRange)).trans (reachable.consistent.upToDate.countOutcome_eq inRange covered found
      (admissible_of_consistent small consistent))

/-- Only nodes with all properties are counted. -/
theorem Reachable.worthy_of_count (reachable : s.state.Reachable) (inRange : s.state.InRange)
    (covered : s.state.Covered) (present : id < s.state.nodes.size) (small : ∀ l ∈ literals, l.var < 2147483648)
    (consistent : ∀ l ∈ literals, ¬ -l ∈ literals)
    (counted : outcome (modelCount id literals memoize) s = .ok count)
    : s.state.Countworthy id ∧ count = s.state.modelNumber id literals := by
  rw [reachable.count_outcome inRange covered present small consistent] at counted
  split_ifs at counted with decomposable deterministic smooth
  rw [Bool.not_eq_false] at decomposable deterministic smooth
  exact ⟨⟨decomposable, deterministic, smooth⟩, (Except.ok.inj counted).symm⟩

/-- Wherever counting has come to a number at a node, counting at the other node under the same assumption comes to a
certain result.
-/
def Recounts (s t : Journaled Circuit) (id new : NodeId) (result : Nat → Attempt CircuitError Nat) : Prop :=
  ∀ {literals memoize count},
    (∀ l ∈ literals, l.var < 2147483648)
    → (∀ l ∈ literals, ¬ -l ∈ literals)
    → outcome (modelCount id literals memoize) s = .ok count
    → outcome (modelCount new literals memoize) t = result count

/-- Counts stay if the same variables remain in all children of each disjunction of a smooth sub-circuit. They are
refused afterwards if not.
-/
theorem Expands.recounts (expands : s.state.Expands t.state id new) (copyable : s.state.Copyable)
    (copyable' : t.state.Copyable) (reachable : s.state.Reachable) (reachable' : t.state.Reachable)
    (present : id < s.state.nodes.size)
    : (((s.state.throughoutOf id).smooth = true → s.state.Level true id) → Recounts s t id new .ok)
      ∧ (¬ s.state.Level true id → Recounts s t id new fun _ => .error (.error (.notSmooth new))) := by
  constructor
  · intro level literals memoize count small consistent counted
    obtain ⟨worthy, rfl⟩ :=
      reachable.worthy_of_count copyable.inRange copyable.covered present small consistent counted
    rw [reachable'.count_outcome copyable'.inRange copyable'.covered expands.present small consistent,
      expands.decomposable worthy.decomposable, expands.deterministic worthy.deterministic,
      expands.smooth.mpr (level worthy.smooth), expands.modelNumber_eq copyable.toUpToDate worthy.smooth]
    rfl
  · intro uneven literals memoize count small consistent counted
    obtain ⟨worthy, -⟩ :=
      reachable.worthy_of_count copyable.inRange copyable.covered present small consistent counted
    rw [reachable'.count_outcome copyable'.inRange copyable'.covered expands.present small consistent,
      expands.decomposable worthy.decomposable, expands.deterministic worthy.deterministic,
      Bool.eq_false_iff.mpr (mt expands.smooth.mp uneven)]
    rfl

end Counts

/-- Expanding the formula leaves is refused just if a decision variable below the root gets lost. Otherwise the
variables that remain are those of the new root, which is smooth just if the same of them remain in all children of each
disjunction; and counts that succeeded before come to the same numbers then and are refused if not. If all formula
leaves have models, then expanding succeeds, and variables, smoothness and counts are kept.
-/
theorem Reachable.expandLeaves_settled (reachable : s.state.Reachable) (inRange : s.state.InRange)
    (covered : s.state.Covered) (flips : s.state.FlipsOwn) (chosen : s.state.root = some root)
    : ((∃ t, expandLeaves s = .ok () t) ↔ s.state.Grounded true root)
      ∧ (¬ s.state.Grounded true root → ∃ v t, expandLeaves s = .error (.error (.variableNotInCircuit v)) t)
      ∧ (∀ {t},
          expandLeaves s = .ok () t
          → ∃ new, t.state.root = some new
            ∧ (∀ v, v ∈ t.state.varsOf new ↔ s.state.Remains true v root)
            ∧ ((t.state.throughoutOf new).smooth = true ↔ s.state.Level true root)
            ∧ (s.state.Level true root → Recounts s t root new .ok)
            ∧ (¬ s.state.Level true root → Recounts s t root new fun _ => .error (.error (.notSmooth new))))
      ∧ (s.state.Intact true root
        → ∃ t new, expandLeaves s = .ok () t ∧ t.state.root = some new
          ∧ t.state.varsOf new = s.state.varsOf root
          ∧ ((s.state.throughoutOf root).smooth = true → (t.state.throughoutOf new).smooth = true)
          ∧ Recounts s t root new .ok) := by
  have consistent := reachable.consistent
  have copyable := consistent.copyable inRange covered flips
  have present := consistent.rooted.present chosen
  have hinges := expandLeaves_hinges copyable chosen present
  have done {t : Journaled Circuit} (ran : expandLeaves s = .ok () t)
      : ∃ new, t.state.root = some new ∧ s.state.Expands t.state root new
        ∧ (((s.state.throughoutOf root).smooth = true → s.state.Level true root) → Recounts s t root new .ok)
        ∧ (¬ s.state.Level true root → Recounts s t root new fun _ => .error (.error (.notSmooth new))) := by
    obtain ⟨-, ⟨advances, enlarges⟩, new, replaced, expands⟩ := hinges.succeeded ran
    have later : t.state.Reachable := @Reachable.done .expandLeaves s t reachable trivial ran
    exact ⟨new, replaced, expands,
      expands.recounts copyable (copyable.advance advances enlarges) reachable later present⟩
  have succeeds (grounded : s.state.Grounded true root) : ∃ t, expandLeaves s = .ok () t := by
    obtain ⟨_, t, ran, -⟩ := hinges.yields grounded s.journal
    exact ⟨t, ran⟩
  refine ⟨⟨fun ⟨t, ran⟩ => (hinges.succeeded ran).1, succeeds⟩, fun lost => ?_, fun {t} ran => ?_, fun intact => ?_⟩
  · obtain ⟨cause, t, ran, v, rfl⟩ := hinges.refused lost
    exact ⟨v, t, ran⟩
  · obtain ⟨new, replaced, expands, kept, refused⟩ := done ran
    exact ⟨new, replaced, expands.vars, expands.smooth, fun level => kept fun _ => level, refused⟩
  · obtain ⟨t, ran⟩ := succeeds (intact.grounded copyable.decided)
    obtain ⟨new, replaced, expands, kept, -⟩ := done ran
    have level := intact.level_iff copyable.toUpToDate inRange present
    exact ⟨t, new, ran, replaced,
      SortedSet.ext_mem fun v => (expands.vars v).trans (intact.remains_iff copyable.toUpToDate),
      fun smooth => expands.smooth.mpr (level.mpr smooth), kept level.mpr⟩

/-- The only formula leaf of the conjunction has a model, so everything is kept. -/
theorem expandLeaves_settled_conjoined
    : conjoined.state.Intact true 3
      ∧ ∃ t new, expandLeaves conjoined = .ok () t ∧ t.state.root = some new
        ∧ t.state.varsOf new = conjoined.state.varsOf 3 ∧ Recounts conjoined t 3 new .ok := by
  have gates : ∀ {id gate}, conjoined.state.gate? id = some gate → gate.Possible := by
    refine forall_gate_iff.mpr (List.forall_mem_map.mp ?_)
    have listed : conjoined.state.nodes.toList.map Node.gate
        = [.horn disjunctionOfTwo, .mapping renamedPair 0, .literal 5, .and [1, 2]] := by rfl
    have model : Clauses.TrueIn (fun _ => true) disjunctionOfTwo.unflipped := by decide
    rw [listed]
    simp only [List.forall_mem_cons]
    exact ⟨⟨_, model⟩, trivial, trivial, trivial, List.forall_mem_nil _⟩
  have intact : conjoined.state.Intact true 3 := fun _ _ _ _ found _ _ => gates found
  obtain ⟨-, -, -, kept⟩ := conjoined_reachable.expandLeaves_settled conjoined_inRange conjoined_covered
    conjoined_flipsOwn conjoined_root
  obtain ⟨t, new, ran, root, vars, -, counts⟩ := kept intact
  exact ⟨intact, t, new, ran, root, vars, counts⟩

/-- Clauses without a model. -/
def opposites : TwoCnf where
  clauses := [[1], [-1]]
  short := by decide

/-- A run that makes a disjunction of two conjunctions over the same variables, one of them with a leaf without a model.
-/
def unevenRun : List Request :=
  [.literal 2, .twoCnf opposites, .conjunction [0, 1], .literal (-2), .literal 1, .conjunction [3, 4],
    .disjunction [2, 5] none, .setRoot 6]

/-- The state after that run. -/
def uneven : Journaled Circuit := (Request.performAll unevenRun { state := .empty }).get (by decide +kernel)

/-- Expanding makes a smooth root uneven, and its only model is counted no more. A decision on the variable of a leaf
without a model is refused.
-/
theorem expansion_loses_variables
    : (uneven.state.Reachable ∧ uneven.state.InRange ∧ uneven.state.Covered ∧ uneven.state.FlipsOwn)
      ∧ uneven.state.root = some 6
      ∧ (uneven.state.throughoutOf 6).smooth = true
      ∧ outcome (modelCount 6 [] false) uneven = .ok 1
      ∧ (∃ t, expandLeaves uneven = .ok () t ∧ t.state.root = some 9
        ∧ (t.state.throughoutOf 9).smooth = false
        ∧ outcome (modelCount 9 [] false) t = .error (.error (.notSmooth 9)))
      ∧ ((Request.performAll [.twoCnf opposites, .disjunction [0] (some 1), .setRoot 1] { state := .empty }).map
          (outcome expandLeaves)) = some (.error (.error (.variableNotInCircuit 1))) := by
  have reachable : uneven.state.Reachable := by
    refine @Reachable.performAll unevenRun { state := .empty } uneven .empty ?_ (Option.some_get _).symm
    simp [unevenRun, Request.Small]
  have expanded : expandLeaves uneven = .ok () (after expandLeaves uneven) := Action.eq_ok_of_isOk (by decide +kernel)
  have uncounted : outcome (modelCount 9 [] false) (after expandLeaves uneven) = .error (.error (.notSmooth 9)) := by
    rfl
  refine ⟨⟨reachable, ?_⟩, by decide +kernel, by decide +kernel, rfl, ⟨_, expanded, ?_⟩, rfl⟩
  · exact ⟨by decide +kernel, by decide +kernel, by decide +kernel⟩
  · exact ⟨by decide +kernel, by decide +kernel, uncounted⟩

end Circuit

end KnowledgeCompiler
