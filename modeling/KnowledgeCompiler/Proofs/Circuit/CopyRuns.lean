import KnowledgeCompiler.Proofs.Circuit.Copying
import KnowledgeCompiler.Proofs.Circuit.Mirroring

/-! Copies of the sub-circuits of any circuit that can be copied.

The nodes that are copied stay as they are while the circuit grows, so all copies mirror nodes of the circuit at the
start. A copy is refused just if a decision variable does not remain below its decision; without expansion that does
not happen.
-/

namespace KnowledgeCompiler

open KnowledgeCompiler.Build
open KnowledgeCompiler.Action (Yields Hinges Ensures)

namespace Build

open Circuit

variable {b d : Circuit} {id : NodeId} {gate : Gate} {names : Renaming} {expanding : Bool} {known : Copies}
variable {children : List NodeId} {copy : CopyCall} {depth : Nat}

-----------------------------------------------------------------------------------------
-- Leaves
-----------------------------------------------------------------------------------------

/-- A formula leaf with some clauses; without clauses it is the constant true. -/
theorem leaf_advances {clauses : Clauses} {empty : Bool} (upToDate : d.UpToDate) (inRange : d.InRange)
    (leaf : gate.kind.isInner = false) (range : gate.InRange) (flips : gate.FlipsOwn)
    (holds : ∀ {e : Circuit} σ, e.Holds σ gate ↔ Clauses.TrueIn σ clauses)
    (mentions : ∀ {e : Circuit} v, e.Mentions v gate ↔ v ∈ clauses.vars) (emptiness : empty = clauses.isEmpty)
    : Yields (if empty then constant true else insert gate) d fun id e => d.Advances e ∧ e.Stands false clauses id := by
  cases none_ : clauses.isEmpty with
  | true =>
      obtain rfl := List.isEmpty_iff.mp none_
      rw [emptiness, none_, if_pos rfl]
      refine (constant_advances upToDate inRange true).mono ?_
      rintro id e ⟨advances, realizes⟩
      exact ⟨advances, realizes.stands advances.upToDate advances.inRange rfl (by simp [Holds, Clauses.TrueIn])
        (by simp [Mentions, Clauses.mem_vars])⟩
  | false =>
      have childless : gate.children = [] := by
        cases gate <;> simp_all [Gate.kind, Gate.children, NodeKind.isInner]
      rw [emptiness, none_, if_neg Bool.false_ne_true]
      refine (insert_advances upToDate inRange (by simp [childless]) (by simp [childless]) range flips).mono ?_
      rintro id e ⟨advances, realizes⟩
      exact ⟨advances, realizes.stands advances.upToDate advances.inRange leaf holds mentions⟩

theorem twoCnf_advances {formula : TwoCnf} (upToDate : d.UpToDate) (inRange : d.InRange)
    (proper : formula.clauses.Proper)
    : Yields (twoCnf formula) d fun id e => d.Advances e ∧ e.Stands false formula.clauses id :=
  leaf_advances upToDate inRange rfl proper trivial (fun _ => Iff.rfl) (fun _ => Iff.rfl) rfl

theorem horn_advances {formula : Horn} (upToDate : d.UpToDate) (inRange : d.InRange)
    (proper : formula.unflipped.Proper) (flips : ∀ v, v ∈ formula.flipped → v ∈ formula.vars)
    : Yields (horn formula) d fun id e => d.Advances e ∧ e.Stands false formula.unflipped id :=
  leaf_advances upToDate inRange rfl (Horn.proper_of_unflipped proper)
    (fun v flipped => flips v (SortedSet.mem_toList.mp flipped)) (fun _ => Iff.rfl) (fun _ => Iff.rfl)
    (by cases clauses : formula.clauses <;> simp [Horn.isEmpty, Horn.unflipped, clauses])

/-- From the clauses of a formula leaf decisions are made, or a leaf again. -/
theorem stand_advances {α : Type} {clauses : Clauses} {leaf : Build NodeId} {next : NodeId → Build α}
    {post : α → Circuit → Prop} (upToDate : d.UpToDate) (inRange : d.InRange) (proper : clauses.Proper)
    (made : Yields leaf d fun id e => d.Advances e ∧ e.Stands false clauses id)
    (then_ : ∀ id e, d.Advances e ∧ e.Stands expanding clauses id → Yields (next id) e post)
    : Yields (if expanding then expandClauses clauses >>= next else leaf >>= next) d post := by
  cases expanding with
  | false => exact made.bind then_
  | true =>
      refine (expandClauses_spec upToDate inRange proper).bind ?_
      rintro id e ⟨advances, represents⟩
      exact then_ id e ⟨advances, represents.stands⟩

-----------------------------------------------------------------------------------------
-- Remembered copies
-----------------------------------------------------------------------------------------

/-- The copies made so far mirror nodes of a circuit, and the decisions of these are grounded. -/
def Recalls (b d : Circuit) (expanding : Bool) (names : Renaming) (known : Copies) : Prop :=
  ∀ id copied, known.lookup id = some copied → b.Grounded expanding id ∧ b.Mirrors d expanding names id copied

theorem recalls_nil : Recalls b d expanding names [] := fun _ _ none_ => by simp at none_

theorem Recalls.grow {e : Circuit} (recalls : Recalls b d expanding names known) (grown : d.Extends e)
    (closed : d.Closed)
    : Recalls b e expanding names known := fun id copied found =>
  ⟨(recalls id copied found).1, (recalls id copied found).2.grow grown closed⟩

theorem Recalls.cons {copied : NodeId} (recalls : Recalls b d expanding names known)
    (grounded : b.Grounded expanding id) (mirrors : b.Mirrors d expanding names id copied)
    : Recalls b d expanding names ((id, copied) :: known) := by
  intro other found there
  by_cases same : other = id
  · subst same
    obtain rfl : copied = found := by simpa using there
    exact ⟨grounded, mirrors⟩
  · rw [List.lookup_cons, beq_false_of_ne same] at there
    exact recalls other found there

/-- What copying a node leads to. -/
def Mirrored (b d : Circuit) (expanding : Bool) (names : Renaming) (id : NodeId) (result : NodeId × Copies)
    (e : Circuit)
    : Prop :=
  d.Advances e ∧ b.Mirrors e expanding names id result.1 ∧ Recalls b e expanding names result.2

/-- How a copy is refused: a decision variable has been lost. -/
def LostVariable (cause : CircuitError) : Prop := ∃ v, cause = .variableNotInCircuit v

/-- A way to copy that is right for the nodes of a circuit up to a depth. -/
def MirrorsWithin (b : Circuit) (expanding : Bool) (copy : CopyCall) (depth : Nat) : Prop :=
  ∀ {d names id known}, b.Advances d → id < b.nodes.size → b.Within depth id → names.Fits (b.varsOf id)
    → Recalls b d expanding names known
    → Hinges (copy names id known) d (b.Grounded expanding id) (Mirrored b d expanding names id) LostVariable

/-- What has been remembered stays a copy after one more node. -/
theorem Mirrored.of_built {copied : NodeId} {e : Circuit} (advances : b.Advances d)
    (recalls : Recalls b d expanding names known) (made : d.Advances e ∧ b.Mirrors e expanding names id copied)
    : Mirrored b d expanding names id (copied, known) e :=
  ⟨made.1, made.2, recalls.grow made.1.extends_ advances.upToDate.closed⟩

/-- Children are copied in turn, each to a node of its own choice; induction on the children. -/
theorem copyAll_hinges (copies : MirrorsWithin b expanding copy depth) (advances : b.Advances d)
    (distinct : children.Nodup) (present : ∀ child ∈ children, child < b.nodes.size)
    (below : ∀ child ∈ children, b.Within depth child) (fits : ∀ child ∈ children, names.Fits (b.varsOf child))
    (recalls : Recalls b d expanding names known)
    : Hinges (copyAll copy names children known) d (∀ child ∈ children, b.Grounded expanding child)
        (fun result e =>
          d.Advances e ∧ Recalls b e expanding names result.2
          ∧ ∃ copyOf : NodeId → NodeId,
              result.1 = children.map copyOf ∧ ∀ child ∈ children, b.Mirrors e expanding names child (copyOf child))
        LostVariable := by
  induction children generalizing d known with
  | nil => exact Hinges.pure (by simp) ⟨advances.refl, recalls, id, rfl, by simp⟩
  | cons child rest ih =>
      obtain ⟨new, distinctRest⟩ := List.nodup_cons.mp distinct
      obtain ⟨presentFirst, presentRest⟩ := List.forall_mem_cons.mp present
      obtain ⟨belowFirst, belowRest⟩ := List.forall_mem_cons.mp below
      obtain ⟨fitsFirst, fitsRest⟩ := List.forall_mem_cons.mp fits
      refine Hinges.mono (?_ : Hinges _ _ (_ ∧ ∀ child ∈ rest, b.Grounded expanding child) _ _)
        List.forall_mem_cons.symm fun _ _ done => done
      refine (copies advances presentFirst belowFirst fitsFirst recalls).bind ?_
      rintro ⟨first, known⟩ c₁ ⟨step₁, mirrors, recalls⟩
      refine (ih (advances.trans step₁) distinctRest presentRest belowRest fitsRest recalls).andThen ?_
      rintro ⟨others, known⟩ c₂ ⟨step₂, recalls, copyOf, listed, each⟩
      obtain rfl : others = rest.map copyOf := listed
      exact Yields.pure ⟨step₁.trans step₂, recalls,
        exists_map_cons _ new (mirrors.grow step₂.extends_ step₁.upToDate.closed) each⟩

-----------------------------------------------------------------------------------------
-- Copies by gate
-----------------------------------------------------------------------------------------

/-- The decision variable of a disjunction of copies is a variable of one of them just if the decision variable of the
original remains.
-/
theorem renamed_decision_iff {copyOf : NodeId → NodeId} {decision renamed : Option Var} (copyable : b.Copyable)
    (fits : names.Fits (b.varsOf id)) (found : b.gate? id = some (.or decision children))
    (images : ∀ w, renamed = some w ↔ ∃ v, decision = some v ∧ names.find? v = some w)
    (each : ∀ child ∈ children, b.Mirrors d expanding names child (copyOf child))
    : (∀ w, renamed = some w → ∃ part ∈ children.map copyOf, w ∈ d.varsOf part)
      ↔ ∀ v, decision = some v → b.Remains expanding v id := by
  have whole {v : Var} (decides : decision = some v) : v ∈ b.varsOf id := copyable.decided.decides found decides
  simp only [exists_mem_varsOf_iff each, remains_iff found, Sustains]
  constructor
  · intro occurs v decides
    obtain ⟨w, image⟩ := Option.isSome_iff_exists.mp (fits.covered v (whole decides))
    obtain ⟨u, ⟨child, member, remains⟩, image'⟩ := occurs w ((images w).mpr ⟨v, decides, image⟩)
    have inside := copyable.mem_varsOf_of_remains found member remains
    exact ⟨child, member, fits.injective inside (whole decides) image' image ▸ remains⟩
  · intro remain w same
    obtain ⟨v, decides, image⟩ := (images w).mp same
    exact ⟨v, remain v decides, image⟩

/-- The children of a conjunction or of a disjunction are copied. -/
theorem copyChildren_hinges (copies : MirrorsWithin b expanding copy depth) (copyable : b.Copyable)
    (advances : b.Advances d) (found : b.gate? id = some gate) (within : b.Within (depth + 1) id)
    (fits : names.Fits (b.varsOf id)) (recalls : Recalls b d expanding names known)
    (inner : gate.kind = .and ∨ gate.kind = .or)
    : Hinges (copyAll copy names gate.children known) d (∀ child ∈ gate.children, b.Grounded expanding child)
        (fun result e =>
          d.Advances e ∧ Recalls b e expanding names result.2
          ∧ ∃ copyOf : NodeId → NodeId,
              result.1 = gate.children.map copyOf
              ∧ (∀ part ∈ gate.children.map copyOf, part < e.nodes.size)
              ∧ ∀ child ∈ gate.children, b.Mirrors e expanding names child (copyOf child))
        LostVariable := by
  have below : ∀ child ∈ gate.children, b.Within depth child := fun child member => within child ⟨gate, found, member⟩
  have fitsBelow : ∀ child ∈ gate.children, names.Fits (b.varsOf child) := fun child member =>
    copyable.fits_child fits found inner member
  refine (copyAll_hinges copies advances (copyable.nodup found) (copyable.closed found) below fitsBelow recalls).mono
    Iff.rfl ?_
  rintro result e ⟨step, recalls, copyOf, listed, each⟩
  exact ⟨step, recalls, copyOf, listed, List.forall_mem_map.mpr fun child member => (each child member).present, each⟩

/-- The copy of a node by its gate, given how to copy the nodes below it. -/
theorem copyGate_hinges (copies : MirrorsWithin b expanding copy depth) (copyable : b.Copyable)
    (advances : b.Advances d) (found : b.gate? id = some gate) (within : b.Within (depth + 1) id)
    (fits : names.Fits (b.varsOf id)) (recalls : Recalls b d expanding names known)
    : Hinges (copyGate copy expanding names id known gate) d (b.Grounded expanding id)
        (Mirrored b d expanding names id) LostVariable := by
  have below : ∀ child ∈ gate.children, b.Within depth child := fun child member => within child ⟨gate, found, member⟩
  have present : ∀ child ∈ gate.children, child < b.nodes.size := copyable.closed found
  have undecided (leaf : gate.children = []) (none_ : gate.decision = none) : b.Grounded expanding id :=
    (grounded_iff found).mpr ⟨by simp [none_], by simp [leaf]⟩
  cases gate with
  | constant value =>
      refine Hinges.of_yields ?_ (undecided rfl rfl)
      refine (constant_advances advances.upToDate advances.inRange value).bind ?_
      rintro copied e ⟨step, realizes⟩
      exact Yields.pure (.of_built advances recalls
        ⟨step, mirrors_constant copyable found realizes step.upToDate step.inRange⟩)
  | literal l =>
      refine Hinges.of_yields ?_ (undecided rfl rfl)
      have inside : l.var ∈ b.varsOf id := (copyable.mem_varsOf found).mpr rfl
      refine (image_spec (fits.covered l.var inside)).bind ?_
      rintro w _ ⟨rfl, image⟩
      obtain ⟨positive, small⟩ := fits.bounded inside image
      refine Yields.checked (Lit.ofVar_eq small l.isPositive) ?_
      refine (literal_advances advances.upToDate advances.inRange (Lit.proper_signed positive small _)).bind ?_
      rintro copied e ⟨step, realizes⟩
      exact Yields.pure (.of_built advances recalls
        ⟨step, mirrors_literal copyable found image positive realizes step.upToDate step.inRange⟩)
  | and children =>
      have grounded : (∀ child ∈ children, b.Grounded expanding child) ↔ b.Grounded expanding id := by
        simp [grounded_iff found, Gate.decision, Gate.children]
      refine ((copyChildren_hinges copies copyable advances found within fits recalls (.inl rfl)).andThen ?_).mono
        grounded fun _ _ done => done
      rintro ⟨copied, known⟩ c₁ ⟨step₁, recalls, copyOf, rfl, made, each⟩
      refine (conjunction_advances step₁.upToDate step₁.inRange made).bind ?_
      rintro id' c₂ ⟨step₂, conjoins⟩
      refine Yields.pure ⟨step₁.trans step₂, conjoins.mirrors copyable fits found fun child member => ?_,
        recalls.grow step₂.extends_ step₁.upToDate.closed⟩
      exact (each child member).grow step₂.extends_ step₁.upToDate.closed
  | or decision children =>
      have grounded : ((∀ child ∈ children, b.Grounded expanding child)
            ∧ ∀ v, decision = some v → b.Remains expanding v id) ↔ b.Grounded expanding id :=
        and_comm.trans (grounded_iff found).symm
      have covered : ∀ v, decision = some v → (names.find? v).isSome = true := fun v decides =>
        fits.covered v (copyable.decided.decides found decides)
      refine Hinges.after (decision_image_spec covered) ?_
      rintro renamed _ ⟨rfl, images⟩
      refine ((copyChildren_hinges copies copyable advances found within fits recalls (.inr rfl)).bind ?_).mono
        grounded fun _ _ done => done
      rintro ⟨copied, known⟩ c₁ ⟨step₁, recalls, copyOf, rfl, made, each⟩
      have inhabited : children ≠ [] := copyable.decided.inhabited found
      refine ((disjunction_hinges step₁.upToDate step₁.inRange made (by simpa [Gate.children] using inhabited)).mono
        (renamed_decision_iff copyable fits found images each) fun _ _ done => done).andThen ?_
      rintro id' c₂ ⟨step₂, disjoins⟩
      have mirrors : b.Mirrors c₂ expanding names id id' :=
        disjoins.mirrors copyable step₂.upToDate step₂.inRange fits found fun child member =>
          (each child member).grow step₂.extends_ step₁.upToDate.closed
      exact Yields.pure ⟨step₁.trans step₂, mirrors, recalls.grow step₂.extends_ step₁.upToDate.closed⟩
  | mapping inner child =>
      have member : child ∈ (Gate.mapping inner child).children := List.mem_singleton_self child
      have grounded : b.Grounded expanding child ↔ b.Grounded expanding id := by
        simp [grounded_iff found, Gate.decision, Gate.children]
      refine ((copies advances (present child member) (below child member) (copyable.fits_through fits found)
        recalls_nil).andThen ?_).mono grounded fun _ _ done => done
      rintro ⟨copied, _⟩ e ⟨step, mirrors, -⟩
      exact Yields.pure (.of_built advances recalls ⟨step, mirrors.of_mapping copyable found⟩)
  | twoCnf formula =>
      refine Hinges.of_yields ?_ (undecided rfl rfl)
      have fitsLeaf : names.Fits formula.clauses.vars :=
        fits.mono fun v inside => (copyable.mem_varsOf found).mpr inside
      obtain ⟨renamed, done, same⟩ := formula.rename?_fits fitsLeaf
      have proper : renamed.clauses.Proper := same ▸ fitsLeaf.proper_map_image
      refine Yields.checked done ?_
      dsimp only
      refine stand_advances advances.upToDate advances.inRange proper
        (twoCnf_advances advances.upToDate advances.inRange proper) ?_
      rintro copied e ⟨step, stands⟩
      exact Yields.pure (.of_built advances recalls ⟨step, (same ▸ stands).mirrors copyable found rfl fitsLeaf⟩)
  | horn formula =>
      refine Hinges.of_yields ?_ (undecided rfl rfl)
      have fitsLeaf : names.Fits formula.unflipped.vars :=
        fits.mono fun v inside => (copyable.mem_varsOf found).mpr inside
      obtain ⟨renamed, done, same, flips⟩ :=
        formula.rename?_fits fitsLeaf (Horn.proper_unflipped (copyable.inRange found))
          (copyable.mem_vars_of_flipped found)
      have proper : renamed.unflipped.Proper := same ▸ fitsLeaf.proper_map_image
      refine Yields.checked done ?_
      dsimp only
      refine stand_advances advances.upToDate advances.inRange proper
        (horn_advances advances.upToDate advances.inRange proper flips) ?_
      rintro copied e ⟨step, stands⟩
      exact Yields.pure (.of_built advances recalls ⟨step, (same ▸ stands).mirrors copyable found rfl fitsLeaf⟩)

-----------------------------------------------------------------------------------------
-- Copies of sub-circuits
-----------------------------------------------------------------------------------------

/-- The fuel suffices for the nodes up to that depth; induction on the fuel. -/
theorem copyWithin_hinges (copyable : b.Copyable) (fuel : Nat)
    : MirrorsWithin b expanding (copyWithin expanding fuel) fuel := by
  induction fuel with
  | zero => exact fun _ _ none_ => none_.elim
  | succ fuel ih =>
      intro d names id known advances present within fits recalls
      unfold copyWithin
      cases seen : known.lookup id with
      | some copied =>
          obtain ⟨grounded, mirrors⟩ := recalls id copied seen
          exact Hinges.pure grounded ⟨advances.refl, mirrors, recalls⟩
      | none =>
          obtain ⟨here, found⟩ := b.exists_node present
          refine Hinges.after (node_spec (advances.extends_.lt present)) ?_
          rintro node _ ⟨rfl, there⟩
          obtain ⟨other, kept, gate, -⟩ := advances.extends_.kept found
          obtain rfl := Option.some.inj (there.symm.trans kept)
          dsimp only
          rw [gate]
          refine (copyGate_hinges ih copyable advances (gate?_of_node? found) within fits recalls).known.andThen ?_
          rintro ⟨copied, known⟩ e ⟨grounded, step, mirrors, recalls⟩
          exact Yields.pure ⟨step, mirrors, recalls.cons grounded mirrors⟩

/-- A copy is refused just if decision variables get lost. Otherwise it mirrors the original, and the nodes that were
there stay as they were.
-/
theorem copyWith_hinges (copyable : b.Copyable) (present : id < b.nodes.size) (fits : names.Fits (b.varsOf id))
    : Hinges (copyWith expanding id names) b (b.Grounded expanding id)
        (fun copied e => (b.Advances e ∧ b.Mirrors e expanding names id copied) ∧ b.Enlarges e) LostVariable := by
  have run : Hinges (copyWith expanding id names) b (b.Grounded expanding id)
      (fun copied e => b.Advances e ∧ b.Mirrors e expanding names id copied) LostVariable := by
    refine Hinges.current ?_
    have within := (copyable.acyclic.within copyable.closed present).mono (Nat.le_succ _)
    refine (copyWithin_hinges copyable _ copyable.advances present within fits recalls_nil).andThen ?_
    rintro ⟨copied, known⟩ e ⟨step, mirrors, -⟩
    exact Yields.pure ⟨step, mirrors⟩
  exact run.ensures ((copyWith_grows expanding id).enlarges copyable.toWired)

end Build

end KnowledgeCompiler
