import KnowledgeCompiler.Proofs.Circuit.Derivation
import KnowledgeCompiler.Proofs.Circuit.Summary

/-! What the derived data of an up-to-date circuit say about the meaning of its nodes.

A node means something about its variables only, and its models satisfy its conjuncts. The children of a
conjunction that is decomposable have no common variable, those of a disjunction that is deterministic
exclude each other, those of a smooth one have the same variables, and a property of a whole sub-circuit is
one of the sub-circuits of the children.
-/

namespace KnowledgeCompiler

/-- The numbers of a gate are in the range of variables and literals. -/
def Gate.InRange : Gate → Prop
  | .literal l => l.Proper
  | .mapping names _ => names.toGlobal.Bounded ∧ names.toLocal.Bounded
  | .twoCnf formula => ∀ clause ∈ formula.clauses, ∀ l ∈ clause, Lit.Proper l
  | .horn formula => ∀ clause ∈ formula.clauses, ∀ l ∈ clause, Lit.Proper l
  | .constant _ | .and _ | .or .. => True

instance : (gate : Gate) → Decidable gate.InRange
  | .literal l => inferInstanceAs (Decidable l.Proper)
  | .mapping names _ => inferInstanceAs (Decidable (names.toGlobal.Bounded ∧ names.toLocal.Bounded))
  | .twoCnf formula => inferInstanceAs (Decidable (∀ clause ∈ formula.clauses, ∀ l ∈ clause, Lit.Proper l))
  | .horn formula => inferInstanceAs (Decidable (∀ clause ∈ formula.clauses, ∀ l ∈ clause, Lit.Proper l))
  | .constant _ | .and _ | .or .. => inferInstanceAs (Decidable True)

namespace Circuit

variable {c d : Circuit} {id child : NodeId} {node : Node} {gate : Gate} {σ τ : Assignment}
variable {children : List NodeId} {decision : Option Var}

/-- The numbers of all gates are in range. -/
def InRange (c : Circuit) : Prop := ∀ {id gate}, c.gate? id = some gate → gate.InRange

/-- The gates of a circuit are those of its nodes. -/
theorem forall_gate_iff {P : Gate → Prop}
    : (∀ {id gate}, c.gate? id = some gate → P gate) ↔ ∀ node ∈ c.nodes.toList, P node.gate := by
  constructor
  · intro each node member
    obtain ⟨id, present, rfl⟩ := List.mem_iff_getElem.mp member
    exact each (gate?_of_node? (Array.getElem?_eq_getElem (by simpa using present)))
  · intro each id gate found
    obtain ⟨node, there, rfl⟩ := Option.map_eq_some_iff.mp found
    exact each node (Array.mem_toList_iff.mpr (Array.mem_of_getElem? there))

instance (c : Circuit) : Decidable c.InRange :=
  decidable_of_iff (∀ node ∈ c.nodes.toList, node.gate.InRange) forall_gate_iff.symm

/-- The properties of the sub-circuit of a node. -/
def throughoutOf (c : Circuit) (id : NodeId) : Properties := (c.node? id).elim .all Node.throughout

theorem throughoutOf_of_node? (found : c.node? id = some node) : c.throughoutOf id = node.throughout := by
  simp [throughoutOf, found]

-----------------------------------------------------------------------------------------
-- Summaries
-----------------------------------------------------------------------------------------

/-- The summary of a disjunction, if it is known which children contradict each other. -/
theorem ofDisjunction_eq {nodes : List Node} {summary : Summary}
    (done : Summary.ofDisjunction nodes = .ok summary)
    : ∃ deterministic,
      pairwiseChecked Summary.contradict (nodes.filter (!·.isFalse)) = .ok deterministic
      ∧ summary.size = Summary.innerSize nodes
      ∧ summary.literals = SortedSet.unionAll (nodes.map fun child => child.summary.literals)
      ∧ summary.own = { Properties.all with
          deterministic
          smooth := nodes.all fun child => child.vars == SortedSet.unionAll (nodes.map Node.vars) }
      ∧ summary.vars = SortedSet.unionAll (nodes.map Node.vars)
      ∧ summary.conjuncts = Summary.commonConjuncts (nodes.filter (!·.isFalse))
      ∧ summary.throughout = Summary.propertiesThroughout summary.own nodes := by
  unfold Summary.ofDisjunction at done
  dsimp only at done
  cases compared : pairwiseChecked Summary.contradict (nodes.filter (!·.isFalse)) with
  | error cause =>
      rw [compared] at done
      cases done
  | ok deterministic =>
      rw [compared] at done
      obtain rfl := Except.ok.inj done
      exact ⟨deterministic, rfl, rfl, rfl, rfl, rfl, rfl, rfl⟩

/-- What the summary of a disjunction consists of. -/
theorem ofDisjunction_eq_ok {nodes : List Node} {summary : Summary}
    (done : Summary.ofDisjunction nodes = .ok summary)
    : ∃ deterministic,
      pairwiseChecked Summary.contradict (nodes.filter (!·.isFalse)) = .ok deterministic
      ∧ summary.vars = SortedSet.unionAll (nodes.map Node.vars)
      ∧ summary.conjuncts = Summary.commonConjuncts (nodes.filter (!·.isFalse))
      ∧ summary.own.deterministic = deterministic
      ∧ summary.own.smooth = nodes.all (fun child =>
          child.vars == SortedSet.unionAll (nodes.map Node.vars))
      ∧ summary.throughout = Summary.propertiesThroughout summary.own nodes := by
  obtain ⟨deterministic, compared, _, _, own, vars, conjuncts, throughout⟩ := ofDisjunction_eq done
  exact ⟨deterministic, compared, vars, conjuncts, by rw [own], by rw [own], throughout⟩

/-- The summary of a renamed child, if its literals have images. -/
theorem ofMapping_eq {names : Bijection} {summary : Summary}
    (done : Summary.ofMapping names node = .ok summary)
    : ∃ literals conjuncts,
      names.toGlobal.literals node.summary.literals.toList = .ok literals
      ∧ names.toGlobal.literals node.conjuncts.toList = .ok conjuncts
      ∧ summary = {
          size := Summary.addSizes node.size 1
          vars := SortedSet.ofList (node.vars.toList.filterMap names.toGlobal.find?)
          literals := SortedSet.ofList literals
          conjuncts := SortedSet.ofList conjuncts
          own := .all
          throughout := node.throughout } := by
  unfold Summary.ofMapping at done
  cases first : names.toGlobal.literals node.summary.literals.toList with
  | error cause =>
      rw [first] at done
      cases done
  | ok literals =>
      cases second : names.toGlobal.literals node.conjuncts.toList with
      | error cause =>
          rw [first, second] at done
          cases done
      | ok conjuncts =>
          rw [first, second] at done
          exact ⟨literals, conjuncts, rfl, rfl, (Except.ok.inj done).symm⟩

/-- What the summary of a renamed child consists of. -/
theorem ofMapping_eq_ok {names : Bijection} {summary : Summary}
    (done : Summary.ofMapping names node = .ok summary)
    : ∃ conjuncts,
      names.toGlobal.literals node.conjuncts.toList = .ok conjuncts
      ∧ summary.vars = SortedSet.ofList (node.vars.toList.filterMap names.toGlobal.find?)
      ∧ summary.conjuncts = SortedSet.ofList conjuncts
      ∧ summary.throughout = node.throughout := by
  obtain ⟨_, conjuncts, _, translated, rfl⟩ := ofMapping_eq done
  exact ⟨conjuncts, translated, rfl, rfl, rfl⟩

/-- A property of a node and all its children is a property of each. -/
theorem flag_throughout {flag : Properties → Bool} (meets : ∀ p q, flag (p.meet q) = (flag p && flag q))
    {own : Properties} {nodes : List Node}
    : flag (Summary.propertiesThroughout own nodes) = true
      ↔ flag own = true ∧ ∀ node ∈ nodes, flag node.throughout = true := by
  unfold Summary.propertiesThroughout
  induction nodes generalizing own with
  | nil => simp
  | cons node rest ih =>
      rw [List.foldl_cons, ih, meets, Bool.and_eq_true, List.forall_mem_cons, and_assoc]

/-- Which children contradict each other can be found out if their conjuncts have complements. -/
theorem compare_children (present : ∀ child ∈ children, child < c.nodes.size)
    (proper : ∀ child ∈ children, ∀ l, l ∈ c.conjunctsOf child → l.Proper)
    : ∃ verdict,
      pairwiseChecked Summary.contradict ((c.nodesOf children).filter (!·.isFalse)) = .ok verdict
      ∧ (verdict = true ↔ (children.filter fun child => !c.isFalse child).Pairwise c.Contradict) := by
  have complements : ∀ a ∈ (c.nodesOf children).filter (!·.isFalse), ∀ l, l ∈ a.conjuncts → l.Proper := by
    intro a listed l inside
    obtain ⟨child, member, there⟩ := mem_nodesOf.mp (List.mem_filter.mp listed).1
    exact proper child member l (by rwa [conjunctsOf_of_node? there])
  obtain ⟨verdict, done, meaning⟩ := Checked.pairwiseChecked_ok
    fun a first b (_ : b ∈ (c.nodesOf children).filter (!·.isFalse)) => @contradict_ok a b (complements a first)
  refine ⟨verdict, done, ?_⟩
  have alive : (c.nodesOf children).filter (!·.isFalse)
      = c.nodesOf (children.filter fun child => !c.isFalse child) := by
    rw [nodesOf, nodesOf, List.filter_filterMap, List.filterMap_filter]
    refine List.filterMap_congr fun child member => ?_
    cases there : c.node? child with
    | none => simp
    | some node => cases falsum : node.isFalse <;> simp [isFalse, there, falsum]
  rw [meaning, alive, nodesOf, List.pairwise_filterMap]
  refine List.Pairwise.iff_of_mem fun {a b} left right => ?_
  obtain ⟨first, there⟩ := c.exists_node (present a (List.mem_filter.mp left).1)
  obtain ⟨second, there'⟩ := c.exists_node (present b (List.mem_filter.mp right).1)
  rw [Contradict, conjunctsOf_of_node? there, conjunctsOf_of_node? there']
  constructor
  · intro found
    obtain ⟨l, inside, opposite⟩ := List.any_eq_true.mp (found first there second there')
    exact ⟨l, inside, SortedSet.contains_iff.mp opposite⟩
  · intro found one here other here'
    obtain rfl := Option.some.inj (there.symm.trans here)
    obtain rfl := Option.some.inj (there'.symm.trans here')
    obtain ⟨l, inside, opposite⟩ := found
    exact List.any_eq_true.mpr ⟨l, inside, SortedSet.contains_iff.mpr opposite⟩

-----------------------------------------------------------------------------------------
-- Variables
-----------------------------------------------------------------------------------------

/-- The variables of a summary are those that the gate mentions. -/
theorem mem_vars_of_summarize {summary : Summary} {v : Var}
    (present : ∀ child ∈ gate.children, child < c.nodes.size) (done : c.summarize gate = .ok summary)
    : v ∈ summary.vars ↔ c.Mentions v gate := by
  cases gate with
  | constant value =>
      rw [← Except.ok.inj done]
      exact iff_of_false SortedSet.not_mem_empty fun impossible => impossible
  | literal l =>
      rw [← Except.ok.inj done]
      exact SortedSet.mem_singleton
  | and children =>
      rw [← Except.ok.inj done]
      exact mem_unionAll_vars
  | or decision children =>
      obtain ⟨_, _, vars, _⟩ := ofDisjunction_eq_ok done
      rw [vars]
      exact mem_unionAll_vars
  | mapping names child =>
      obtain ⟨below, there⟩ := c.exists_node (present child (by simp [Gate.children]))
      simp only [summarize, there] at done
      obtain ⟨_, _, vars, _⟩ := ofMapping_eq_ok done
      rw [vars, SortedSet.mem_ofList, List.mem_filterMap, Mentions, varsOf_of_node? there]
      rfl
  | twoCnf formula =>
      rw [← Except.ok.inj done]
      exact Iff.rfl
  | horn formula =>
      rw [← Except.ok.inj done]
      exact Iff.rfl

/-- The variables that a gate in range mentions are in range, if those of its children are. -/
theorem mentions_bound {v : Var} (range : gate.InRange)
    (below : ∀ child ∈ gate.children, ∀ u, u ∈ c.varsOf child → 0 < u ∧ u < 2147483648)
    (mentioned : c.Mentions v gate)
    : 0 < v ∧ v < 2147483648 := by
  have clauses : ∀ {clauses : Clauses}, (∀ clause ∈ clauses, ∀ l ∈ clause, Lit.Proper l)
      → v ∈ clauses.vars → 0 < v ∧ v < 2147483648 := by
    intro clauses proper member
    obtain ⟨clause, listed, l, within, rfl⟩ := Clauses.mem_vars.mp member
    exact ⟨Lit.var_pos (proper clause listed l within), (proper clause listed l within).2⟩
  cases gate with
  | constant value => exact mentioned.elim
  | literal l =>
      obtain rfl : v = l.var := mentioned
      exact ⟨Lit.var_pos range, range.2⟩
  | and children | or decision children =>
      obtain ⟨child, member, there⟩ := mentioned
      exact below child member v there
  | mapping names child =>
      obtain ⟨u, _, image⟩ := mentioned
      exact range.1 image
  | twoCnf formula => exact clauses range mentioned
  | horn formula =>
      refine clauses (fun clause listed l member => ?_) mentioned
      obtain ⟨source, there, rfl⟩ := List.mem_map.mp listed
      obtain ⟨k, within, rfl⟩ := List.mem_map.mp member
      have proper := range source there k within
      unfold flipLiteral
      split
      · exact proper.neg
      · exact proper

namespace UpToDate

theorem summarize_gate (upToDate : c.UpToDate) (found : c.gate? id = some gate)
    : ∃ node, c.node? id = some node ∧ c.summarize gate = .ok node.summary := by
  obtain ⟨node, present, rfl⟩ := Option.map_eq_some_iff.mp found
  exact ⟨node, present, upToDate.derived id node present⟩

/-- The summary of a node that renames. -/
theorem summarize_mapping {names : Bijection} (upToDate : c.UpToDate)
    (found : c.gate? id = some (.mapping names child))
    : ∃ node below, c.node? id = some node ∧ c.node? child = some below
      ∧ Summary.ofMapping names below = .ok node.summary := by
  obtain ⟨node, present, done⟩ := upToDate.summarize_gate found
  obtain ⟨below, there⟩ := c.exists_node (upToDate.closed found child (by simp [Gate.children]))
  simp only [summarize, there] at done
  exact ⟨node, below, present, there, done⟩

/-- The variables of a node are those that its gate mentions. -/
theorem mem_varsOf (upToDate : c.UpToDate) (found : c.gate? id = some gate) {v : Var}
    : v ∈ c.varsOf id ↔ c.Mentions v gate := by
  obtain ⟨node, present, done⟩ := upToDate.summarize_gate found
  rw [varsOf_of_node? present]
  exact mem_vars_of_summarize (upToDate.closed found) done

/-- The variables of a node are in range; induction from the children upwards. -/
theorem vars_bound (upToDate : c.UpToDate) (inRange : c.InRange) {v : Var} (inside : v ∈ c.varsOf id)
    : 0 < v ∧ v < 2147483648 := by
  induction id using upToDate.acyclic.induction generalizing v with
  | _ id ih =>
      cases found : c.gate? id with
      | none =>
          have missing : c.node? id = none := by simpa [gate?] using found
          simp [varsOf, missing] at inside
      | some gate =>
          refine mentions_bound (inRange found) (fun child member u there => ?_) ((upToDate.mem_varsOf found).mp inside)
          exact ih child ⟨gate, found, member⟩ there

/-- The meaning of a node depends on the values of its variables only; induction on the derivation. -/
theorem satisfies_congr (upToDate : c.UpToDate) (agree : ∀ v, v ∈ c.varsOf id → σ v = τ v)
    : c.Satisfies σ id ↔ c.Satisfies τ id := by
  have forward : ∀ {σ : Assignment} {id : NodeId}, c.Satisfies σ id
      → ∀ τ : Assignment, (∀ v, v ∈ c.varsOf id → σ v = τ v) → c.Satisfies τ id := by
    intro σ id satisfied
    induction satisfied with
    | constant found => exact fun τ _ => .constant found
    | literal found holds =>
        intro τ agree
        exact .literal found ((Lit.trueIn_congr (agree _ ((upToDate.mem_varsOf found).mpr rfl))).mp holds)
    | and found all ih =>
        intro τ agree
        refine .and found fun child member => ih child member τ fun v inside => ?_
        exact agree v ((upToDate.mem_varsOf found).mpr ⟨child, member, inside⟩)
    | or found member holds ih =>
        intro τ agree
        refine .or found member (ih τ fun v inside => ?_)
        exact agree v ((upToDate.mem_varsOf found).mpr ⟨_, member, inside⟩)
    | @mapping σ id names child found holds ih =>
        intro τ agree
        refine .mapping found (ih _ fun v inside => ?_)
        -- A variable without an image is false on both sides.
        cases image : names.toGlobal.find? v with
        | none => simp [Renaming.pull, image]
        | some w =>
            rw [Renaming.pull_of_find? image, Renaming.pull_of_find? image]
            exact agree w ((upToDate.mem_varsOf found).mpr ⟨v, inside, image⟩)
    | twoCnf found holds =>
        intro τ agree
        refine .twoCnf found ((Clauses.trueIn_congr fun v inside => ?_).mp holds)
        exact agree v ((upToDate.mem_varsOf found).mpr inside)
    | horn found holds =>
        intro τ agree
        refine .horn found ((Clauses.trueIn_congr fun v inside => ?_).mp holds)
        exact agree v ((upToDate.mem_varsOf found).mpr inside)
  exact ⟨fun holds => forward holds τ agree,
    fun holds => forward holds σ fun v inside => (agree v inside).symm⟩

-----------------------------------------------------------------------------------------
-- Conjuncts
-----------------------------------------------------------------------------------------

/-- A conjunct of a node is a proper literal that all models of the node satisfy; induction from the
children upwards.
-/
theorem conjunct_sound (upToDate : c.UpToDate) (inRange : c.InRange) {l : Lit}
    (forced : l ∈ c.conjunctsOf id)
    : l.Proper ∧ ∀ σ, c.Satisfies σ id → l.TrueIn σ := by
  induction id using upToDate.acyclic.induction generalizing l with
  | _ id ih =>
      cases found : c.gate? id with
      | none =>
          have missing : c.node? id = none := by simpa [gate?] using found
          simp [conjunctsOf, missing] at forced
      | some gate =>
          obtain ⟨node, present, done⟩ := upToDate.summarize_gate found
          rw [conjunctsOf_of_node? present, Node.conjuncts] at forced
          simp only [satisfies_iff found]
          cases gate with
          | constant value =>
              rw [← Except.ok.inj done] at forced
              exact absurd forced SortedSet.not_mem_empty
          | literal k =>
              rw [← Except.ok.inj done] at forced
              obtain rfl : l = k := SortedSet.mem_singleton.mp forced
              exact ⟨inRange found, fun σ holds => holds⟩
          | and children =>
              rw [← Except.ok.inj done] at forced
              obtain ⟨child, member, inside⟩ := mem_unionAll_conjuncts.mp forced
              obtain ⟨proper, holds⟩ := ih child ⟨_, found, member⟩ inside
              exact ⟨proper, fun σ all => holds σ (all child member)⟩
          | or decision children =>
              obtain ⟨_, _, _, conjuncts, _⟩ := ofDisjunction_eq_ok done
              have inside : ∀ child ∈ children, child < c.nodes.size := upToDate.closed found
              rw [conjuncts, mem_conjuncts_alive inside] at forced
              obtain ⟨⟨witness, listed, open_⟩, every⟩ := forced
              have below {child : NodeId} (member : child ∈ children) (alive : c.isFalse child = false) :=
                ih child ⟨_, found, member⟩ (every child member alive)
              refine ⟨(below listed open_).1, fun σ some_ => ?_⟩
              obtain ⟨child, member, holds⟩ := some_
              refine (below member (Bool.of_not_eq_true fun falsum => ?_)).2 σ holds
              exact not_satisfies_of_isFalse falsum holds
          | mapping names child =>
              have bounded : names.toGlobal.Bounded := (inRange found).1
              obtain ⟨other, below, there, inside, renamed⟩ := upToDate.summarize_mapping found
              obtain rfl := Option.some.inj (present.symm.trans there)
              obtain ⟨images, translated, _, conjuncts, _⟩ := ofMapping_eq_ok renamed
              rw [Renaming.literals_ok bounded] at translated
              obtain rfl := Except.ok.inj translated
              rw [conjuncts, SortedSet.mem_ofList, List.mem_filterMap] at forced
              obtain ⟨k, member, image⟩ := forced
              have holds := (ih child ⟨_, found, by simp [Gate.children]⟩
                (l := k) (by rw [conjunctsOf_of_node? inside]; exact member)).2
              refine ⟨(@Renaming.image_eq_some _ (fun _ => false) k l bounded image).2.2.1, fun σ below => ?_⟩
              exact (Renaming.image_eq_some bounded image).2.2.2.mpr (holds _ below)
          | twoCnf formula =>
              rw [← Except.ok.inj done] at forced
              exact absurd forced SortedSet.not_mem_empty
          | horn formula =>
              rw [← Except.ok.inj done] at forced
              exact absurd forced SortedSet.not_mem_empty

/-- Nodes with complementary conjuncts have no common model. -/
theorem exclusive_of_contradict (upToDate : c.UpToDate) (inRange : c.InRange) {a b : NodeId}
    (contradict : c.Contradict a b) (left : c.Satisfies σ a)
    : ¬ c.Satisfies σ b := by
  intro right
  obtain ⟨l, first, second⟩ := contradict
  obtain ⟨proper, holds⟩ := upToDate.conjunct_sound inRange first
  obtain ⟨_, holds'⟩ := upToDate.conjunct_sound inRange second
  exact (Lit.trueIn_neg proper.1).mp (holds' σ right) (holds σ left)

-----------------------------------------------------------------------------------------
-- Properties
-----------------------------------------------------------------------------------------

/-- A property of a whole sub-circuit is one of the node itself and of the sub-circuits of the children. -/
theorem flag_iff_children {flag : Properties → Bool} (upToDate : c.UpToDate)
    (meets : ∀ p q, flag (p.meet q) = (flag p && flag q)) (all : flag .all = true)
    (found : c.node? id = some node)
    : flag node.throughout = true
      ↔ flag node.summary.own = true ∧ ∀ child ∈ node.children, flag (c.throughoutOf child) = true := by
  have done := upToDate.derived id node found
  have here := gate?_of_node? found
  have listed {children : List NodeId} (present : ∀ child ∈ children, child < c.nodes.size)
      : (∀ below ∈ c.nodesOf children, flag below.throughout = true)
        ↔ ∀ child ∈ children, flag (c.throughoutOf child) = true := by
    constructor
    · intro every child member
      obtain ⟨below, there⟩ := c.exists_node (present child member)
      rw [throughoutOf_of_node? there]
      exact every below (mem_nodesOf.mpr ⟨child, member, there⟩)
    · intro every below member
      obtain ⟨child, inside, there⟩ := mem_nodesOf.mp member
      rw [← throughoutOf_of_node? there]
      exact every child inside
  rw [Node.throughout, Node.children]
  cases gate : node.gate with
  | and children =>
      rw [gate] at done here
      rw [← Except.ok.inj done]
      exact (flag_throughout meets).trans (and_congr_right fun _ => listed (upToDate.closed here))
  | or decision children =>
      rw [gate] at done here
      obtain ⟨_, _, _, _, _, _, throughout⟩ := ofDisjunction_eq_ok done
      rw [throughout]
      exact (flag_throughout meets).trans (and_congr_right fun _ => listed (upToDate.closed here))
  | mapping names only =>
      rw [gate] at here
      obtain ⟨other, inside, there, found', renamed⟩ := upToDate.summarize_mapping here
      obtain rfl := Option.some.inj (found.symm.trans there)
      obtain ⟨_, _, _, _, same⟩ := ofMapping_eq renamed
      simp [same, all, Gate.children, throughoutOf_of_node? found']
  | constant value | literal l | twoCnf formula | horn formula =>
      rw [gate] at done
      rw [← Except.ok.inj done]
      simp [Gate.children, Summary.ofConstant, Summary.ofLiteral, Summary.ofClauses, all]

/-- A property of a whole sub-circuit is one of the sub-circuits of the children. -/
theorem flag_child {flag : Properties → Bool} (upToDate : c.UpToDate)
    (meets : ∀ p q, flag (p.meet q) = (flag p && flag q)) (all : flag .all = true)
    (found : c.gate? id = some gate) (holds : flag (c.throughoutOf id) = true) (member : child ∈ gate.children)
    : flag (c.throughoutOf child) = true := by
  obtain ⟨node, present, rfl⟩ := Option.map_eq_some_iff.mp found
  rw [throughoutOf_of_node? present] at holds
  exact ((upToDate.flag_iff_children meets all present).mp holds).2 child member

/-- The children of a decomposable conjunction have no common variable. -/
theorem apart_of_decomposable (upToDate : c.UpToDate) (found : c.gate? id = some (.and children))
    (holds : (c.throughoutOf id).decomposable = true)
    : children.Pairwise c.Apart := by
  obtain ⟨node, present, done⟩ := upToDate.summarize_gate found
  rw [throughoutOf_of_node? present, Node.throughout, ← Except.ok.inj done] at holds
  have own := ((@flag_throughout Properties.decomposable (fun _ _ => rfl) _ _).mp holds).1
  exact (decomposable_iff (upToDate.closed found)).mp own

/-- The children of a deterministic disjunction that are not the constant false contradict each other. -/
theorem contradict_of_deterministic (upToDate : c.UpToDate) (inRange : c.InRange)
    (found : c.gate? id = some (.or decision children))
    (holds : (c.throughoutOf id).deterministic = true)
    : (children.filter fun child => !c.isFalse child).Pairwise c.Contradict := by
  obtain ⟨node, present, done⟩ := upToDate.summarize_gate found
  obtain ⟨deterministic, compared, _, _, own, _, throughout⟩ := ofDisjunction_eq_ok done
  rw [throughoutOf_of_node? present, Node.throughout, throughout] at holds
  have here := ((@flag_throughout Properties.deterministic (fun _ _ => rfl) _ _).mp holds).1
  rw [own] at here
  have proper : ∀ child ∈ children, ∀ l, l ∈ c.conjunctsOf child → l.Proper := fun _ _ _ inside =>
    (upToDate.conjunct_sound inRange inside).1
  obtain ⟨verdict, same, meaning⟩ := compare_children (upToDate.closed found) proper
  obtain rfl := Except.ok.inj (compared.symm.trans same)
  exact meaning.mp here

/-- The children of a smooth disjunction have its variables. -/
theorem vars_of_smooth (upToDate : c.UpToDate) (found : c.gate? id = some (.or decision children))
    (holds : (c.throughoutOf id).smooth = true) (member : child ∈ children)
    : c.varsOf child = c.varsOf id := by
  obtain ⟨node, present, done⟩ := upToDate.summarize_gate found
  obtain ⟨_, _, vars, _, _, own, throughout⟩ := ofDisjunction_eq_ok done
  rw [throughoutOf_of_node? present, Node.throughout, throughout] at holds
  have here := ((@flag_throughout Properties.smooth (fun _ _ => rfl) _ _).mp holds).1
  rw [own, List.all_eq_true] at here
  obtain ⟨below, there⟩ := c.exists_node (upToDate.closed found child member)
  have same := here below (mem_nodesOf.mpr ⟨child, member, there⟩)
  rw [varsOf_of_node? there, varsOf_of_node? present, Node.vars, Node.vars, vars]
  exact beq_iff_eq.mp same

end UpToDate

end Circuit

end KnowledgeCompiler
