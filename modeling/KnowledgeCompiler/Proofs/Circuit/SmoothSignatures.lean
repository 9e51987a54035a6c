import KnowledgeCompiler.Proofs.Circuit.SmoothMeaning

/-! What smoothing does to the table of signatures.

The disjunctions that are not smooth get other children one after another. A disjunction that is registered may have the
signature of others, which are not registered; but these are not smooth either, so their turn comes too. All children
that a disjunction gets have all of its variables, so it has no more the signature of one that still waits. In the end
the table leads from every signature to a node, if it did so before.
-/

namespace KnowledgeCompiler

open KnowledgeCompiler.Build
open KnowledgeCompiler.Action (Ensures Yields discard_bind)

namespace Circuit

variable {b c d : Circuit} {id other target : NodeId} {gate new : Gate} {known later : Gadgets}
variable {rest : List NodeId} {decision : Option Var} {children ids : List NodeId}

/-- Another gate of a node leaves the recorded variables as they are. -/
theorem Rewires.varsOf (rewires : c.Rewires d target gate new) (id : NodeId) : d.varsOf id = c.varsOf id := by
  by_cases present : id < c.nodes.size
  · obtain ⟨node, found⟩ := c.exists_node present
    obtain ⟨other, there, _, summary, _⟩ := rewires.kept found
    rw [varsOf_of_node? there, varsOf_of_node? found, Node.vars, Node.vars, summary]
  · have missing : c.node? id = none := by
      rw [← Option.not_isSome_iff_eq_none, node?_isSome]
      exact present
    have missing' : d.node? id = none := by
      rw [← Option.not_isSome_iff_eq_none, node?_isSome, rewires.size]
      exact present
    rw [Circuit.varsOf, Circuit.varsOf, missing, missing']

/-- In the second circuit a disjunction has got children that all have its variables. -/
structure Redirects (c d : Circuit) (target : NodeId) (decision : Option Var) (children ids : List NodeId) : Prop where
  rewires : c.Rewires d target (.or decision children) (.or decision ids)
  relists : c.Relists d target (.or decision children) (.or decision ids)
  vars : ∀ {id}, id ∈ ids → c.varsOf id = c.varsOf target
  inhabited : ids ≠ []

/-- In the course of smoothing some disjunctions are left to be treated: just those whose children differ in their
variables. The table leads from the signatures of all other nodes to nodes.
-/
structure Smoothing (c : Circuit) (known : Gadgets) (rest : List NodeId) : Prop extends c.Smoothable, c.RightVars where
  free : AllFree c known
  balanced : AllBalanced c known
  uneven
    : ∀ {id}, id ∈ rest
        → ∃ decision children, c.gate? id = some (.or decision children) ∧ ¬ c.Even (.or decision children)
  even : ∀ {id gate}, c.gate? id = some gate → ¬ id ∈ rest → c.Even gate
  listed : c.ListedBut rest

namespace Smoothing

/-- Disjunctions with a common signature have the same children. -/
theorem even_of_signature? (even : c.Even gate) (signed : gate.signature? = (Gate.or decision children).signature?)
    : c.Even (.or decision children) := by
  obtain ⟨others, rfl, same⟩ := Gate.eq_or_of_signature? signed
  exact fun a left b right => even a ((same a).mpr left) b ((same b).mpr right)

theorem unbalanced (smoothing : c.Smoothing known rest) (waits : id ∈ rest) : c.Unbalanced id := by
  obtain ⟨decision, children, found, uneven⟩ := smoothing.uneven waits
  exact ⟨⟨decision, children, found⟩, fun balanced => uneven (balanced.even smoothing.toRightVars found)⟩

/-- Auxiliary nodes may be added. -/
theorem grow (smoothing : c.Smoothing known rest) (larger : c.Supplements d) (enlarges : c.Enlarges d)
    (free : AllFree d later) (balanced : AllBalanced d later)
    : d.Smoothing later rest where
  toSmoothable := larger.smoothable
  toRightVars := enlarges.rightVars smoothing.toRightVars
  free := free
  balanced := balanced
  uneven waits := by
    obtain ⟨decision, children, found, uneven⟩ := smoothing.uneven waits
    refine ⟨decision, children, larger.extends_.gate? found, fun even => uneven ?_⟩
    exact (larger.extends_.retains.even_iff (smoothing.closed found)).mp even
  even {id gate} found outside := by
    rcases larger.added (lt_of_gate? found) with old | ⟨l, added⟩ | ⟨children, added⟩ | added
    · have before : c.gate? id = some gate := larger.extends_.gate?_eq old ▸ found
      exact (larger.extends_.retains.even_iff (smoothing.closed before)).mpr (smoothing.even before outside)
    · exact Option.some.inj (found.symm.trans added) ▸ even_of_kind (by simp [Gate.kind])
    · exact Option.some.inj (found.symm.trans added) ▸ even_of_kind (by simp [Gate.kind])
    · exact added.even (enlarges.rightVars smoothing.toRightVars) found
  listed := enlarges.listed smoothing.listed

/-- The next disjunction gets its new children. -/
theorem redirect (smoothing : b.Smoothing later (target :: rest)) (fresh : ¬ target ∈ rest)
    (redirects : b.Redirects d target decision children ids) (smoothable : d.Smoothable) (free : AllFree d later)
    (balanced : AllBalanced d later)
    : d.Smoothing later rest := by
  obtain ⟨rewires, relists, vars, some_⟩ := redirects
  have even_iff {gate : Gate} : d.Even gate ↔ b.Even gate := even_congr fun child _ => rewires.varsOf child
  have evened : b.Even (.or decision ids) := fun a left b right => (vars left).trans (vars right).symm
  obtain ⟨decision', children', found, uneven⟩ := smoothing.uneven List.mem_cons_self
  obtain ⟨rfl, rfl⟩ : decision = decision' ∧ children = children' := by simpa [rewires.found] using found
  refine ⟨smoothable, ⟨fun {id gate v} there => ?_⟩, free, balanced, fun {id} waits => ?_,
    fun {id gate} there outside => ?_, ⟨fun {id gate key} there outside signed => ?_⟩⟩
  · rw [rewires.varsOf, mentions_congr fun child _ => rewires.varsOf child]
    rw [rewires.gate?] at there
    split at there
    · rename_i same
      subst same
      obtain rfl := Option.some.inj there
      obtain ⟨first, member⟩ := List.exists_mem_of_ne_nil ids some_
      constructor
      · exact fun inside => ⟨first, member, (vars member).symm ▸ inside⟩
      · rintro ⟨child, listed, inside⟩
        exact vars listed ▸ inside
    · exact smoothing.mem_varsOf there
  · have differ : target ≠ id := fun same => fresh (same ▸ waits)
    obtain ⟨decision', children', there, rough⟩ := smoothing.uneven (List.mem_cons_of_mem target waits)
    exact ⟨decision', children', (rewires.other_gate? differ).trans there, fun even => rough (even_iff.mp even)⟩
  · rw [even_iff]
    rw [rewires.gate?] at there
    split at there
    · exact Option.some.inj there ▸ evened
    · rename_i differ
      exact smoothing.even there (by simp [outside, Ne.symm differ])
  · rw [rewires.gate?] at there
    split at there
    · obtain rfl := Option.some.inj there
      exact relists.listed signed
    · rename_i differ
      have outside : ¬ id ∈ target :: rest := by simp [outside, Ne.symm differ]
      obtain ⟨other, known⟩ := smoothing.listed.finds there outside signed
      -- a node with the signature that the disjunction had would have to be treated, too
      refine ⟨other, relists.kept known fun ⟨own, _⟩ => uneven ?_⟩
      exact even_of_signature? (smoothing.even there outside) (signed.trans own.symm)

end Smoothing

end Circuit

namespace Build

open Circuit

variable {c : Circuit} {target : NodeId} {known : Gadgets} {rest : List NodeId}

/-- New children are made, and the next disjunction gets them. -/
theorem smoothNode_redirects (smoothing : c.Smoothing known (target :: rest))
    : Yields (smoothNode target known) c fun later d =>
        ∃ (b : Circuit) (decision : Option Var) (children ids : List NodeId),
          b.Smoothing later (target :: rest) ∧ b.Redirects d target decision children ids := by
  have unbalanced := smoothing.unbalanced List.mem_cons_self
  obtain ⟨decision, children, disjunction, uneven⟩ := smoothing.uneven List.mem_cons_self
  obtain ⟨node, found, shape⟩ := Option.map_eq_some_iff.mp disjunction
  have own : node.children = children := congrArg Gate.children shape
  have some_ : children ≠ [] := by
    rintro rfl
    exact uneven fun a left => absurd left List.not_mem_nil
  have grows := smoothChildren_grows (c.varsOf target) smoothing.toWired unbalanced
    (fun child member => ⟨_, disjunction, member⟩) smoothing.balanced
  have yields := @smoothChildren_yields c target known children smoothing.toSmoothable smoothing.free
    (lt_of_node? found) (smoothing.closed disjunction) (smoothing.nodup disjunction)
  refine Yields.current ?_
  rw [found]
  dsimp only
  rw [own, ← varsOf_of_node? found]
  refine ((grows.ensures smoothing.toWired).yields yields).bind ?_
  rintro ⟨listed, later⟩ b ⟨⟨larger, free, newOf, rfl, completes⟩, enlarges, -, -, balanced⟩
  obtain ⟨here, there, same, _⟩ := larger.extends_.kept found
  have gate : here.gate = .or decision children := same.trans shape
  refine Yields.update (Yields.pure ?_)
  dsimp only
  rw [← redirect_congr same]
  have rewires := larger.smoothable.toWired.rewires_redirect there
    (children_withChildren (.inr (gate ▸ rfl)) (SortedSet.ofList (children.map newOf)).toList)
  have relists := relists_redirect there (SortedSet.ofList (children.map newOf)).toList
  rw [gate] at rewires relists
  have right := enlarges.rightVars smoothing.toRightVars
  refine ⟨b, decision, children, _, smoothing.grow larger enlarges free balanced, rewires, relists,
    fun member => ?_, ?_⟩
  · obtain ⟨child, listed, rfl⟩ := List.mem_map.mp (SortedSet.mem_ofList.mp member)
    rw [larger.extends_.varsOf (lt_of_node? found)]
    refine (completes child listed).varsOf smoothing.toRightVars right disjunction listed fun part below => ?_
    exact larger.extends_.varsOf (Closed.lt_of_below smoothing.closed below (smoothing.closed disjunction child listed))
  · obtain ⟨child, listed⟩ := List.exists_mem_of_ne_nil children some_
    exact List.ne_nil_of_mem (SortedSet.mem_ofList.mpr (List.mem_map_of_mem listed))

/-- One disjunction is treated. -/
theorem smoothNode_proceeds (smoothing : c.Smoothing known (target :: rest)) (fresh : ¬ target ∈ rest)
    : Yields (smoothNode target known) c fun later d => d.Smoothing later rest := by
  have unbalanced := smoothing.unbalanced List.mem_cons_self
  have ends := (smoothNode_ensures smoothing.toWired unbalanced smoothing.balanced).yields
    (smoothNode_yields smoothing.toSmoothable smoothing.free unbalanced)
  refine ((smoothNode_redirects smoothing).and ends).mono ?_
  rintro later d ⟨⟨b, decision, children, ids, middle, redirects⟩, ⟨smoothable, free, -⟩, -, -, balanced⟩
  exact middle.redirect fresh redirects smoothable free balanced

/-- Induction on the disjunctions that wait. -/
theorem smoothNodes_proceed (smoothing : c.Smoothing known rest) (distinct : rest.Nodup)
    : Yields (rest.foldlM (fun known id => smoothNode id known) known) c fun later d => d.Smoothing later [] := by
  induction rest generalizing c known with
  | nil => exact Yields.pure smoothing
  | cons target rest ih =>
      obtain ⟨fresh, distinct⟩ := List.nodup_cons.mp distinct
      rw [List.foldlM_cons]
      exact (smoothNode_proceeds smoothing fresh).bind fun known d smoothing => ih smoothing distinct

end Build

open Circuit

/-- At first all disjunctions wait that are not smooth. -/
theorem Circuit.UpToDate.smoothing {c : Circuit} (upToDate : c.UpToDate) (inRange : c.InRange) (listed : c.ListedBut [])
    : c.Smoothing [] c.rough where
  toSmoothable := upToDate.smoothable inRange
  toRightVars := upToDate.rightVars
  free found := by simp at found
  balanced := by simp [AllBalanced]
  uneven waits := by
    obtain ⟨node, found, disjunction, rough⟩ := mem_rough.mp waits
    obtain ⟨decision, children, shape⟩ := Gate.eq_or_of_kind disjunction
    have here : c.gate? _ = some (.or decision children) := shape ▸ gate?_of_node? found
    refine ⟨decision, children, here, fun even => ?_⟩
    have evaluates := upToDate.evaluates inRange found
    rw [shape] at evaluates
    rw [evaluates.smooth.mpr even] at rough
    cases rough
  even {id gate} found settled := by
    by_cases disjunction : gate.kind = .or
    · obtain ⟨node, there, rfl⟩ := Option.map_eq_some_iff.mp found
      refine (upToDate.evaluates inRange there).smooth.mp (by_contra fun rough => settled ?_)
      exact mem_rough.mpr ⟨node, there, disjunction, Bool.eq_false_iff.mpr rough⟩
    · exact even_of_kind disjunction
  listed := ⟨fun found _ signed => listed.finds found List.not_mem_nil signed⟩

/-- Smoothing keeps all signatures listed. -/
theorem Build.smooth_listed {c : Circuit} (upToDate : c.UpToDate) (inRange : c.InRange) (listed : c.ListedBut [])
    : Ensures smooth c (fun _ d => d.ListedBut []) fun _ => False := by
  refine Ensures.current ?_
  dsimp only
  rw [← rough]
  split
  · exact Ensures.pure listed
  refine Ensures.note ?_
  rw [discard_bind]
  have smoothed := smoothNodes_proceed (upToDate.smoothing inRange listed) (List.nodup_range.filter _)
  refine (Ensures.of_yields smoothed).bind ?_
  intro known d smoothing
  exact (refreshCircuit_ensures smoothing.toWired).mono (fun _ e done => smoothing.listed.congr done.1.wiring)
    fun _ none_ => none_

end KnowledgeCompiler
