import Mathlib.Data.List.Pairwise
import KnowledgeCompiler.Circuit.Smoothing
import KnowledgeCompiler.Proofs.Circuit.Building

/-! Disjunctions with other children.

A disjunction may get other children that mean the same as its own and have the same conjuncts, if each
of them has all variables of the disjunction and the disjunction is not below any of them. It keeps its
meaning and what is derived for it, and the circuit stays coherent.
-/

namespace KnowledgeCompiler.Circuit

open Relation

variable {c d e : Circuit} {id target : NodeId} {node : Node}
variable {children ids : List NodeId} {decision : Option Var} {newOf : NodeId → NodeId}

-----------------------------------------------------------------------------------------
-- Other children
-----------------------------------------------------------------------------------------

/-- A node can stand for a child of a disjunction: it means the same, it has the variables of the
disjunction, and the disjunction is not below it.
-/
structure Padded (c : Circuit) (target child new : NodeId) : Prop where
  present : new < c.nodes.size
  satisfies : ∀ σ, c.Satisfies σ new ↔ c.Satisfies σ child
  vars : c.varsOf new = c.varsOf target
  conjuncts : c.conjunctsOf new = c.conjunctsOf child
  open_ : c.isFalse new = false
  apart : ¬ ReflTransGen c.IsChild target new

/-- A disjunction, and nodes that stand for its children. -/
structure Redirection (c : Circuit) (target : NodeId) (node : Node) (decision : Option Var)
    (children ids : List NodeId) (newOf : NodeId → NodeId)
    : Prop where
  found : c.node? target = some node
  disjunction : node.gate = .or decision children
  ascending : ids.Pairwise (· < ·)
  members : ∀ {id}, id ∈ ids ↔ ∃ child ∈ children, newOf child = id
  padded : ∀ {child}, child ∈ children → c.Padded target child (newOf child)

namespace Redirection

theorem target_gate? (redirection : c.Redirection target node decision children ids newOf)
    : c.gate? target = some (.or decision children) := by
  rw [gate?_of_node? redirection.found, redirection.disjunction]

theorem gate? (redirection : c.Redirection target node decision children ids newOf) (id : NodeId)
    : (c.redirect target node ids).gate? id
      = if target = id then some (.or decision ids) else c.gate? id := by
  cases found : c.node? id with
  | none =>
      have missing : c.gate? id = none := by simp [Circuit.gate?, found]
      have differ : target ≠ id := fun same => by simp [← same, redirection.found] at found
      rw [if_neg differ, missing, gate?_eq_none, (c.redirect_frame target node ids).1]
      exact gate?_eq_none.mp missing
  | some here =>
      obtain ⟨other, there, gate, _⟩ := @node?_redirect c id target node here ids found
      rw [gate?_of_node? there, gate, redirection.disjunction, gate?_of_node? found]
      split <;> rfl

theorem retains (redirection : c.Redirection target node decision children ids newOf)
    : c.Retains (c.redirect target node ids) := by
  have kept : ∀ {id}, id < c.nodes.size → ∃ here other, c.node? id = some here
      ∧ (c.redirect target node ids).node? id = some other ∧ other.summary = here.summary := by
    intro id inside
    obtain ⟨here, found⟩ := c.exists_node inside
    obtain ⟨other, there, _, summary, _⟩ := @node?_redirect c id target node here ids found
    exact ⟨here, other, found, there, summary⟩
  refine ⟨Nat.le_of_eq (c.redirect_frame target node ids).1.symm, fun inside => ?_, fun inside => ?_,
    fun {id} inside => ?_⟩
  · obtain ⟨here, other, found, there, summary⟩ := kept inside
    rw [varsOf_of_node? found, varsOf_of_node? there, Node.vars, Node.vars, summary]
  · obtain ⟨here, other, found, there, summary⟩ := kept inside
    rw [conjunctsOf_of_node? found, conjunctsOf_of_node? there, Node.conjuncts, Node.conjuncts, summary]
  · rw [Bool.eq_iff_iff, isFalse_iff, isFalse_iff, redirection.gate?]
    split
    · rename_i same
      rw [← same, redirection.target_gate?]
      simp
    · rfl

/-- The new children have the variables of the disjunction. -/
theorem varsOf_new (redirection : c.Redirection target node decision children ids newOf)
    (member : id ∈ ids)
    : (c.redirect target node ids).varsOf id = c.varsOf target := by
  obtain ⟨child, listed, rfl⟩ := redirection.members.mp member
  have padded := redirection.padded listed
  rw [redirection.retains.varsOf padded.present, padded.vars]

theorem acyclic (redirection : c.Redirection target node decision children ids newOf)
    (acyclic : c.Acyclic)
    : (c.redirect target node ids).Acyclic := by
  refine acyclic.redirect target (fun child parent other link => ?_) (fun child link => ?_)
  · obtain ⟨gate, found, member⟩ := link
    rw [redirection.gate?, if_neg (Ne.symm other)] at found
    exact ⟨gate, found, member⟩
  · obtain ⟨gate, found, member⟩ := link
    rw [redirection.gate?, if_pos rfl] at found
    obtain rfl := Option.some.inj found
    obtain ⟨old, listed, rfl⟩ := redirection.members.mp member
    exact (redirection.padded listed).apart

/-- Every node means what it meant; induction from the children upwards. -/
theorem satisfies_iff (redirection : c.Redirection target node decision children ids newOf)
    (acyclic : c.Acyclic) {σ : Assignment}
    : (c.redirect target node ids).Satisfies σ id ↔ c.Satisfies σ id := by
  induction id using (redirection.acyclic acyclic).induction generalizing σ with
  | _ id ih =>
      have gate := redirection.gate? id
      by_cases same : target = id
      · subst same
        rw [if_pos rfl] at gate
        rw [Circuit.satisfies_iff gate, Circuit.satisfies_iff redirection.target_gate?]
        constructor
        · intro some_
          obtain ⟨new, member, holds⟩ := some_
          rw [ih new ⟨_, gate, member⟩] at holds
          obtain ⟨child, listed, rfl⟩ := redirection.members.mp member
          exact ⟨child, listed, ((redirection.padded listed).satisfies σ).mp holds⟩
        · intro some_
          obtain ⟨child, listed, holds⟩ := some_
          have member := redirection.members.mpr ⟨child, listed, rfl⟩
          refine ⟨newOf child, member, (ih _ ⟨_, gate, member⟩).mpr ?_⟩
          exact ((redirection.padded listed).satisfies σ).mpr holds
      · rw [if_neg same] at gate
        cases found : c.gate? id with
        | none =>
            exact iff_of_false (not_satisfies_of_gate? (gate.trans found)) (not_satisfies_of_gate? found)
        | some key =>
            rw [found] at gate
            rw [Circuit.satisfies_iff gate, Circuit.satisfies_iff found]
            exact holds_congr fun child member σ => ih child ⟨key, gate, member⟩

/-- The new gate fits, since the new children have the conjuncts of the old ones. -/
theorem admits (redirection : c.Redirection target node decision children ids newOf)
    (coherent : c.Coherent)
    : (c.redirect target node ids).Admits (.or decision ids) := by
  obtain ⟨contradictory, _, nonempty, decided⟩ := coherent.admits redirection.target_gate?
  have contradict := List.Pairwise.forall contradictory
  have retains := redirection.retains
  refine ⟨?_, fun id member => ?_, ?_, fun v same => ?_⟩
  · have nodup : ids.Nodup := redirection.ascending.imp Nat.ne_of_lt
    refine nodup.pairwise_of_forall_ne fun a left b right differ => ?_
    obtain ⟨x, first, rfl⟩ := redirection.members.mp left
    obtain ⟨y, second, rfl⟩ := redirection.members.mp right
    obtain ⟨l, there, opposite⟩ := contradict first second fun same => differ (same ▸ rfl)
    have left := redirection.padded first
    have right := redirection.padded second
    refine ⟨l, ?_, ?_⟩
    · rwa [retains.conjunctsOf left.present, left.conjuncts]
    · rwa [retains.conjunctsOf right.present, right.conjuncts]
  · obtain ⟨child, listed, rfl⟩ := redirection.members.mp member
    have padded := redirection.padded listed
    rw [retains.isFalse padded.present, padded.open_]
  · obtain ⟨child, listed⟩ := List.exists_mem_of_ne_nil _ nonempty
    exact List.ne_nil_of_mem (redirection.members.mpr ⟨child, listed, rfl⟩)
  · obtain ⟨child, listed, inside⟩ := decided v same
    have member := redirection.members.mpr ⟨child, listed, rfl⟩
    refine ⟨newOf child, member, ?_⟩
    rw [redirection.varsOf_new member, coherent.mem_varsOf redirection.target_gate?]
    exact ⟨child, listed, inside⟩

theorem even (redirection : c.Redirection target node decision children ids newOf)
    : (c.redirect target node ids).Even (.or decision ids) := by
  intro a left b right
  rw [redirection.varsOf_new left, redirection.varsOf_new right]

/-- What was derived for the disjunction is still right. -/
theorem describes (redirection : c.Redirection target node decision children ids newOf)
    (coherent : c.Coherent)
    : (c.redirect target node ids).Describes (.or decision ids) node.summary := by
  have described := coherent.describes redirection.found
  rw [redirection.disjunction] at described
  have nonempty := (coherent.admits redirection.target_gate?).2.2.1
  obtain ⟨child, listed⟩ := List.exists_mem_of_ne_nil _ nonempty
  refine ⟨fun {v} => ?_, fun {l} => ?_, fun _ => redirection.even⟩
  · have own : v ∈ node.summary.vars ↔ v ∈ c.varsOf target := by
      rw [varsOf_of_node? redirection.found]
      rfl
    rw [own]
    constructor
    · intro inside
      have member := redirection.members.mpr ⟨child, listed, rfl⟩
      exact ⟨_, member, redirection.varsOf_new member ▸ inside⟩
    · intro found
      obtain ⟨id, member, inside⟩ := found
      rwa [redirection.varsOf_new member] at inside
  · have same : ∀ {child}, child ∈ children
        → (c.redirect target node ids).conjunctsOf (newOf child) = c.conjunctsOf child := by
      intro child listed
      have padded := redirection.padded listed
      rw [redirection.retains.conjunctsOf padded.present, padded.conjuncts]
    rw [described.conjuncts]
    constructor
    · intro forced
      refine ⟨List.ne_nil_of_mem (redirection.members.mpr ⟨child, listed, rfl⟩), fun id member => ?_⟩
      obtain ⟨child, listed, rfl⟩ := redirection.members.mp member
      rw [same listed]
      exact forced.2 child listed
    · intro forced
      refine ⟨nonempty, fun child listed => ?_⟩
      rw [← same listed]
      exact forced.2 _ (redirection.members.mpr ⟨child, listed, rfl⟩)

/-- The circuit stays wired. -/
theorem wired (redirection : c.Redirection target node decision children ids newOf) (wired : c.Wired)
    : (c.redirect target node ids).Wired := by
  have rewires := wired.rewires_redirect redirection.found
    (by rw [redirection.disjunction]; rfl : (node.gate.withChildren ids).children = ids)
  rw [redirection.disjunction] at rewires
  refine wired.rewire rewires (fun id member => ?_) (redirection.ascending.imp Nat.ne_of_lt)
    (fun id member => ?_)
  · obtain ⟨child, listed, rfl⟩ := redirection.members.mp member
    exact (redirection.padded listed).present
  · obtain ⟨child, listed, rfl⟩ := redirection.members.mp member
    exact (redirection.padded listed).apart

/-- The circuit stays coherent. -/
theorem coherent (redirection : c.Redirection target node decision children ids newOf)
    (coherent : c.Coherent)
    : (c.redirect target node ids).Coherent := by
  have retains := redirection.retains
  obtain ⟨size, sharing⟩ := c.redirect_frame target node ids
  have old : ∀ {id other}, (c.redirect target node ids).node? id = some other
      → ∃ here, c.node? id = some here ∧ other.summary = here.summary ∧ other.memo = here.memo
        ∧ other.gate = if target = id then .or decision ids else here.gate := by
    intro id other found
    obtain ⟨here, before⟩ := c.exists_node (size ▸ lt_of_node? found)
    obtain ⟨_, there, gate, summary, memo, _⟩ := @node?_redirect c id target node here ids before
    obtain rfl := Option.some.inj (found.symm.trans there)
    rw [redirection.disjunction] at gate
    exact ⟨here, before, summary, memo, gate⟩
  refine ⟨redirection.wired coherent.toWired, ?_, ?_, ?_, ?_, ?_, sharing.trans coherent.sharing⟩
  · intro id key found
    rw [redirection.gate?] at found
    split at found
    · obtain rfl := Option.some.inj found
      exact redirection.ascending
    · exact coherent.ascending found
  · intro id key found
    rw [redirection.gate?] at found
    split at found
    · obtain rfl := Option.some.inj found
      exact redirection.admits coherent
    · exact retains.admits (coherent.closed found) (coherent.admits found)
  · intro id other found
    obtain ⟨here, before, summary, _, gate⟩ := old found
    rw [gate, summary]
    split
    · rename_i same
      subst same
      obtain rfl := Option.some.inj (before.symm.trans redirection.found)
      exact redirection.describes coherent
    · exact retains.describes (coherent.closed (gate?_of_node? before)) (coherent.describes before)
  · intro id inside
    rw [size] at inside
    have sound := coherent.sound inside
    refine ⟨size.symm ▸ inside, ?_, fun found => ?_⟩
    · rw [retains.conjunctsOf inside]
      exact sound.proper
    · obtain ⟨here, before, summary, _⟩ := old found
      rw [Node.throughout, summary]
      exact sound.countable before
  · intro id other found
    obtain ⟨here, before, _, memo, _⟩ := old found
    rw [memo, coherent.unasked before]

/-- A disjunction whose children all stand for themselves keeps them. -/
theorem eq_of_self (redirection : c.Redirection target node decision children ids newOf)
    (coherent : c.Coherent) (same : ∀ child ∈ children, newOf child = child)
    : ids = children := by
  refine SortedSet.ascending_ext redirection.ascending
    (coherent.ascending redirection.target_gate?) (fun id => ?_)
  rw [redirection.members]
  constructor
  · intro some_
    obtain ⟨child, listed, rfl⟩ := some_
    rwa [same child listed]
  · exact fun listed => ⟨id, listed, same id listed⟩

end Redirection

theorem redirect_congr {other : Node} (same : node.gate = other.gate)
    : c.redirect target node ids = c.redirect target other ids := by
  unfold redirect Node.children
  rw [same]

-----------------------------------------------------------------------------------------
-- What is kept
-----------------------------------------------------------------------------------------

/-- Nodes keep what is derived for them and what they mean, and disjunctions stay disjunctions. -/
structure Reshapes (c d : Circuit) : Prop where
  kept
    : ∀ {id node},
        c.node? id = some node → ∃ other, d.node? id = some other ∧ other.summary = node.summary
  disjunction
    : ∀ {id decision children},
        c.gate? id = some (.or decision children) → ∃ others, d.gate? id = some (.or decision others)
  satisfies : ∀ {id σ}, id < c.nodes.size → (d.Satisfies σ id ↔ c.Satisfies σ id)

theorem Reshapes.refl (c : Circuit) : c.Reshapes c :=
  ⟨fun {_ node} found => ⟨node, found, rfl⟩, fun {_ _ children} found => ⟨children, found⟩, fun _ => Iff.rfl⟩

theorem Reshapes.lt (reshapes : c.Reshapes d) (present : id < c.nodes.size) : id < d.nodes.size := by
  obtain ⟨node, found⟩ := c.exists_node present
  obtain ⟨other, there, _⟩ := reshapes.kept found
  exact lt_of_node? there

theorem Reshapes.trans (first : c.Reshapes d) (second : d.Reshapes e) : c.Reshapes e where
  kept found := by
    obtain ⟨middle, there, same⟩ := first.kept found
    obtain ⟨last, there', same'⟩ := second.kept there
    exact ⟨last, there', same'.trans same⟩
  disjunction found := by
    obtain ⟨children, there⟩ := first.disjunction found
    exact second.disjunction there
  satisfies present := (second.satisfies (first.lt present)).trans (first.satisfies present)

theorem Reshapes.varsOf (reshapes : c.Reshapes d) (present : id < c.nodes.size)
    : d.varsOf id = c.varsOf id := by
  obtain ⟨node, found⟩ := c.exists_node present
  obtain ⟨other, there, same⟩ := reshapes.kept found
  rw [varsOf_of_node? found, varsOf_of_node? there, Node.vars, Node.vars, same]

theorem Extends.reshapes (grown : c.Extends d) (closed : c.Closed) : c.Reshapes d where
  kept found := by
    obtain ⟨other, there, _, same⟩ := grown.kept found
    exact ⟨other, there, same⟩
  disjunction {_ _ children} found := ⟨children, grown.gate? found⟩
  satisfies present := grown.satisfies_iff closed present

theorem Redirection.reshapes (redirection : c.Redirection target node decision children ids newOf)
    (coherent : c.Coherent)
    : c.Reshapes (c.redirect target node ids) where
  kept {id here} found := by
    obtain ⟨other, there, _, same, _⟩ := @node?_redirect c id target node here ids found
    exact ⟨other, there, same⟩
  disjunction {id other others} found := by
    rw [redirection.gate?]
    split
    · rename_i same
      subst same
      obtain ⟨rfl, rfl⟩ : decision = other ∧ children = others := by
        simpa [redirection.target_gate?] using found
      exact ⟨ids, rfl⟩
    · exact ⟨others, found⟩
  satisfies _ := redirection.satisfies_iff coherent.acyclic

end KnowledgeCompiler.Circuit
