import KnowledgeCompiler.Proofs.Nnf.Acceptance

/-! Where reading meets a fault.

Only the comparison of the children of a disjunction can meet one: it negates conjuncts, and the least literal has no
negation. A conjunct comes from a literal line further up, so a text meets a fault only if the line of the least
literal comes before a disjunction of two or more nodes. Any other text is read or refused with an error.
-/

namespace KnowledgeCompiler

-----------------------------------------------------------------------------------------
-- Actions and the faults that they may meet
-----------------------------------------------------------------------------------------

namespace Action

variable {ε σ α β : Type} {s : σ} {action : Action ε σ α}

instance (result : EStateM.Result (Failure ε) (Journaled σ) α) (cause : Fault)
    : Decidable (∃ t, result = .error (.fault cause) t) :=
  match result with
  | .ok _ _ => .isFalse (by simp)
  | .error (.error _) _ => .isFalse (by simp)
  | .error (.fault other) _ => decidable_of_iff (other = cause) (by simp)

/-- From the state `s` the action meets none but the allowed faults. If it succeeds, its result and last state satisfy
`post`.
-/
def Confined (action : Action ε σ α) (s : σ) (post : α → σ → Prop) (allowed : Fault → Prop) : Prop :=
  ∀ journal,
    match action ⟨s, journal⟩ with
    | .ok a t => post a t.state
    | .error (.error _) _ => True
    | .error (.fault cause) _ => allowed cause

namespace Confined

variable {post weaker : α → σ → Prop} {result : β → σ → Prop} {next : α → Action ε σ β}
variable {allowed further : Fault → Prop}

theorem mono (confined : Confined action s post allowed) (weaken : ∀ a t, post a t → weaker a t)
    (allow : ∀ cause, allowed cause → further cause)
    : Confined action s weaker further := by
  intro journal
  have ended := confined journal
  split at ended
  · exact weaken _ _ ended
  · trivial
  · exact allow _ ended

theorem pure {a : α} (holds : post a s) : Confined (Pure.pure a : Action ε σ α) s post allowed := fun _ => holds

theorem fail {cause : ε} : Confined (Action.fail cause : Action ε σ α) s post allowed := fun _ => trivial

theorem bind (first : Confined action s post allowed)
    (second : ∀ a t, post a t → Confined (next a) t result allowed)
    : Confined (action >>= next) s result allowed := by
  intro journal
  have ended := first journal
  show match EStateM.bind action next ⟨s, journal⟩ with
    | .ok b t => result b t.state
    | .error (.error _) _ => True
    | .error (.fault cause) _ => allowed cause
  simp only [EStateM.bind]
  split at ended
  · rename_i a t run
    rw [run]
    exact second a t.state ended t.journal
  · rename_i run
    rw [run]
    trivial
  · rename_i run
    rw [run]
    exact ended

/-- Nothing happens after an error. -/
theorem failed {cause : ε} : Confined (Action.fail cause >>= next) s result allowed := fun _ => trivial

theorem current {next : σ → Action ε σ β} (then_ : Confined (next s) s result allowed)
    : Confined (Action.current >>= next) s result allowed := then_

theorem update {change : σ → σ} {next : Unit → Action ε σ β} (then_ : Confined (next ()) (change s) result allowed)
    : Confined (Action.update change >>= next) s result allowed := then_

theorem note {event : Event} {next : Unit → Action ε σ β} (then_ : Confined (next ()) s result allowed)
    : Confined (Action.note event >>= next) s result allowed :=
  fun journal => then_ (journal.push event)

theorem checked {value : Checked α} (then_ : ∀ a, value = .ok a → Confined (next a) s result allowed)
    (failing : ∀ cause, value = .error cause → allowed cause)
    : Confined ((liftM value : Action ε σ α) >>= next) s result allowed := by
  cases value with
  | ok a => exact then_ a rfl
  | error cause => exact fun _ => failing cause rfl

end Confined

end Action

-----------------------------------------------------------------------------------------
-- Comparisons
-----------------------------------------------------------------------------------------

namespace Checked

variable {α : Type} {test : α → Checked Bool} {items : List α} {cause : Fault}

/-- Where a test of some items fails, the test of one of them does; induction on the items. -/
theorem anyM_error (failed : List.anyM test items = .error cause) : ∃ a ∈ items, test a = .error cause := by
  induction items with
  | nil => cases failed
  | cons a rest ih =>
      rw [List.anyM] at failed
      cases value : test a with
      | error other =>
          rw [value] at failed
          obtain rfl := Except.error.inj failed
          exact ⟨a, List.mem_cons_self, value⟩
      | ok holds =>
          rw [value] at failed
          cases holds with
          | true => cases failed
          | false =>
              obtain ⟨b, member, found⟩ := ih failed
              exact ⟨b, List.mem_cons_of_mem a member, found⟩

theorem allM_error (failed : List.allM test items = .error cause) : ∃ a ∈ items, test a = .error cause := by
  induction items with
  | nil => cases failed
  | cons a rest ih =>
      rw [List.allM] at failed
      cases value : test a with
      | error other =>
          rw [value] at failed
          obtain rfl := Except.error.inj failed
          exact ⟨a, List.mem_cons_self, value⟩
      | ok holds =>
          rw [value] at failed
          cases holds with
          | false => cases failed
          | true =>
              obtain ⟨b, member, found⟩ := ih failed
              exact ⟨b, List.mem_cons_of_mem a member, found⟩

/-- Where a pairwise test fails, one of its comparisons does, and there are two items to compare. -/
theorem pairwiseChecked_error {related : α → α → Checked Bool} (failed : pairwiseChecked related items = .error cause)
    : 2 ≤ items.length ∧ ∃ a ∈ items, ∃ b ∈ items, related a b = .error cause := by
  induction items with
  | nil => cases failed
  | cons a rest ih =>
      rw [pairwiseChecked] at failed
      cases compared : List.allM (related a) rest with
      | error other =>
          rw [compared] at failed
          obtain rfl := Except.error.inj failed
          obtain ⟨b, member, found⟩ := allM_error compared
          exact ⟨Nat.succ_le_succ (List.length_pos_of_mem member), a, List.mem_cons_self, b,
            List.mem_cons_of_mem a member, found⟩
      | ok all =>
          rw [compared] at failed
          cases all with
          | false => cases failed
          | true =>
              obtain ⟨length, x, left, y, right, found⟩ := ih failed
              exact ⟨Nat.le_succ_of_le length, x, List.mem_cons_of_mem a left, y, List.mem_cons_of_mem a right, found⟩

end Checked

/-- Comparing nodes fails only on a conjunct that has no negation. -/
theorem contradict_error {a b : Node} {cause : Fault} (failed : Summary.contradict a b = .error cause)
    : cause = .negationOverflow ∧ Lit.least ∈ a.conjuncts := by
  obtain ⟨l, member, negated⟩ := Checked.anyM_error failed
  unfold Lit.negate at negated
  split at negated
  · rename_i least
    exact ⟨(Except.error.inj negated).symm, least ▸ SortedSet.mem_toList.mp member⟩
  · cases negated

namespace Circuit

variable {c d : Circuit} {gate : Gate} {summary : Summary} {l : Lit}

/-- Summaries of gates other than mappings fail only for disjunctions of two or more nodes, one of which commits to the
literal without a negation.
-/
theorem summarize_error {cause : Fault} (other : gate.kind ≠ .mapping) (failed : c.summarize gate = .error cause)
    : cause = .negationOverflow
      ∧ ∃ decision children, gate = .or decision children ∧ 2 ≤ children.length
        ∧ ∃ child ∈ children, Lit.least ∈ c.conjunctsOf child := by
  cases gate with
  | constant value | literal k | and children | twoCnf formula | horn formula => cases failed
  | mapping names child => exact absurd rfl other
  | or decision children =>
      have compared : pairwiseChecked Summary.contradict ((c.nodesOf children).filter (!·.isFalse)) = .error cause := by
        simp only [summarize, Summary.ofDisjunction] at failed
        cases compared : pairwiseChecked Summary.contradict ((c.nodesOf children).filter (!·.isFalse)) with
        | error other => rw [compared] at failed; exact congrArg Except.error (Except.error.inj failed)
        | ok verdict => rw [compared] at failed; cases failed
      obtain ⟨length, a, left, b, _, failed⟩ := Checked.pairwiseChecked_error compared
      obtain ⟨rfl, least⟩ := contradict_error failed
      obtain ⟨child, member, found⟩ := mem_nodesOf.mp (List.mem_filter.mp left).1
      refine ⟨rfl, decision, children, rfl, ?_, child, member, conjunctsOf_of_node? found ▸ least⟩
      calc
        2
        _ ≤ ((c.nodesOf children).filter (!·.isFalse)).length := length
        _ ≤ (c.nodesOf children).length := List.length_filter_le ..
        _ ≤ children.length := List.length_filterMap_le ..

/-- Conjuncts come from literals or from below. -/
theorem mem_conjuncts_of_summarize (other : gate.kind ≠ .mapping) (done : c.summarize gate = .ok summary)
    (inside : l ∈ summary.conjuncts)
    : gate = .literal l ∨ ∃ child ∈ gate.children, l ∈ c.conjunctsOf child := by
  cases gate with
  | mapping names child => exact absurd rfl other
  | constant value | twoCnf formula | horn formula =>
      rw [← Except.ok.inj done] at inside
      exact absurd inside SortedSet.not_mem_empty
  | literal k =>
      rw [← Except.ok.inj done] at inside
      exact .inl (congrArg Gate.literal (SortedSet.mem_singleton.mp inside).symm)
  | and children =>
      rw [← Except.ok.inj done] at inside
      exact .inr (mem_unionAll_conjuncts.mp inside)
  | or decision children =>
      obtain ⟨_, _, _, conjuncts, _⟩ := ofDisjunction_eq_ok done
      rw [conjuncts, mem_commonConjuncts] at inside
      obtain ⟨node, listed⟩ := List.exists_mem_of_ne_nil _ inside.1
      obtain ⟨child, member, found⟩ := mem_nodesOf.mp (List.mem_filter.mp listed).1
      exact .inr ⟨child, member, conjunctsOf_of_node? found ▸ inside.2 node listed⟩

/-- All conjuncts have a negation. -/
def Calm (c : Circuit) : Prop := ∀ id, ¬ Lit.least ∈ c.conjunctsOf id

theorem Calm.of_nodes (calm : c.Calm) (nodes : d.nodes = c.nodes) : d.Calm := fun id inside =>
  calm id (by rwa [conjunctsOf, node?_of_nodes nodes, ← conjunctsOf] at inside)

theorem Calm.empty : Circuit.empty.Calm := fun id inside => by simp [conjunctsOf, node?, Circuit.empty] at inside

theorem Calm.append (calm : c.Calm) (other : gate.kind ≠ .mapping) (differ : gate ≠ .literal Lit.least)
    (done : c.summarize gate = .ok summary)
    : (c.append gate summary).Calm := by
  intro id inside
  by_cases old : id < c.nodes.size
  · rw [extends_append.conjunctsOf old] at inside
    exact calm id inside
  · obtain ⟨node, found⟩ : ∃ node, (c.append gate summary).node? id = some node := by
      cases found : (c.append gate summary).node? id with
      | none => simp [conjunctsOf, found] at inside
      | some node => exact ⟨node, rfl⟩
    have last : id < c.nodes.size + 1 := size_append ▸ lt_of_node? found
    obtain rfl := (Nat.lt_succ_iff_lt_or_eq.mp last).resolve_left old
    rw [conjunctsOf_of_node? node?_append_new] at inside
    rcases mem_conjuncts_of_summarize other done inside with same | ⟨child, _, below⟩
    · exact differ same
    · exact calm child below

end Circuit

-----------------------------------------------------------------------------------------
-- Nodes
-----------------------------------------------------------------------------------------

namespace Build

open KnowledgeCompiler.Action (Confined)

variable {c : Circuit} {gate : Gate}

/-- A new node meets a fault only as a disjunction of two or more nodes over a conjunct without a negation. -/
theorem insert_confined (other : gate.kind ≠ .mapping)
    : Confined (insert gate) c (fun _ d => c.Calm → gate ≠ .literal Lit.least → d.Calm) fun cause =>
        cause = .negationOverflow ∧ ¬ c.Calm
        ∧ ∃ decision children, gate = .or decision children ∧ 2 ≤ children.length := by
  refine .current ?_
  cases shared : c.shared? gate with
  | some id => exact .pure fun calm _ => calm
  | none =>
      refine .note (.checked (fun summary done => .update (.pure ?_)) fun cause failed => ?_)
      · exact fun calm differ => calm.append other differ done
      · obtain ⟨rfl, decision, children, rfl, length, child, _, least⟩ := Circuit.summarize_error other failed
        exact ⟨rfl, fun calm => calm child least, decision, children, rfl, length⟩

/-- No node but a disjunction meets a fault. -/
theorem insert_unfailing {allowed : Fault → Prop} (other : gate.kind ≠ .mapping) (disjunction : gate.kind ≠ .or)
    : Confined (insert gate) c (fun _ d => c.Calm → gate ≠ .literal Lit.least → d.Calm) allowed := by
  refine (insert_confined other).mono (fun _ _ calm => calm) ?_
  rintro cause ⟨_, _, decision, children, rfl, _⟩
  exact absurd rfl disjunction

theorem existing_confined (ids : List NodeId) {allowed : Fault → Prop}
    : Confined (existing ids) c (fun out d => d = c ∧ out.length ≤ ids.length) allowed := by
  refine .current ?_
  split
  · exact .fail
  · refine .pure ⟨rfl, ((SortedSet.nodup _).subperm fun id member => ?_).length_le⟩
    exact SortedSet.mem_ofList.mp (SortedSet.mem_toList.mp member)

theorem literal_confined {l : Lit} (nonzero : l ≠ 0) {allowed : Fault → Prop}
    : Confined (literal l) c (fun _ d => c.Calm → l ≠ Lit.least → d.Calm) allowed := by
  unfold literal
  rw [if_neg nonzero]
  refine (insert_unfailing (by simp [Gate.kind]) (by simp [Gate.kind])).mono
    (fun _ _ kept calm differ => ?_) fun _ holds => holds
  exact kept calm fun same => differ (Gate.literal.inj same)

theorem conjunction_confined (ids : List NodeId) {allowed : Fault → Prop}
    : Confined (conjunction ids) c (fun _ d => c.Calm → d.Calm) allowed := by
  refine (existing_confined ids).bind ?_
  rintro out _ ⟨rfl, _⟩
  cases out with
  | nil =>
      exact (insert_unfailing (by simp [Gate.kind]) (by simp [Gate.kind])).mono
        (fun _ _ kept calm => kept calm (by simp)) fun _ holds => holds
  | cons first rest =>
      exact (insert_unfailing (by simp [Gate.kind]) (by simp [Gate.kind])).mono
        (fun _ _ kept calm => kept calm (by simp)) fun _ holds => holds

theorem disjunction_confined (ids : List NodeId) (decision : Option Var)
    : Confined (disjunction ids decision) c (fun _ d => c.Calm → d.Calm) fun cause =>
        cause = .negationOverflow ∧ ¬ c.Calm ∧ 2 ≤ ids.length := by
  refine (existing_confined ids).bind ?_
  rintro out _ ⟨rfl, length⟩
  cases out with
  | nil =>
      exact (insert_unfailing (by simp [Gate.kind]) (by simp [Gate.kind])).mono
        (fun _ _ kept calm => kept calm (by simp)) fun _ holds => holds
  | cons first rest =>
      refine .current ?_
      split
      · exact .fail
      · refine (insert_confined (by simp [Gate.kind])).mono (fun _ _ kept calm => kept calm (by simp)) ?_
        rintro cause ⟨overflow, agitated, other, children, same, many⟩
        obtain ⟨_, rfl⟩ := Gate.or.inj same
        exact ⟨overflow, agitated, Nat.le_trans many length⟩

end Build

-----------------------------------------------------------------------------------------
-- Lines
-----------------------------------------------------------------------------------------

namespace Nnf

open KnowledgeCompiler.Build
open KnowledgeCompiler.Action (Confined discard_bind)

variable {c : Circuit} {line : Nat} {seen : Seen} {tokens : List (List Char)} {allowed : Fault → Prop}

/-- The words of a disjunction that names two or more nodes. -/
def Disjoins (words : List (List Char)) : Prop :=
  ∃ v count ids, words = ['O'] :: v :: count :: ids ∧ 2 ≤ ids.length

theorem number_confined {α : Type} {parse : List Char → Option α} {token : List Char}
    : Confined (number line parse token) c (fun value d => d = c ∧ parse token = some value) allowed := by
  unfold number
  cases parsed : parse token with
  | some value => exact .pure ⟨rfl, rfl⟩
  | none => exact .fail

theorem childNodes_confined
    : Confined (childNodes line tokens) c (fun ids d => d = c ∧ ids.length = tokens.length) allowed := by
  induction tokens with
  | nil => exact .pure ⟨rfl, rfl⟩
  | cons token rest ih =>
      refine Confined.bind number_confined ?_
      rintro position _ ⟨rfl, _⟩
      refine .current ?_
      split
      · exact .failed
      · refine ih.bind ?_
        rintro ids _ ⟨rfl, length⟩
        exact .pure ⟨rfl, congrArg Nat.succ length⟩

theorem children_confined
    : Confined (children line tokens) c
        (fun ids d => d = c ∧ ∃ count rest, tokens = count :: rest ∧ ids.length = rest.length) allowed := by
  cases tokens with
  | nil => exact .fail
  | cons declared rest =>
      refine Confined.bind number_confined ?_
      rintro expected _ ⟨rfl, _⟩
      dsimp only
      split
      · exact .failed
      · exact childNodes_confined.mono
          (fun ids d ⟨same, length⟩ => ⟨same, declared, rest, rfl, length⟩) fun _ holds => holds

theorem readHeader_confined {text : List Char}
    : Confined (readHeader line text tokens seen) c (fun _ d => c.Calm → d.Calm) allowed := by
  unfold readHeader
  dsimp only
  split
  · exact .failed
  · split
    · refine Confined.bind number_confined ?_
      rintro nodes _ ⟨rfl, _⟩
      refine Confined.bind number_confined ?_
      rintro edges _ ⟨rfl, _⟩
      refine Confined.bind number_confined ?_
      rintro vars _ ⟨rfl, _⟩
      exact .pure fun calm => calm
    · exact .fail

theorem readLiteral_confined
    : Confined (readLiteral line tokens seen) c (fun _ d => c.Calm → Moderate (['L'] :: tokens) → d.Calm) allowed := by
  unfold readLiteral
  split
  · refine Confined.bind number_confined ?_
    rintro l _ ⟨rfl, parsed⟩
    dsimp only
    split
    · exact .failed
    · rename_i nonzero
      rw [discard_bind]
      refine (literal_confined nonzero).bind fun _ d kept => .pure fun calm moderate => ?_
      exact kept calm fun least => moderate rfl (parsed.trans (congrArg some least))
  · exact .fail

theorem readConjunction_confined
    : Confined (readConjunction line tokens seen) c (fun _ d => c.Calm → d.Calm) allowed := by
  refine Confined.bind children_confined ?_
  rintro ids _ ⟨rfl, _⟩
  rw [discard_bind]
  exact (conjunction_confined ids).bind fun _ d kept => .pure kept

theorem readDisjunction_confined
    : Confined (readDisjunction line tokens seen) c (fun _ d => c.Calm → d.Calm) fun cause =>
        cause = .negationOverflow ∧ ¬ c.Calm ∧ Disjoins (['O'] :: tokens) := by
  unfold readDisjunction
  split
  · rename_i token first rest
    refine Confined.bind number_confined ?_
    rintro v _ ⟨rfl, _⟩
    refine Confined.bind children_confined ?_
    rintro ids _ ⟨rfl, count, others, same, length⟩
    rw [discard_bind]
    refine Confined.bind ((disjunction_confined ids _).mono (fun _ _ kept => kept) ?_) fun _ d kept => .pure kept
    rintro cause ⟨overflow, agitated, many⟩
    exact ⟨overflow, agitated, token, count, others, by rw [same], length ▸ many⟩
  · exact .fail

/-- A line meets a fault only as a disjunction that names two or more nodes, and only after conjuncts without a
negation, which come from the line of the least literal.
-/
theorem readLine_confined (text : List Char)
    : Confined (readLine line text seen) c (fun _ d => c.Calm → Moderate (Text.words text) → d.Calm) fun cause =>
        cause = .negationOverflow ∧ ¬ c.Calm ∧ Disjoins (Text.words text) := by
  unfold readLine
  split
  · exact .pure fun calm _ => calm
  · rename_i kind tokens words
    dsimp only
    split
    · exact .pure fun calm _ => calm
    · split
      · exact readHeader_confined.mono (fun _ _ kept calm _ => kept calm) fun _ holds => holds
      · split
        · exact .failed
        · rw [words]
          split
          · exact readLiteral_confined
          · exact readConjunction_confined.mono (fun _ _ kept calm _ => kept calm) fun _ holds => holds
          · exact readDisjunction_confined.mono (fun _ _ kept calm _ => kept calm) fun _ holds => holds
          · exact .fail

-----------------------------------------------------------------------------------------
-- Texts
-----------------------------------------------------------------------------------------

/-- The line of the least literal comes before a disjunction that names two or more nodes. -/
def Provokes (all : List (Option (List Char))) : Prop :=
  ∃ first second,
    [some first, some second].Sublist all
    ∧ ¬ Moderate (Text.words first)
    ∧ Disjoins (Text.words second)

/-- Induction on the lines; those read so far are known by the conjuncts that they have left. -/
theorem readLines_confined (all : List (Option (List Char)))
    : Confined (readLines line all seen) c (fun _ _ => True) fun cause =>
        cause = .negationOverflow
        ∧ (Provokes all ∨ ¬ c.Calm ∧ ∃ second, some second ∈ all ∧ Disjoins (Text.words second)) := by
  induction all generalizing c line seen with
  | nil => exact .pure trivial
  | cons text rest ih =>
      cases text with
      | none => exact .fail
      | some text =>
          refine Confined.bind ((readLine_confined text).mono (fun _ _ kept => kept) ?_) fun seen d kept =>
            ih.mono (fun _ _ holds => holds) ?_
          · rintro cause ⟨overflow, agitated, disjoins⟩
            exact ⟨overflow, .inr ⟨agitated, text, List.mem_cons_self, disjoins⟩⟩
          · rintro cause ⟨overflow, ⟨first, second, both, least, disjoins⟩ | ⟨agitated, second, member, disjoins⟩⟩
            · exact ⟨overflow, .inl ⟨first, second, both.cons _, least, disjoins⟩⟩
            · by_cases calm : c.Calm
              · have least : ¬ Moderate (Text.words text) := fun moderate => agitated (kept calm moderate)
                exact ⟨overflow, .inl ⟨text, second, (List.singleton_sublist.mpr member).cons_cons _, least, disjoins⟩⟩
              · exact ⟨overflow, .inr ⟨calm, second, List.mem_cons_of_mem _ member, disjoins⟩⟩

/-- After the last line there is no fault. -/
theorem conclude_confined : Confined (conclude seen) c (fun _ _ => True) allowed := by
  intro journal
  by_cases missing : seen.header = none ∨ c.nodes.size = 0
  · obtain ⟨cause, s, stopped⟩ := conclude_fails missing journal
    rw [stopped]
    trivial
  · rw [not_or] at missing
    obtain ⟨header, announced⟩ := Option.ne_none_iff_exists'.mp missing.1
    obtain ⟨journal', done, _⟩ := conclude_eq announced ⟨c, journal⟩ missing.2
    rw [done]
    trivial

theorem readAll_confined (all : List (Option (List Char)))
    : Confined (readAll all) .empty (fun _ _ => True) fun cause => cause = .negationOverflow ∧ Provokes all := by
  have calm : { Circuit.empty with sharing := false }.Calm := Circuit.Calm.empty.of_nodes rfl
  have whole : Confined (readLines 1 all {} >>= conclude) { Circuit.empty with sharing := false } (fun _ _ => True)
      fun cause => cause = .negationOverflow ∧ Provokes all := by
    refine Confined.bind ((readLines_confined all).mono (fun _ _ holds => holds) ?_) fun _ _ _ => conclude_confined
    rintro cause ⟨overflow, provokes | ⟨agitated, _⟩⟩
    · exact ⟨overflow, provokes⟩
    · exact absurd calm agitated
  exact whole

/-- Whatever the bytes are, reading them ends with a circuit or with an error, unless the line of the least literal
comes before a disjunction that names two or more nodes; then it may end with the fault that this literal has no
negation, and with no other one.
-/
theorem reading_ends (bytes : List UInt8) (journal : Journal)
    : (∃ s, readBytes bytes ⟨.empty, journal⟩ = .ok () s)
      ∨ (∃ cause s, readBytes bytes ⟨.empty, journal⟩ = .error (.error cause) s)
      ∨ Provokes ((splitLines 10 13 [] bytes).map Text.decode?)
        ∧ ∃ s, readBytes bytes ⟨.empty, journal⟩ = .error (.fault .negationOverflow) s := by
  have ended := readAll_confined ((splitLines 10 13 [] bytes).map Text.decode?) journal
  rw [← readBytes] at ended
  split at ended
  · rename_i s run
    exact .inl ⟨s, run⟩
  · rename_i cause s run
    exact .inr (.inl ⟨cause, s, run⟩)
  · rename_i cause s run
    obtain ⟨rfl, provokes⟩ := ended
    exact .inr (.inr ⟨provokes, s, run⟩)

/-- The least literal in a disjunction is not refused, it is a fault. -/
theorem least_literal_faults
    : ∃ s, readBytes (Text.encode "nnf 3 2 0\nL -2147483648\nL 1\nO 0 2 0 1\n".toList) ⟨.empty, {}⟩
        = .error (.fault .negationOverflow) s := by
  decide +kernel

end Nnf

end KnowledgeCompiler
