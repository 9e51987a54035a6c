import KnowledgeCompiler.Proofs.Circuit.Growth

/-! Copies and expansions only add nodes, also where a renaming does not fit or a bound is reached. -/

namespace KnowledgeCompiler.Build

open KnowledgeCompiler.Action

variable {c : Circuit}

theorem isFalse_grows (id : NodeId) : Grows c (isFalse id) fun _ _ => True := .current (.pure trivial)

-----------------------------------------------------------------------------------------
-- Expansions
-----------------------------------------------------------------------------------------

/-- A recursive call of an expansion only adds nodes. -/
def Expands (expand : ExpandCall) : Prop :=
  ∀ {c} clauses vars known, Grows c (expand clauses vars known) fun _ _ => True

variable {expand : ExpandCall}

/-- The components in turn; induction on them. -/
theorem expandComponents_grows (expands : Expands expand)
    (components : List (Clauses × SortedSet Var)) (known : Expansions)
    : Grows c (expandComponents expand components known) fun _ _ => True := by
  induction components generalizing c known with
  | nil => exact .pure trivial
  | cons component rest ih =>
      refine (expands component.1 component.2 known).bind fun ⟨part, known⟩ d _ _ => ?_
      refine (isFalse_grows part).bind fun falsum e _ _ => ?_
      split
      · exact .pure trivial
      · exact (ih known).bind fun _ _ _ _ => .pure trivial

theorem expandUnder_grows (expands : Expands expand) (clauses : Clauses) (rest : SortedSet Var) (v : Var)
    (polarity : Bool) (known : Expansions)
    : Grows c (expandUnder expand clauses rest v polarity known) fun _ _ => True := by
  refine .checked fun l _ => ?_
  refine .checked fun conditioned _ => ?_
  cases conditioned with
  | some clauses => exact expands clauses rest known
  | none => exact (constant_grows false).bind fun _ _ _ _ => .pure trivial

theorem expandDecision_grows (expands : Expands expand) (clauses : Clauses) (rest : SortedSet Var)
    (v : Var) (known : Expansions)
    : Grows c (expandDecision expand clauses rest v known) fun _ _ => True := by
  refine (expandUnder_grows expands clauses rest v true known).bind fun ⟨high, known⟩ c₁ _ _ => ?_
  refine (expandUnder_grows expands clauses rest v false known).bind fun ⟨low, known⟩ c₂ _ _ => ?_
  refine (isFalse_grows high).bind fun noHigh c₃ _ _ => ?_
  refine (isFalse_grows low).bind fun noLow c₄ _ _ => ?_
  -- A single branch is conjoined with its literal.
  have branch (l : Checked Lit) (only : NodeId)
      : Grows c₄ (do
          let literal ← literal (← l)
          return (.ok (← conjunction [literal, only]), known) : Build (Except NodeId NodeId × Expansions))
          fun _ _ => True :=
    .checked fun l _ => (literal_grows l).bind fun _ _ _ _ =>
      (conjunction_grows _).bind fun _ _ _ _ => .pure trivial
  cases noHigh with
  | true =>
      cases noLow with
      | true => exact .pure trivial
      | false => exact branch (Lit.ofVar v false) low
  | false =>
      cases noLow with
      | true => exact branch (Lit.ofVar v true) high
      | false => exact (decision_grows v high low).bind fun _ _ _ _ => .pure trivial

/-- The parts together with free variables, or the first part that is false, become the result. -/
theorem joinParts_grows (free : List NodeId) (parts : Except NodeId (List NodeId))
    (key : Clauses × SortedSet Var) (known : Expansions)
    : Grows c (match parts.map (free ++ ·) with
        | .error falsum => pure (falsum, known)
        | .ok parts => do
            let id ← match parts with
              | [part] => pure part
              | _ => conjunction parts
            return (id, (key, id) :: known))
        fun _ _ => True := by
  split
  · exact .pure trivial
  · split
    · exact .pure trivial
    · exact (conjunction_grows _).bind fun _ _ _ _ => .pure trivial

/-- The decision circuit of clauses; induction on the fuel. -/
theorem expandWithin_grows (fuel : Nat) : Expands (expandWithin fuel) := by
  induction fuel with
  | zero => exact fun _ _ _ => .fault
  | succ fuel ih =>
      intro c clauses vars known
      unfold expandWithin
      split
      · exact (constant_grows false).bind fun _ _ _ _ => .pure trivial
      · dsimp only
        split
        · exact .pure trivial
        · refine (gadgets_grows _ (by simp [AllBalanced])).bind ?_
          rintro ⟨free, later⟩ d - -
          dsimp only
          split
          · refine (expandComponents_grows ih _ known).bind ?_
            rintro ⟨parts, known⟩ e - -
            exact joinParts_grows free parts _ known
          · split
            · exact joinParts_grows free (.ok []) _ known
            · refine (expandDecision_grows ih _ _ _ known).bind ?_
              rintro ⟨part, known⟩ e - -
              exact joinParts_grows free (part.map ([·])) _ known

theorem expandClauses_grows (clauses : Clauses) : Grows c (expandClauses clauses) fun _ _ => True :=
  (expandWithin_grows _ clauses clauses.vars []).bind fun _ _ _ _ => .pure trivial

-----------------------------------------------------------------------------------------
-- Copies
-----------------------------------------------------------------------------------------

/-- A recursive call of a copy only adds nodes. -/
def Copies.Only (copy : CopyCall) : Prop := ∀ {c} names id known, Grows c (copy names id known) fun _ _ => True

variable {copy : CopyCall} {names : Renaming}

/-- The nodes in turn; induction on them. -/
theorem copyAll_grows (copies : Copies.Only copy) (ids : List NodeId) (known : Copies)
    : Grows c (copyAll copy names ids known) fun _ _ => True := by
  induction ids generalizing c known with
  | nil => exact .pure trivial
  | cons id rest ih =>
      refine (copies names id known).bind fun ⟨copied, known⟩ d _ _ => ?_
      exact (ih known).bind fun _ _ _ _ => .pure trivial

theorem image_grows (id : NodeId) (v : Var) : Grows c (image names id v) fun _ _ => True := by
  unfold image
  split
  · exact .pure trivial
  · exact .fail

/-- The copy of a node by its gate. -/
theorem copyGate_grows (copies : Copies.Only copy) (expanding : Bool) (id : NodeId) (known : Copies)
    (gate : Gate)
    : Grows c (copyGate copy expanding names id known gate) fun _ _ => True := by
  cases gate with
  | constant value => exact (constant_grows value).bind fun _ _ _ _ => .pure trivial
  | literal l =>
      refine (image_grows id l.var).bind fun v d _ _ => ?_
      refine .checked fun k _ => ?_
      exact (literal_grows k).bind fun _ _ _ _ => .pure trivial
  | and children =>
      refine (copyAll_grows copies children known).bind fun ⟨copied, known⟩ d _ _ => ?_
      exact (conjunction_grows copied).bind fun _ _ _ _ => .pure trivial
  | or decision children =>
      have renamed : Grows c (decision.mapM (image names id)) fun _ _ => True := by
        cases decision with
        | none => exact .pure trivial
        | some v => exact (image_grows id v).bind fun _ _ _ _ => .pure trivial
      refine renamed.bind fun renamed d _ _ => ?_
      refine (copyAll_grows copies children known).bind fun ⟨copied, known⟩ e _ _ => ?_
      exact (disjunction_grows copied renamed).bind fun _ _ _ _ => .pure trivial
  | mapping inner child =>
      exact (copies _ child []).bind fun _ _ _ _ => .pure trivial
  | twoCnf formula =>
      refine .checked fun renamed _ => ?_
      cases renamed with
      | none => exact .fail
      | some renamed =>
          cases expanding with
          | true => exact (expandClauses_grows _).bind fun _ _ _ _ => .pure trivial
          | false => exact (twoCnf_grows renamed).bind fun _ _ _ _ => .pure trivial
  | horn formula =>
      refine .checked fun renamed _ => ?_
      cases renamed with
      | none => exact .fail
      | some renamed =>
          cases expanding with
          | true => exact (expandClauses_grows _).bind fun _ _ _ _ => .pure trivial
          | false => exact (horn_grows renamed).bind fun _ _ _ _ => .pure trivial

/-- A copy of a sub-circuit; induction on the fuel. -/
theorem copyWithin_grows (expanding : Bool) (fuel : Nat) : Copies.Only (copyWithin expanding fuel) := by
  induction fuel with
  | zero => exact fun _ _ _ => .fault
  | succ fuel ih =>
      intro c names id known
      unfold copyWithin
      split
      · exact .pure trivial
      · refine (node_grows id).bind fun node d _ _ => ?_
        exact (copyGate_grows ih expanding id known node.gate).bind fun _ _ _ _ => .pure trivial

theorem copyWith_grows (expanding : Bool) (id : NodeId)
    : Grows c (copyWith expanding id names) fun _ _ => True :=
  .current ((copyWithin_grows expanding _ names id []).bind fun _ _ _ _ => .pure trivial)

theorem dominated_grows (id : NodeId) : Grows c (dominated id) fun _ _ => True := by
  rw [dominated, discard_bind]
  exact (node_grows id).bind fun _ _ _ _ => .current (.pure trivial)

theorem replaceRoot_grows (unwanted : NodeKind → Bool) (expanding : Bool)
    : Grows c (replaceRoot unwanted expanding) fun _ _ => True := by
  refine .current ?_
  cases c.root with
  | none => exact .pure trivial
  | some root =>
      refine (dominated_grows root).bind fun ids d _ _ => .current ?_
      split
      · refine (node_grows root).bind fun node e _ _ => ?_
        exact (copyWith_grows expanding root).bind fun copied _ _ _ => setRoot_grows copied
      · exact .pure trivial

theorem expandMappings_grows : Grows c expandMappings fun _ _ => True := replaceRoot_grows _ false

theorem expandLeaves_grows : Grows c expandLeaves fun _ _ => True := replaceRoot_grows _ true

end KnowledgeCompiler.Build
