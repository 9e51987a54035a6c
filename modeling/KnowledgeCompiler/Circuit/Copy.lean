import KnowledgeCompiler.Circuit.Smoothing

/-! Renamed copies of sub-circuits, and decision circuits in place of formula leaves. -/

namespace KnowledgeCompiler.Build

-----------------------------------------------------------------------------------------
-- Formula leaves as decisions
-----------------------------------------------------------------------------------------

/-- Decision circuits made so far, by sorted clauses and variables. -/
abbrev Expansions := List ((Clauses × SortedSet Var) × NodeId)

/-- A recursive call of an expansion. -/
abbrev ExpandCall := Clauses → SortedSet Var → Expansions → Build (NodeId × Expansions)

/-- Expands independent components in turn. The first one that is false stands for all, and then
there is no list of parts.
-/
def expandComponents (expand : ExpandCall)
    : List (Clauses × SortedSet Var) → Expansions → Build (Except NodeId (List NodeId) × Expansions)
  | [], known => return (.ok [], known)
  | (component, vars) :: rest, known => do
      let (part, known) ← expand component vars known
      if ← isFalse part then
        return (.error part, known)
      let (others, known) ← expandComponents expand rest known
      return (others.map (part :: ·), known)

/-- Expands the clauses under a literal. -/
def expandUnder (expand : ExpandCall) (clauses : Clauses) (rest : SortedSet Var) (v : Var)
    (polarity : Bool) (known : Expansions) : Build (NodeId × Expansions) := do
  match ← clauses.condition [← Lit.ofVar v polarity] with
  | some conditioned => expand conditioned rest known
  | none => return (← constant false, known)

/-- Expands connected clauses by a decision on `v`. A branch that is false leaves only the other
one; if both are false, so is the whole.
-/
def expandDecision (expand : ExpandCall) (clauses : Clauses) (rest : SortedSet Var) (v : Var)
    (known : Expansions) : Build (Except NodeId NodeId × Expansions) := do
  let (high, known) ← expandUnder expand clauses rest v true known
  let (low, known) ← expandUnder expand clauses rest v false known
  match ← isFalse high, ← isFalse low with
  | true, true => return (.error high, known)
  | false, true => do
      let positive ← literal (← Lit.ofVar v true)
      return (.ok (← conjunction [positive, high]), known)
  | true, false => do
      let negative ← literal (← Lit.ofVar v false)
      return (.ok (← conjunction [negative, low]), known)
  | false, false => return (.ok (← decision v high low), known)

/-- The decision circuit of clauses over `vars`. Variables without an occurrence get a
tautology, independent components are conjoined, and connected clauses are decided on the variable
with the most occurrences. Every recursive call has fewer variables with an occurrence.
-/
def expandWithin : Nat → ExpandCall
  | 0, _, _, _ => throw (.fault .exhausted)
  | fuel + 1, clauses, vars, known => do
      if clauses.any List.isEmpty then
        return (← constant false, known)
      let clauses : Clauses := sortBy inOrder clauses
      if let some id := known.lookup (clauses, vars) then
        return (id, known)
      let occurring := clauses.vars
      let (free, _) ← gadgets (vars.diff occurring).toList []
      let components := clauses.components
      let (parts, known) ←
        if 1 < components.length then expandComponents (expandWithin fuel) components known
        else
          match clauses.mostOccurring with
          | none => pure (.ok [], known)
          | some v => do
              let (part, known) ←
                expandDecision (expandWithin fuel) clauses (occurring.erase v) v known
              pure (part.map ([·]), known)
      match parts.map (free ++ ·) with
      | .error falsum => return (falsum, known)
      | .ok parts =>
          let id ← match parts with
            | [part] => pure part
            | _ => conjunction parts
          return (id, ((clauses, vars), id) :: known)

/-- The decision circuit of the clauses of a formula leaf. -/
def expandClauses (clauses : Clauses) : Build NodeId := do
  let vars := clauses.vars
  return (← expandWithin (vars.size + 1) clauses vars []).1

-----------------------------------------------------------------------------------------
-- Copies
-----------------------------------------------------------------------------------------

/-- Copies made so far. -/
abbrev Copies := List (NodeId × NodeId)

/-- A recursive call of a copy. -/
abbrev CopyCall := Renaming → NodeId → Copies → Build (NodeId × Copies)

/-- Copies nodes in turn. -/
def copyAll (copy : CopyCall) (names : Renaming)
    : List NodeId → Copies → Build (List NodeId × Copies)
  | [], known => return ([], known)
  | id :: rest, known => do
      let (copied, known) ← copy names id known
      let (others, known) ← copyAll copy names rest known
      return (copied :: others, known)

/-- The image of a variable of a node. -/
def image (names : Renaming) (id : NodeId) (v : Var) : Build Var :=
  match names.find? v with
  | some renamed => return renamed
  | none => Action.fail (.incompleteMapping id v)

/-- Stops because a formula leaf cannot be renamed: at the first of its variables without an image,
or at zero if only a flipped variable lacks one.
-/
def incomplete {α : Type} (names : Renaming) (id : NodeId) (vars : SortedSet Var) : Build α :=
  let absent := vars.toList.find? fun v => (names.find? v).isNone
  Action.fail (.incompleteMapping id (absent.getD 0))

/-- The copy of a node with this gate, given how to copy the nodes below it. -/
def copyGate (copy : CopyCall) (expanding : Bool) (names : Renaming) (id : NodeId) (known : Copies)
    : Gate → Build (NodeId × Copies)
  | .constant value => return (← constant value, known)
  | .literal l => do
      let v ← image names id l.var
      return (← literal (← Lit.ofVar v l.isPositive), known)
  | .and children => do
      let (copied, known) ← copyAll copy names children known
      return (← conjunction copied, known)
  | .or decision children => do
      let renamed ← decision.mapM (image names id)
      let (copied, known) ← copyAll copy names children known
      return (← disjunction copied renamed, known)
  | .mapping inner child => do
      let (copied, _) ← copy (inner.toGlobal.andThen names) child []
      return (copied, known)
  | .twoCnf formula => do
      match ← formula.rename? names with
      | none => incomplete names id formula.vars
      | some renamed =>
          let copied ← if expanding then expandClauses renamed.clauses else twoCnf renamed
          return (copied, known)
  | .horn formula => do
      match ← formula.rename? names with
      | none => incomplete names id formula.vars
      | some renamed =>
          let copied ← if expanding then expandClauses renamed.unflipped else horn renamed
          return (copied, known)

/-- The copy of a sub-circuit with renamed variables and without mapping nodes. Copies are only
reused under the same renaming. The fuel bounds the depth, and no path in a circuit is longer than
its number of nodes.
-/
def copyWithin (expanding : Bool) : Nat → CopyCall
  | 0, _, _, _ => throw (.fault .exhausted)
  | fuel + 1, names, id, known => do
      match known.lookup id with
      | some copied => return (copied, known)
      | none =>
          let gate := (← node id).gate
          let (copied, known) ← copyGate (copyWithin expanding fuel) expanding names id known gate
          return (copied, (id, copied) :: known)

/-- Copies a sub-circuit, and makes decisions of its formula leaves when `expanding`. -/
def copyWith (expanding : Bool) (id : NodeId) (names : Renaming) : Build NodeId := do
  let c ← Action.current
  return (← copyWithin expanding (c.nodes.size + 1) names id []).1

/-- A copy of a sub-circuit with renamed variables and without mapping nodes. -/
def copy (id : NodeId) (names : Renaming) : Build NodeId := copyWith false id names

/-- Replaces the sub-circuit of the root by a copy without nodes of some kinds, if it has such
nodes.
-/
def replaceRoot (unwanted : NodeKind → Bool) (expanding : Bool) : Build Unit := do
  match (← Action.current).root with
  | none => return ()
  | some root =>
      let ids ← dominated root
      let c ← Action.current
      if (c.nodesOf ids.toList).any fun node => unwanted node.kind then
        let vars := (← node root).vars
        setRoot (← copyWith expanding root (Renaming.identityOn vars))

/-- Replaces the mapping nodes below the root by copies. -/
def expandMappings : Build Unit := replaceRoot (· == .mapping) false

/-- Replaces the formula leaves below the root by decisions. Mapping nodes go as well. -/
def expandLeaves : Build Unit := replaceRoot (fun kind => kind == .twoCnf || kind == .horn) true

end KnowledgeCompiler.Build
