import KnowledgeCompiler.Circuit.Edit

/-! Smoothing: making the children of each disjunction have the same variables.

A child that misses variables is conjoined with a tautology over each of them.
-/

namespace KnowledgeCompiler

/-- Gives a conjunction or disjunction other children. -/
def Circuit.redirect (c : Circuit) (id : NodeId) (node : Node) (children : List NodeId) : Circuit :=
  let dropped := node.children.filter (!children.contains ·)
  ((c.linkParent id children).unlinkParent id dropped).replaceGate id
    (node.gate.withChildren children)

/-- The nodes whose conjunction a node is: the children of a conjunction, or else the node itself. -/
def Gate.conjoined (gate : Gate) (id : NodeId) : List NodeId :=
  match gate with
  | .and children => children
  | _ => [id]

namespace Build

/-- The tautologies made so far, by variable. -/
abbrev Gadgets := List (Var × NodeId)

/-- The tautology over a variable, as a disjunction of its two literals. -/
def gadget (v : Var) (known : Gadgets) : Build (NodeId × Gadgets) := do
  match known.lookup v with
  | some id => return (id, known)
  | none =>
      let positive ← literal (Lit.word v)
      let negative ← literal (← Lit.negate (Lit.word v))
      let id ← insert (.or none (SortedSet.ofList [positive, negative]).toList)
      return (id, (v, id) :: known)

/-- The tautologies over several variables, in order. -/
def gadgets : List Var → Gadgets → Build (List NodeId × Gadgets)
  | [], known => return ([], known)
  | v :: rest, known => do
      let (id, known) ← gadget v known
      let (ids, known) ← gadgets rest known
      return (id :: ids, known)

/-- The child of a smooth disjunction over `vars` in place of `child`: itself if it has all
variables, and otherwise its conjunction with tautologies. A conjunction is extended rather than
nested.
-/
def smoothChild (vars : SortedSet Var) (child : NodeId) (known : Gadgets)
    : Build (NodeId × Gadgets) := do
  match (← Action.current).node? child with
  | none => return (child, known)
  | some node =>
      let missing := vars.diff node.vars
      if missing.isEmpty then
        return (child, known)
      let (ids, known) ← gadgets missing.toList known
      let id ← insert (.and (SortedSet.ofList (node.gate.conjoined child ++ ids)).toList)
      return (id, known)

/-- The children of a smooth disjunction in place of `children`. -/
def smoothChildren (vars : SortedSet Var) : List NodeId → Gadgets → Build (List NodeId × Gadgets)
  | [], known => return ([], known)
  | child :: rest, known => do
      let (id, known) ← smoothChild vars child known
      let (ids, known) ← smoothChildren vars rest known
      return (id :: ids, known)

/-- Gives a disjunction smooth children. -/
def smoothNode (id : NodeId) (known : Gadgets) : Build Gadgets := do
  match (← Action.current).node? id with
  | none => return known
  | some node =>
      let (ids, known) ← smoothChildren node.vars node.children known
      Action.update fun c => c.redirect id node (SortedSet.ofList ids).toList
      return known

/-- Makes every disjunction of the circuit smooth. -/
def smooth : Build Unit := do
  let c ← Action.current
  let targets := (List.range c.nodes.size).filter fun id =>
    (c.node? id).elim false fun node => node.kind == .or && !node.summary.own.smooth
  if targets.isEmpty then
    return ()
  Action.note (.smoothing targets.length)
  discard (targets.foldlM (fun known id => smoothNode id known) [])
  refreshCircuit

end Build

end KnowledgeCompiler
