import KnowledgeCompiler.Circuit.Order

/-! Adding edges to a circuit and keeping the derived data right. -/

namespace KnowledgeCompiler.Build

/-- Derives the data of a node anew and forgets the answers of earlier queries there. -/
def refresh (id : NodeId) : Build Unit := do
  let c ← Action.current
  match c.node? id with
  | none => return ()
  | some node =>
      let summary ← c.summarize node.gate
      Action.update fun c => c.modifyNode id fun node => { node with summary, memo := {} }

/-- Refreshes nodes in turn. -/
def refreshAll (ids : List NodeId) : Build Unit := ids.forM refresh

/-- Refreshes a node and everything above it. -/
def refreshUpwards (id : NodeId) : Build Unit := do
  let c ← Action.current
  refreshAll (c.bottomUp (c.ancestors id))

/-- Refreshes the whole circuit. -/
def refreshCircuit : Build Unit := do
  let c ← Action.current
  refreshAll (c.bottomUp (SortedSet.ofList (List.range c.nodes.size)))
  Action.update Circuit.refreshRoot

/-- Adds an edge from a conjunction or disjunction to a node. An edge that exists already changes
nothing; one that would close a cycle is refused.
-/
def addEdge (source target : NodeId) : Build Unit := do
  let parent ← node source
  discard (node target)
  if parent.kind != .and && parent.kind != .or then
    Action.fail (.notInnerNode source)
  if parent.children.contains target then
    return ()
  let below := (← Action.current).dominated target
  if below.contains source then
    Action.fail (.cycle source target)
  let gate := parent.gate.withChildren (parent.children ++ [target])
  Action.update fun c => (c.replaceGate source gate).linkParent source [target]
  refreshUpwards source
  Action.update Circuit.refreshRoot

end KnowledgeCompiler.Build
