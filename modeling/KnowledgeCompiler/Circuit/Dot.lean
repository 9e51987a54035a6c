import KnowledgeCompiler.Circuit.Order

/-! The DOT text format for drawings of circuits. -/

namespace KnowledgeCompiler.Dot

/-- How a drawing looks. -/
structure Style where
  /-- The shape of conjunctions and disjunctions. -/
  nodeShape : String := "ellipse"
  /-- The shape of literals. -/
  literalShape : String := "circle"
  /-- The shape of constants and formula leaves. -/
  terminalShape : String := "square"
  /-- The shape of the marks of the roots. -/
  rootShape : String := "rect"
  /-- The style of the edge below a mapping node. -/
  mappingEdge : String := "dashed"
  /-- Whether labels of literals have subscripts. -/
  subscripts : Bool := true

/-- A text in quotation marks. -/
def quoted (text : String) : String := "\"" ++ text ++ "\""

/-- The label of a literal. -/
def literalLabel (style : Style) (l : Lit) : String :=
  let sign := if l < 0 then "¬" else ""
  let v := l.var
  if style.subscripts then s!"<{sign}x<SUB>{v}</SUB>>" else quoted s!"{sign}x{v}"

/-- The attributes of a node with a shape of its own. -/
def shaped (shape label : String) : String := s!"shape={shape}, label={label}"

/-- The attributes of a node. -/
def attributes (style : Style) : Gate → String
  | .constant value => shaped style.terminalShape (quoted (if value then "⊤" else "⊥"))
  | .literal l => shaped style.literalShape (literalLabel style l)
  | .and _ => "label=" ++ quoted "∧"
  | .or none _ => "label=" ++ quoted "∨"
  | .or (some v) _ => "label=" ++ quoted s!"∨ ({v})"
  | .mapping names _ =>
      let pairs := names.toGlobal.entries.map fun entry => s!"{entry.1}→{entry.2}"
      shaped "diamond" (quoted (", ".intercalate pairs))
  | .twoCnf formula =>
      let clauses := formula.clauses.length
      shaped style.terminalShape (quoted s!"2-CNF ({clauses})")
  | .horn formula =>
      let clauses := formula.clauses.length
      shaped style.terminalShape (quoted s!"Horn ({clauses})")

/-- The line that declares a node. -/
def nodeLine (style : Style) (id : NodeId) (node : Node) : String :=
  let shown := attributes style node.gate
  s!"{id} [{shown}];"

/-- The lines of the edges below a node. -/
def edgeLines (style : Style) (id : NodeId) (node : Node) : List String :=
  let drawn := if node.kind == .mapping then style.mappingEdge else "solid"
  node.children.map fun child => s!"{id} -> {child} [style={drawn}];"

/-- The line that declares the mark of a root. -/
def markLine (style : Style) (position : Nat) (root : NodeId) : String :=
  let shown := shaped style.rootShape (quoted root.label)
  s!"r{position} [{shown}];"

/-- The drawing of sub-circuits, in which shared nodes appear once. -/
def render (c : Circuit) (style : Style) (roots : List NodeId) (ids : List NodeId) : String :=
  let nodes := ids.filterMap fun id => (c.node? id).map fun node => (id, node)
  let shape := style.nodeShape
  let all := ["digraph \x7b", s!"node [shape={shape}];"]
    ++ nodes.map (fun entry => nodeLine style entry.1 entry.2)
    ++ nodes.flatMap (fun entry => edgeLines style entry.1 entry.2)
    ++ ["\x7b rank=source"]
    ++ roots.zipIdx.map (fun entry => markLine style entry.2 entry.1)
    ++ ["\x7d"]
    ++ roots.zipIdx.map (fun entry => s!"r{entry.2} -> {entry.1};")
    ++ ["\x7d"]
  String.join (all.map (· ++ "\n"))

/-- The drawing of the sub-circuits of `roots`. -/
def draw (style : Style) (roots : List NodeId) : Build String := do
  let sets ← roots.mapM Build.dominated
  return render (← Action.current) style roots (SortedSet.unionAll sets).toList

end KnowledgeCompiler.Dot
