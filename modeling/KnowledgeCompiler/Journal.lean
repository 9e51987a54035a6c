import KnowledgeCompiler.Literal
import KnowledgeCompiler.Circuit.Kind

/-! The journal: what happened during a computation, as data, and how it is worded. -/

namespace KnowledgeCompiler

/-- How important an event is, from the most important down. -/
inductive Level where
  | warn
  | info
  | debug
  deriving Repr, DecidableEq

namespace Level

/-- The position of the level, zero for the most important one. -/
def rank : Level → Nat
  | .warn => 0
  | .info => 1
  | .debug => 2

/-- The name of the level in front of a message. -/
def label : Level → String
  | .warn => "WARN"
  | .info => "INFO"
  | .debug => "DEBUG"

end Level

/-- Something worth recording. -/
inductive Event where
  /-- A node was added to a circuit. -/
  | nodeCreated (id : NodeId) (kind : NodeKind) (children : Nat)
  /-- Smoothing begins, with this many disjunctions to repair. -/
  | smoothing (disjunctions : Nat)
  /-- A header announces another number of nodes. -/
  | nodeCount (announced found : Nat)
  /-- A header announces another number of edges. -/
  | edgeCount (announced found : Nat)
  /-- A header announces fewer variables than the largest one. -/
  | variableCount (announced largest : Nat)
  /-- The literals common to all models were found. -/
  | backbone (assumed found : Nat)
  /-- A cut set was replayed from a similar formula. -/
  | cutSetReplayed (size : Nat)
  /-- A cut set was computed by bisection. -/
  | cutSetComputed (size clauses cut : Nat)
  /-- The compilation of a component begins. -/
  | componentEntered (depth clauses assigned : Nat)
  /-- A formula fell into independent components. -/
  | componentsFound (depth components : Nat)
  /-- A variable was chosen to branch on. -/
  | branching (depth : Nat) (v : Var) (cutSize : Nat)
  /-- A formula was compiled into a circuit. -/
  | compiled (vars occurring clauses nodes size : Nat) (language : Option Language)
  /-- How the search of a compilation went. -/
  | searched (recursions decisions splits unsatisfiable : Nat)
  /-- How the caches of a compilation were used. -/
  | cached (entries hits misses cutHits : Nat)
  deriving Repr, DecidableEq

namespace Event

/-- The level of an event. -/
def level : Event → Level
  | .nodeCount .. | .edgeCount .. | .variableCount .. => .warn
  | .compiled .. | .searched .. | .cached .. => .info
  | _ => .debug

/-- The wording of an event. -/
def message : Event → String
  | .nodeCreated id kind children =>
      let node := id.label
      let name := kind.label
      s!"new node {node} ({name}) with {children} children"
  | .smoothing disjunctions => s!"smoothing {disjunctions} OR nodes"
  | .nodeCount announced found => s!"header declares {announced} nodes, found {found}"
  | .edgeCount announced found => s!"header declares {announced} edges, found {found}"
  | .variableCount announced largest =>
      s!"header declares {announced} variables, found variable {largest}"
  | .backbone assumed found => s!"backbone under {assumed} assumptions: {found} literals"
  | .cutSetReplayed size => s!"cut set of {size} variables from signature cache"
  | .cutSetComputed size clauses cut =>
      s!"cut set of {size} variables over {clauses} clauses (hypergraph cut {cut})"
  | .componentEntered depth clauses assigned =>
      s!"depth {depth}: {clauses} clauses, {assigned} assigned"
  | .componentsFound depth components => s!"depth {depth}: {components} components"
  | .branching depth v cutSize =>
      s!"depth {depth}: branching on {v} (cut set of {cutSize})"
  | .compiled vars occurring clauses nodes size language =>
      let name := language.elim "untyped" Language.label
      s!"compiled {vars} variables ({occurring} occurring), {clauses} clauses"
        ++ s!" into {nodes} nodes (size {size}, {name})"
  | .searched recursions decisions splits unsatisfiable =>
      s!"{recursions} recursions, {decisions} decisions, {splits} splits,"
        ++ s!" {unsatisfiable} unsatisfiable sub-formulas"
  | .cached entries hits misses cutHits =>
      s!"component cache: {entries} entries, {hits} hits, {misses} misses;"
        ++ s!" cut set cache: {cutHits} hits"

/-- The event as a line of a log. -/
def line (event : Event) : String :=
  event.level.label ++ " " ++ event.message

end Event

/-- The events of a computation, in order. -/
abbrev Journal := Array Event

/-- The lines of the events at a level or a more important one. -/
def Journal.lines (journal : Journal) (level : Level) : List String :=
  (journal.toList.filter fun event => event.level.rank ≤ level.rank).map Event.line

end KnowledgeCompiler
