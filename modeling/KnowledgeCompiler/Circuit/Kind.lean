/-! Node identifiers, kinds of nodes, and the structural properties that classify circuits. -/

namespace KnowledgeCompiler

/-- The position of a node in its circuit, which has fewer than 2^32 nodes. -/
abbrev NodeId := Nat

namespace NodeId

/-- The identifier at an index. Identifiers are 32-bit words, so larger indices wrap around. -/
def ofIndex (index : Nat) : NodeId := index % 4294967296

/-- How an identifier is written in messages. -/
def label (id : NodeId) : String := "n" ++ toString id

end NodeId

/-- The kind of a node, without what the node holds. -/
inductive NodeKind where
  | constant
  | literal
  | and
  | or
  | mapping
  | twoCnf
  | horn
  deriving Repr, DecidableEq

namespace NodeKind

/-- Whether nodes of the kind have children. -/
def isInner : NodeKind → Bool
  | .and | .or | .mapping => true
  | .constant | .literal | .twoCnf | .horn => false

/-- The name of the kind in messages. -/
def label : NodeKind → String
  | .constant => "constant"
  | .literal => "literal"
  | .and => "and"
  | .or => "or"
  | .mapping => "mapping"
  | .twoCnf => "2-cnf"
  | .horn => "horn"

end NodeKind

/-- The three structural properties, of one node or of all nodes below it. -/
structure Properties where
  /-- The children of a conjunction share no variable. -/
  decomposable : Bool
  /-- Any two children of a disjunction contradict each other by a literal. -/
  deterministic : Bool
  /-- The children of a disjunction have the same variables. -/
  smooth : Bool
  deriving Repr, DecidableEq

namespace Properties

/-- All three properties. -/
def all : Properties := { decomposable := true, deterministic := true, smooth := true }

/-- The properties that both sides have. -/
def meet (p q : Properties) : Properties :=
  { decomposable := p.decomposable && q.decomposable
    deterministic := p.deterministic && q.deterministic
    smooth := p.smooth && q.smooth }

end Properties

/-- The language that a circuit belongs to. -/
inductive Language where
  | nnf
  | smoothNnf
  | bdmc
  | smoothBdmc
  | deterministicBdmc
  | smoothDeterministicBdmc
  deriving Repr, DecidableEq

namespace Language

/-- The language of the circuits with these properties. Without decomposability, determinism has
no name of its own.
-/
def classify (p : Properties) : Language :=
  match p.decomposable, p.deterministic, p.smooth with
  | false, _, false => .nnf
  | false, _, true => .smoothNnf
  | true, false, false => .bdmc
  | true, false, true => .smoothBdmc
  | true, true, false => .deterministicBdmc
  | true, true, true => .smoothDeterministicBdmc

/-- The name of the language. -/
def label : Language → String
  | .nnf => "NNF"
  | .smoothNnf => "S-NNF"
  | .bdmc => "BDMC"
  | .smoothBdmc => "S-BDMC"
  | .deterministicBdmc => "D-BDMC"
  | .smoothDeterministicBdmc => "SD-BDMC"

end Language

end KnowledgeCompiler
