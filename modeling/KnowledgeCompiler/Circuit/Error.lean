import KnowledgeCompiler.Literal
import KnowledgeCompiler.Circuit.Kind

/-! What can go wrong with a circuit, and how it is worded. -/

namespace KnowledgeCompiler

/-- Why a line, or a whole text, is no circuit in the NNF format. -/
inductive NnfCause where
  | duplicateHeader
  | invalidHeader (line : List Char)
  | invalidNumber (token : List Char)
  | nodeBeforeHeader
  | literalShape
  | zeroLiteral
  | disjunctionShape
  | missingChildCount
  | childCount (declared found : Nat)
  | undefinedChild (position : Nat)
  | unknownKind (token : List Char)
  | missingHeader
  | noNodes
  | noRoot
  deriving Repr, DecidableEq

/-- The wording of a cause. -/
def NnfCause.message : NnfCause → String
  | .duplicateHeader => "duplicate header"
  | .invalidHeader line => "invalid header: " ++ String.ofList line
  | .invalidNumber token => "invalid number " ++ String.ofList token
  | .nodeBeforeHeader => "node before header"
  | .literalShape => "expected `L <literal>`"
  | .zeroLiteral => "invalid literal 0"
  | .disjunctionShape => "expected `O <j> <k> <child>*`"
  | .missingChildCount => "missing child count"
  | .childCount declared found => s!"declared {declared} children, found {found}"
  | .undefinedChild position => s!"child {position} is not defined yet"
  | .unknownKind token => "unknown node type " ++ String.ofList token
  | .missingHeader => "missing header"
  | .noNodes => "no nodes"
  | .noRoot => "circuit has no root"

/-- An error in building, changing, querying or reading a circuit. -/
inductive CircuitError where
  | nodeNotFound (id : NodeId)
  | variableNotInCircuit (v : Var)
  | cycle (source target : NodeId)
  | notInnerNode (id : NodeId)
  | notDecomposable (id : NodeId)
  | notDeterministic (id : NodeId)
  | notSmooth (id : NodeId)
  | complementaryLiterals (v : Var)
  | assumptionNotDisjoint (v : Var)
  | cardinalityUnsupported (id : NodeId)
  | incompleteMapping (id : NodeId) (v : Var)
  | notSerializable (id : NodeId)
  | parse (line : Nat) (cause : NnfCause)
  | invalidUtf8
  deriving Repr, DecidableEq

/-- The wording of an error. -/
def CircuitError.message : CircuitError → String
  | .nodeNotFound id =>
      let node := id.label
      s!"node {node} does not exist in the circuit"
  | .variableNotInCircuit v => s!"variable {v} does not occur in the sub-circuit"
  | .cycle source target =>
      let tail := source.label
      let head := target.label
      s!"adding edge {tail} -> {head} would create a cycle"
  | .notInnerNode id =>
      let node := id.label
      s!"node {node} is not an inner node"
  | .notDecomposable id =>
      let node := id.label
      s!"sub-circuit of node {node} is not decomposable"
  | .notDeterministic id =>
      let node := id.label
      s!"sub-circuit of node {node} is not deterministic"
  | .notSmooth id =>
      let node := id.label
      s!"sub-circuit of node {node} is not smooth"
  | .complementaryLiterals v => s!"both {v} and -{v} occur in the assumption"
  | .assumptionNotDisjoint v => s!"variable {v} is both assumed and existentially quantified"
  | .cardinalityUnsupported id =>
      let node := id.label
      s!"node {node} does not support minimum default cardinality"
  | .incompleteMapping id v =>
      let node := id.label
      s!"variable {v} of node {node} has no image under the mapping"
  | .notSerializable id =>
      let node := id.label
      s!"node {node} cannot be written in the NNF format"
  | .parse line cause =>
      let shown := cause.message
      s!"line {line}: {shown}"
  | .invalidUtf8 => "I/O error: stream did not contain valid UTF-8"

end KnowledgeCompiler
