import KnowledgeCompiler.Circuit.Order
import KnowledgeCompiler.Text.Blank
import KnowledgeCompiler.Text.Utf8

/-! The NNF text format for circuits.

A header `nnf` announces the numbers of nodes, edges and variables. Then each node has a line: `L`
and a literal; `A`, the number of children and the children; or `O`, the decision variable or zero,
the number of children and the children. A child is named by the position of its line among those of
the nodes, so children come first, and the last node is the root. A conjunction without children is
true and a disjunction without children is false. Lines that begin with `c` or `C` are comments.
-/

namespace KnowledgeCompiler.Nnf

-----------------------------------------------------------------------------------------
-- Writing
-----------------------------------------------------------------------------------------

/-- Joins words by spaces. -/
def spaced (words : List String) : String := " ".intercalate words

/-- The line of a gate, with its children named by position; nothing for gates that the format
lacks.
-/
def line? (position : NodeId → Nat) : Gate → Option String
  | .constant true => some "A 0"
  | .constant false => some "O 0 0"
  | .literal l => some (spaced ["L", toString l])
  | .and children =>
      some (spaced ("A" :: toString children.length :: children.map fun c => toString (position c)))
  | .or decision children =>
      some (spaced ("O" :: toString (decision.getD 0) :: toString children.length
        :: children.map fun c => toString (position c)))
  | .mapping .. | .twoCnf _ | .horn _ => none

/-- The lines of nodes, or the first node that the format cannot express. -/
def lines (c : Circuit) (position : NodeId → Nat) : List NodeId → Except NodeId (List String)
  | [] => .ok []
  | id :: rest =>
      match (c.node? id).bind fun node => line? position node.gate with
      | none => .error id
      | some text => (lines c position rest).map (text :: ·)

/-- The header of nodes. -/
def header (c : Circuit) (order : List NodeId) : String :=
  let nodes := c.nodesOf order
  let edges := nodes.foldl (fun count node => count + node.children.length) 0
  let largest := (nodes.flatMap fun node => node.vars.toList).foldl max 0
  spaced ["nnf", toString order.length, toString edges, toString largest]

/-- The text of the sub-circuit of a node. -/
def write (root : NodeId) : Build String := do
  let order ← Build.topologicalOrder root
  let c ← Action.current
  let positions := Std.TreeMap.ofList order.zipIdx
  match lines c (positions.getD · 0) order with
  | .error id => Action.fail (.notSerializable id)
  | .ok body => return String.join ((header c order :: body).map (· ++ "\n"))

/-- The text of the circuit below its root. -/
def save : Build String := do
  match (← Action.current).root with
  | none => Action.fail (.parse 0 .noRoot)
  | some root => write root

-----------------------------------------------------------------------------------------
-- Reading
-----------------------------------------------------------------------------------------

/-- The announced numbers. -/
structure Header where
  nodes : Nat
  edges : Nat
  vars : Nat
  deriving Repr, DecidableEq

/-- What the reader has seen, apart from the nodes. -/
structure Seen where
  /-- The header, once it has been read. -/
  header : Option Header := none
  /-- The number of children named so far. -/
  edges : Nat := 0
  /-- The largest variable of a literal so far. -/
  largest : Nat := 0

/-- Stops at a line. -/
def stop {α : Type} (number : Nat) (cause : NnfCause) : Build α :=
  Action.fail (.parse number cause)

/-- The value of a numeral. -/
def number {α : Type} (line : Nat) (parse : List Char → Option α) (token : List Char) : Build α :=
  match parse token with
  | some value => return value
  | none => stop line (.invalidNumber token)

/-- A number of the size of a position or a count. -/
def count (line : Nat) (token : List Char) : Build Nat :=
  number line (Text.natural? Text.largestWord) token

/-- A number of the size of a variable. -/
def half (line : Nat) (token : List Char) : Build Nat :=
  number line (Text.natural? Text.largestHalf) token

/-- The nodes named by position, in turn. -/
def childNodes (line : Nat) : List (List Char) → Build (List NodeId)
  | [] => return []
  | token :: rest => do
      let position ← count line token
      if (← Action.current).nodes.size ≤ position then
        stop line (.undefinedChild position)
      return position :: (← childNodes line rest)

/-- The children of a line: their number and then as many positions. -/
def children (line : Nat) : List (List Char) → Build (List NodeId)
  | [] => stop line .missingChildCount
  | declared :: tokens => do
      let expected ← count line declared
      if tokens.length != expected then
        stop line (.childCount expected tokens.length)
      childNodes line tokens

/-- Reads the line of a header. -/
def readHeader (line : Nat) (text : List Char) (tokens : List (List Char)) (seen : Seen)
    : Build Seen := do
  if seen.header.isSome then
    stop line .duplicateHeader
  match tokens with
  | [nodes, edges, vars] =>
      let header := {
        nodes := ← count line nodes
        edges := ← count line edges
        vars := ← half line vars
      }
      return { seen with header := some header }
  | _ => stop line (.invalidHeader text)

/-- Reads the line of a literal. -/
def readLiteral (line : Nat) (tokens : List (List Char)) (seen : Seen) : Build Seen := do
  match tokens with
  | [token] =>
      let l ← number line (Text.integer? Lit.least 2147483647) token
      if l = 0 then
        stop line .zeroLiteral
      discard (Build.literal l)
      return { seen with largest := max seen.largest (Lit.var l) }
  | _ => stop line .literalShape

/-- Reads the line of a conjunction. -/
def readConjunction (line : Nat) (tokens : List (List Char)) (seen : Seen) : Build Seen := do
  let ids ← children line tokens
  discard (Build.conjunction ids)
  return { seen with edges := seen.edges + ids.length }

/-- Reads the line of a disjunction. Without children the decision variable has no meaning. -/
def readDisjunction (line : Nat) (tokens : List (List Char)) (seen : Seen) : Build Seen := do
  match tokens with
  | token :: rest@(_ :: _) =>
      let decision ← half line token
      let ids ← children line rest
      discard (Build.disjunction ids (if decision = 0 || ids.isEmpty then none else some decision))
      return { seen with edges := seen.edges + ids.length }
  | _ => stop line .disjunctionShape

/-- Reads a line. -/
def readLine (line : Nat) (text : List Char) (seen : Seen) : Build Seen := do
  match Text.words text with
  | [] => return seen
  | kind :: tokens =>
      if kind.head? == some 'c' || kind.head? == some 'C' then
        return seen
      if kind == ['n', 'n', 'f'] then
        return ← readHeader line text tokens seen
      if seen.header.isNone then
        stop line .nodeBeforeHeader
      match kind with
      | ['L'] => readLiteral line tokens seen
      | ['A'] => readConjunction line tokens seen
      | ['O'] => readDisjunction line tokens seen
      | _ => stop line (.unknownKind kind)

/-- Reads lines from a line number on. A line that is no text stops the reader when it is
reached.
-/
def readLines : Nat → List (Option (List Char)) → Seen → Build Seen
  | _, [], seen => return seen
  | _, none :: _, _ => Action.fail .invalidUtf8
  | line, some text :: rest, seen => do readLines (line + 1) rest (← readLine line text seen)

/-- Records where a text departs from its header. -/
def compareHeader (header : Header) (nodes : Nat) (seen : Seen) : Build Unit := do
  if nodes != header.nodes then
    Action.note (.nodeCount header.nodes nodes)
  if seen.edges != header.edges then
    Action.note (.edgeCount header.edges seen.edges)
  if header.vars < seen.largest then
    Action.note (.variableCount header.vars seen.largest)

/-- Reads lines into the empty circuit. Nodes are not shared while reading, so each line of a node
makes one node.
-/
def readAll (all : List (Option (List Char))) : Build Unit := do
  Build.setSharing false
  let seen ← readLines 1 all {}
  match seen.header with
  | none => stop 0 .missingHeader
  | some header =>
      let nodes := (← Action.current).nodes.size
      if nodes = 0 then
        stop 0 .noNodes
      compareHeader header nodes seen
      Build.setSharing true
      Build.setRoot (nodes - 1)

/-- The lines of a text. A line ends with a line feed, or with a carriage return and a line feed; the
last line may end with the text. `begun` is the line so far, last character first.
-/
def splitLines {α : Type} [DecidableEq α] (feed carriage : α) (begun : List α)
    : List α → List (List α)
  | [] => if begun.isEmpty then [] else [begun.reverse]
  | a :: rest =>
      if a = feed then
        let ended := if begun.head? = some carriage then begun.tail else begun
        ended.reverse :: splitLines feed carriage [] rest
      else splitLines feed carriage (a :: begun) rest

/-- Reads a text into the empty circuit. -/
def readText (text : List Char) : Build Unit :=
  readAll ((splitLines '\n' '\r' [] text).map some)

/-- Reads bytes into the empty circuit. -/
def readBytes (bytes : List UInt8) : Build Unit :=
  readAll ((splitLines 10 13 [] bytes).map Text.decode?)

/-- Replaces the circuit by what the text of the sub-circuit of a node reads as. If the text cannot
be written or read, the circuit stays.
-/
def reload (root : NodeId) : Build Unit := do
  let text ← write root
  fun before =>
    match readText text.toList { state := .empty, journal := before.journal } with
    | .ok _ after => .ok () after
    | .error failure after => .error failure { before with journal := after.journal }

end KnowledgeCompiler.Nnf
