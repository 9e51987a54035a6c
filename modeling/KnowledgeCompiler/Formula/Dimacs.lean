import KnowledgeCompiler.Formula
import KnowledgeCompiler.Text.Blank
import KnowledgeCompiler.Text.Numeral
import KnowledgeCompiler.Text.Utf8

/-! The DIMACS text format for formulas.

A formula is written as numbers, each clause ended by a zero. Lines that begin with `c` are
comments. One line that begins with `p` may announce the number of variables and clauses; the text
then has to keep to both. The text is read byte by byte, and only spaces and line ends stand
between numbers.
-/

namespace KnowledgeCompiler.Dimacs

/-- Why a text is no formula. -/
inductive Cause where
  /-- A variable beyond the largest one: the digits read before the last, and the last. -/
  | indexTooLarge (leading last : Nat)
  /-- A byte that cannot stand where it does. -/
  | unexpectedByte (byte : UInt8)
  /-- A `p` line of another form. -/
  | invalidHeader (line : List Char)
  /-- A last clause without its zero. -/
  | unterminatedClause
  deriving Repr, DecidableEq

/-- An error in a text: one at a line, or a disagreement with the announced numbers. -/
inductive Error where
  | atLine (line : Nat) (cause : Cause)
  | variableCount (found announced : Nat)
  | clauseCount (found announced : Nat)
  deriving Repr, DecidableEq

/-- The wording of a cause. A byte is shown as the character with its number. -/
def Cause.message : Cause → String
  | .indexTooLarge leading last => s!"Literal index is too large: {leading}{last}..."
  | .unexpectedByte byte =>
      let shown := Char.ofNat byte.toNat
      s!"Unexpected character in DIMACS CNF input: '{shown}'"
  | .invalidHeader line =>
      let shown := String.ofList line
      s!"Invalid header syntax: {shown}"
  | .unterminatedClause => "Unterminated clause"

/-- The wording of an error. -/
def Error.message : Error → String
  | .atLine line cause =>
      let shown := cause.message
      s!"line {line}: {shown}"
  | .variableCount found announced =>
      s!"Formula has {found} variables while the header specifies {announced} variables"
  | .clauseCount found announced =>
      s!"Formula has {found} clauses while the header specifies {announced} clauses"

/-- What the bytes of the current line are. -/
inductive Place where
  /-- Numbers. -/
  | numbers
  /-- A comment. -/
  | comment
  /-- The announcing line, with its bytes so far, last first. -/
  | header (bytes : List UInt8)
  deriving Repr, DecidableEq

/-- The numbers of variables and clauses that a header announces. -/
structure Header where
  vars : Nat
  clauses : Nat
  deriving Repr, DecidableEq

/-- How far the reader has come. -/
structure Reader where
  /-- The current line, from one. -/
  line : Nat := 1
  /-- What the current line is. -/
  place : Place := .numbers
  /-- Whether nothing but line ends has been read on the line. -/
  fresh : Bool := true
  /-- Whether a minus sign has been read for the current number. -/
  negative : Bool := false
  /-- The current number, once a digit of it has been read. -/
  number : Option Nat := none
  /-- The literals of the current clause, last first. -/
  clause : List Lit := []
  /-- The clauses before it, last first. -/
  clauses : Clauses := []
  /-- The announcement, once it has been read. -/
  header : Option Header := none

namespace Reader

/-- An error at the current line. -/
def fail {α : Type} (reader : Reader) (cause : Cause) : Except Error α :=
  .error (.atLine reader.line cause)

/-- Reads an announcing line: `p`, a space, `cnf` and two numbers. -/
def readHeader (reader : Reader) (bytes : List UInt8) : Except Error Reader :=
  let line := Text.decodeLossy bytes
  match line with
  | 'p' :: ' ' :: rest =>
      match Text.words rest with
      | ['c', 'n', 'f'] :: vars :: others =>
          match Text.natural? Text.largestWord vars with
          | none => reader.fail (.invalidHeader line)
          | some count =>
              if Formula.largestVariable < count then
                reader.fail (.indexTooLarge (count / 10) (count % 10))
              else
                match others.map (Text.natural? Text.largestWord) with
                | [some clauses] =>
                    .ok { reader with header := some { vars := count, clauses } }
                | _ => reader.fail (.invalidHeader line)
      | _ => reader.fail (.invalidHeader line)
  | _ => reader.fail (.invalidHeader line)

/-- Ends the current number: zero ends the clause, another number is a literal of it. -/
def finishNumber (reader : Reader) : Reader :=
  let idle := { reader with negative := false, number := none }
  match reader.number with
  | none => idle
  | some 0 => { idle with clause := [], clauses := reader.clause.reverse :: reader.clauses }
  | some value =>
      let literal : Lit := if reader.negative then -(value : Int) else value
      { idle with clause := literal :: reader.clause }

/-- Reads a digit of the current number. -/
def readDigit (reader : Reader) (digit : Nat) : Except Error Reader :=
  let value := reader.number.getD 0
  if Formula.largestVariable < value * 10 + digit then
    reader.fail (.indexTooLarge value digit)
  else
    .ok { reader with number := some (value * 10 + digit), fresh := false }

/-- Reads a byte of a line of numbers. -/
def readAmongNumbers (reader : Reader) (byte : UInt8) : Except Error Reader :=
  let c := Char.ofNat byte.toNat
  if c.isDigit then reader.readDigit (c.toNat - '0'.toNat)
  else if c == '-' && !reader.negative && reader.number.isNone then
    .ok { reader with negative := true, fresh := false }
  else if (c == ' ' || c == '\n' || c == '\r') && !(reader.negative && reader.number.isNone) then
    .ok { reader.finishNumber with fresh := c != ' ' }
  else if c == 'c' && reader.fresh then .ok { reader with place := .comment }
  else if c == 'p' && reader.fresh && reader.header.isNone then
    .ok { reader with place := .header [byte] }
  else reader.fail (.unexpectedByte byte)

/-- Reads a byte. A line feed counts for the line that it begins. -/
def readByte (reader : Reader) (byte : UInt8) : Except Error Reader :=
  let ends := byte == 10 || byte == 13
  let reader := if byte == 10 then { reader with line := reader.line + 1 } else reader
  match reader.place with
  | .numbers => reader.readAmongNumbers byte
  | .comment => .ok (if ends then { reader with place := .numbers, fresh := true } else reader)
  | .header bytes =>
      if ends then { reader with place := .numbers, fresh := true }.readHeader bytes.reverse
      else .ok { reader with place := .header (byte :: bytes) }

/-- Ends the text. -/
def finish (reader : Reader) : Except Error Reader := do
  let reader ← match reader.place with
    | .header bytes => reader.readHeader bytes.reverse
    | _ => .ok reader
  let reader := reader.finishNumber
  if reader.clause.isEmpty then .ok reader else reader.fail .unterminatedClause

end Reader

/-- The largest variable of the clauses, or the announced number if that is larger. -/
def variableCount (header : Option Header) (clauses : Clauses) : Nat :=
  clauses.flatten.foldl (fun count l => max count l.var) (header.elim 0 (·.vars))

/-- Reads a formula. -/
def read (bytes : List UInt8) : Attempt Error Formula := do
  let reader ← ((bytes.foldlM Reader.readByte {}).bind Reader.finish).mapError Failure.error
  let clauses := reader.clauses.reverse
  let count := variableCount reader.header clauses
  if let some header := reader.header then
    if count != header.vars then
      throw (.error (.variableCount count header.vars))
    if clauses.length != header.clauses then
      throw (.error (.clauseCount clauses.length header.clauses))
  Formula.ofClauses count clauses

end KnowledgeCompiler.Dimacs
