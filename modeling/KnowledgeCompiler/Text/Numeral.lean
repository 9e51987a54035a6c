/-! Decimal numerals: digits, after at most one sign. -/

namespace KnowledgeCompiler.Text

/-- The number that digits continue from `value`; nothing if a character is no digit. -/
def digitsFrom (value : Nat) : List Char → Option Nat
  | [] => some value
  | c :: rest =>
      if c.isDigit then digitsFrom (value * 10 + (c.toNat - '0'.toNat)) rest else none

/-- The number of one or more digits. -/
def digits? : List Char → Option Nat
  | [] => none
  | text => digitsFrom 0 text

/-- A number up to `largest`, after an optional plus sign. -/
def natural? (largest : Nat) (text : List Char) : Option Nat := do
  let value ← match text with
    | '+' :: rest => digits? rest
    | _ => digits? text
  if value ≤ largest then some value else none

/-- A number between `smallest` and `largest`, after an optional sign. -/
def integer? (smallest largest : Int) (text : List Char) : Option Int := do
  let value : Int ← match text with
    | '+' :: rest => (digits? rest).map Int.ofNat
    | '-' :: rest => (digits? rest).map fun n => -(n : Int)
    | _ => (digits? text).map Int.ofNat
  if smallest ≤ value ∧ value ≤ largest then some value else none

/-- The largest 64-bit number. -/
def largestWord : Nat := 18446744073709551615

/-- The largest 32-bit number. -/
def largestHalf : Nat := 4294967295

end KnowledgeCompiler.Text
