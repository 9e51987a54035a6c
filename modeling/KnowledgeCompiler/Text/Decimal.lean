/-! Shortest decimals of floating-point numbers.

A finite number is written with the fewest digits that are read back as the same number; of several
such decimals the nearest one is taken, and of two that are equally near the larger one. Decimals are
positional: there is no exponent, and a whole number has no fraction.
-/

namespace KnowledgeCompiler.Text

/-- A positive floating-point number as a significand and a power of two. -/
structure Binary where
  /-- The significand. -/
  significand : Nat
  /-- The power of two that it is multiplied with. -/
  exponent : Int
  /-- Whether the next smaller number is only half as far away as the next larger one. -/
  closeBelow : Bool

/-- The parts of a number from its bits, apart from its sign. -/
def Binary.ofBits (bits : UInt64) : Binary :=
  let fraction : Nat := bits.toNat % Nat.pow 2 52
  let biased : Nat := bits.toNat / Nat.pow 2 52 % Nat.pow 2 11
  if biased = 0 then { significand := fraction, exponent := -1074, closeBelow := false }
  else
    { significand := fraction + Nat.pow 2 52, exponent := (biased : Int) - 1075,
      closeBelow := decide (fraction = 0 ∧ 1 < biased) }

/-- The digits of the multiple of `10 ^ power` that is nearest to the number, if a multiple is read
back as the number; of two that are equally near, the larger one. Everything is scaled by four, so
that the ends of the interval of decimals which are read back are whole. The ends belong to it when
the significand is even.
-/
def Binary.digitsAt? (b : Binary) (power : Int) : Option Nat :=
  let scale := Nat.pow 2 (b.exponent - 2).toNat * Nat.pow 10 (-power).toNat
  let unit := Nat.pow 2 (2 - b.exponent).toNat * Nat.pow 10 power.toNat
  let value := 4 * b.significand * scale
  let low := (4 * b.significand - (if b.closeBelow then 1 else 2)) * scale
  let high := (4 * b.significand + 2) * scale
  let inside := fun digits =>
    if b.significand % 2 = 0 then decide (low ≤ digits * unit ∧ digits * unit ≤ high)
    else decide (low < digits * unit ∧ digits * unit < high)
  let below := value / unit
  let above := below + 1
  match inside below && 0 < below, inside above with
  | true, true =>
      if value - below * unit < above * unit - value then some below else some above
  | true, false => some below
  | false, true => some above
  | false, false => none

/-- The shortest decimal as digits and a power of ten, for a power of at most `power`. The fuel
bounds how many powers are tried.
-/
def Binary.shortestWithin (b : Binary) : Nat → Int → Nat × Int
  | 0, power => (0, power)
  | fuel + 1, power =>
      match b.digitsAt? power with
      | some digits => (digits, power)
      | none => b.shortestWithin fuel (power - 1)

/-- The shortest decimal. No number has a larger power of ten than 308 or needs a smaller one than
-324.
-/
def Binary.shortest (b : Binary) : Nat × Int := b.shortestWithin 640 309

/-- Writes digits times a power of ten in positional notation. -/
def positional (digits : Nat) (power : Int) : String :=
  let text := (Nat.toDigits 10 digits)
  if 0 ≤ power then String.ofList (text ++ List.replicate power.toNat '0')
  else
    let places := (-power).toNat
    let padded := List.replicate (places + 1 - text.length) '0' ++ text
    let whole := padded.take (padded.length - places)
    let fraction := padded.drop (padded.length - places)
    String.ofList (whole ++ ['.'] ++ fraction)

/-- The shortest decimal of a floating-point number. -/
def decimal (x : Float) : String :=
  if x.isNaN then "NaN"
  else
    let bits := x.toBits
    let sign := if bits.toNat / Nat.pow 2 63 = 1 then "-" else ""
    if x.isInf then sign ++ "inf"
    else
      let b := Binary.ofBits bits
      if b.significand = 0 then sign ++ "0"
      else
        let (digits, power) := b.shortest
        sign ++ positional digits power

end KnowledgeCompiler.Text
