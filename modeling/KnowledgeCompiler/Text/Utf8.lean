/-! Decoding of UTF-8 bytes.

Bytes fall into pieces: a well-formed sequence is one character, and every other piece is a longest
beginning of a well-formed sequence, or a single byte that begins none.
-/

namespace KnowledgeCompiler.Text

/-- Whether a byte continues a sequence. -/
def isContinuation (b : UInt8) : Bool := 0x80 ≤ b && b ≤ 0xBF

/-- How many bytes a sequence with this first byte has; zero if none starts so. -/
def sequenceLength (first : UInt8) : Nat :=
  if first ≤ 0x7F then 1
  else if 0xC2 ≤ first && first ≤ 0xDF then 2
  else if 0xE0 ≤ first && first ≤ 0xEF then 3
  else if 0xF0 ≤ first && first ≤ 0xF4 then 4
  else 0

/-- Whether a byte may follow the first byte of a sequence of three or four. The first byte can
narrow the range so that no character has two encodings and none is a surrogate.
-/
def maySecond (first second : UInt8) : Bool :=
  if first == 0xE0 then 0xA0 ≤ second && second ≤ 0xBF
  else if first == 0xED then 0x80 ≤ second && second ≤ 0x9F
  else if first == 0xF0 then 0x90 ≤ second && second ≤ 0xBF
  else if first == 0xF4 then 0x80 ≤ second && second ≤ 0x8F
  else isContinuation second

/-- The bits that a continuation byte carries. -/
def payload (b : UInt8) : Nat := b.toNat % 64

/-- The first piece of a sequence of bytes and what comes after it. -/
def firstPiece (first : UInt8) (rest : List UInt8) : Option Char × List UInt8 :=
  match sequenceLength first, rest with
  | 1, _ => (some (Char.ofNat first.toNat), rest)
  | 2, b :: after =>
      if isContinuation b then
        (some (Char.ofNat (first.toNat % 32 * 64 + payload b)), after)
      else (none, rest)
  | 3, b :: after =>
      if maySecond first b then
        match after with
        | c :: others =>
            if isContinuation c then
              (some (Char.ofNat (first.toNat % 16 * 4096 + payload b * 64 + payload c)), others)
            else (none, after)
        | [] => (none, [])
      else (none, rest)
  | 4, b :: after =>
      if maySecond first b then
        match after with
        | c :: others =>
            if isContinuation c then
              match others with
              | d :: left =>
                  if isContinuation d then
                    (some (Char.ofNat
                      (first.toNat % 8 * 262144 + payload b * 4096 + payload c * 64 + payload d)),
                      left)
                  else (none, others)
              | [] => (none, [])
            else (none, after)
        | [] => (none, [])
      else (none, rest)
  | _, _ => (none, rest)

/-- The pieces of a sequence of bytes. Each piece takes a byte and a unit of fuel. -/
def piecesWithin : Nat → List UInt8 → List (Option Char)
  | 0, _ => []
  | _, [] => []
  | fuel + 1, first :: rest =>
      let (piece, after) := firstPiece first rest
      piece :: piecesWithin fuel after

/-- The pieces of a sequence of bytes. -/
def pieces (bytes : List UInt8) : List (Option Char) := piecesWithin bytes.length bytes

/-- The text of a sequence of bytes, if it is well formed. -/
def decode? (bytes : List UInt8) : Option (List Char) := (pieces bytes).mapM id

/-- The text of a sequence of bytes, with a replacement character for each ill-formed piece. -/
def decodeLossy (bytes : List UInt8) : List Char :=
  (pieces bytes).map (·.getD (Char.ofNat 0xFFFD))

end KnowledgeCompiler.Text
