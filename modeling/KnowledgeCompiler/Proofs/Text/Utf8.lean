import Mathlib.Tactic.SplitIfs
import KnowledgeCompiler.Circuit.Nnf
import KnowledgeCompiler.Proofs.Text.Layout

/-! Decoding takes back encoding.

The encoding of a character is one piece, and decoding it gives the character again. Line feeds and carriage returns
are bytes of their own, so a text falls into the same lines before and after it is encoded.
-/

namespace KnowledgeCompiler.Text

/-- The bytes of a text. -/
def encode (text : List Char) : List UInt8 := text.flatMap String.utf8EncodeChar

theorem encode_cons (c : Char) (text : List Char) : encode (c :: text) = String.utf8EncodeChar c ++ encode text := rfl

theorem encode_append (text more : List Char) : encode (text ++ more) = encode text ++ encode more :=
  List.flatMap_append

-----------------------------------------------------------------------------------------
-- Bytes by value
-----------------------------------------------------------------------------------------

theorem byte_toNat {n : Nat} (small : n < 256) : (UInt8.ofNat n).toNat = n := by
  rw [UInt8.toNat_ofNat']
  exact Nat.mod_eq_of_lt small

theorem sequenceLength_byte {n : Nat} (small : n < 256)
    : sequenceLength (UInt8.ofNat n) =
      if n ≤ 127 then 1 else if 194 ≤ n ∧ n ≤ 223 then 2 else if 224 ≤ n ∧ n ≤ 239 then 3
      else if 240 ≤ n ∧ n ≤ 244 then 4 else 0 := by
  have value := byte_toNat small
  simp only [sequenceLength, UInt8.le_iff_toNat_le, value, Bool.and_eq_true, decide_eq_true_eq]
  rfl

theorem maySecond_byte {n m : Nat} (small : n < 256) (small' : m < 256)
    : maySecond (UInt8.ofNat n) (UInt8.ofNat m) = true ↔
      if n = 224 then 160 ≤ m ∧ m ≤ 191 else if n = 237 then 128 ≤ m ∧ m ≤ 159
      else if n = 240 then 144 ≤ m ∧ m ≤ 191 else if n = 244 then 128 ≤ m ∧ m ≤ 143 else 128 ≤ m ∧ m ≤ 191 := by
  have value := byte_toNat small
  have value' := byte_toNat small'
  simp only [maySecond, isContinuation, beq_iff_eq, ← UInt8.toNat_inj, UInt8.le_iff_toNat_le, value, value',
    Bool.and_eq_true, decide_eq_true_eq, apply_ite (· = true)]
  rfl

/-- A byte that continues a sequence carries six bits. -/
theorem continuation (n : Nat)
    : isContinuation (UInt8.ofNat (n % 64 + 128)) = true ∧ payload (UInt8.ofNat (n % 64 + 128)) = n % 64 := by
  have value : (UInt8.ofNat (n % 64 + 128)).toNat = n % 64 + 128 := byte_toNat (by omega)
  constructor
  · simp only [isContinuation, UInt8.le_iff_toNat_le, value, Bool.and_eq_true, decide_eq_true_eq]
    simp
    omega
  · rw [payload, value]
    omega

-----------------------------------------------------------------------------------------
-- Characters
-----------------------------------------------------------------------------------------

/-- The encoding of a character is the first piece of what it begins; the cases are the lengths of encodings. -/
theorem firstPiece_encode (c : Char) (rest : List UInt8)
    : ∃ first more, String.utf8EncodeChar c = first :: more ∧ firstPiece first (more ++ rest) = (some c, rest) := by
  have valid : c.toNat < 0xd800 ∨ 0xdfff < c.toNat ∧ c.toNat < 0x110000 := c.valid
  have back : ∀ n, n = c.toNat → (some (Char.ofNat n), rest) = (some c, rest) := by
    intro n same
    rw [same, Char.ofNat_toNat]
  have code : c.val.toNat = c.toNat := rfl
  simp only [String.utf8EncodeChar, code]
  generalize c.toNat = v at *
  split_ifs with one two three
  · refine ⟨_, _, rfl, ?_⟩
    have length := @sequenceLength_byte v (by omega)
    rw [if_pos one] at length
    simp only [firstPiece, length, byte_toNat (show v < 256 by omega)]
    exact back _ rfl
  · refine ⟨_, _, rfl, ?_⟩
    have small : v / 64 % 32 + 192 < 256 := by omega
    have length := sequenceLength_byte small
    rw [if_neg (by omega), if_pos (by omega)] at length
    obtain ⟨last, low⟩ := continuation v
    simp only [firstPiece, length, byte_toNat small, List.cons_append, List.nil_append, last, low, if_true]
    exact back _ (by omega)
  · refine ⟨_, _, rfl, ?_⟩
    have small : v / 4096 % 16 + 224 < 256 := by omega
    have length := sequenceLength_byte small
    rw [if_neg (by omega), if_neg (by omega), if_pos (by omega)] at length
    have second := (@maySecond_byte _ (v / 64 % 64 + 128) small (by omega)).mpr (by split_ifs <;> omega)
    obtain ⟨last, low⟩ := continuation v
    obtain ⟨_, middle⟩ := continuation (v / 64)
    simp only [firstPiece, length, byte_toNat small, List.cons_append, List.nil_append, second, last, low, middle,
      if_true]
    exact back _ (by omega)
  · refine ⟨_, _, rfl, ?_⟩
    have small : v / 262144 % 8 + 240 < 256 := by omega
    have length := sequenceLength_byte small
    rw [if_neg (by omega), if_neg (by omega), if_neg (by omega), if_pos (by omega)] at length
    have second := (@maySecond_byte _ (v / 4096 % 64 + 128) small (by omega)).mpr (by split_ifs <;> omega)
    obtain ⟨last, low⟩ := continuation v
    obtain ⟨third, middle⟩ := continuation (v / 64)
    obtain ⟨_, high⟩ := continuation (v / 4096)
    simp only [firstPiece, length, byte_toNat small, List.cons_append, List.nil_append, second, third, last, low,
      middle, high, if_true]
    exact back _ (by omega)

/-- The bytes of a text are as many pieces as it has characters; induction on the text. -/
theorem piecesWithin_encode {fuel : Nat} (text : List Char) (enough : text.length ≤ fuel)
    : piecesWithin fuel (encode text) = text.map some := by
  induction text generalizing fuel with
  | nil => cases fuel <;> rfl
  | cons c rest ih =>
      cases fuel with
      | zero => cases enough
      | succ fuel =>
          obtain ⟨first, more, same, piece⟩ := firstPiece_encode c (encode rest)
          rw [encode_cons, same, List.cons_append, piecesWithin, piece]
          exact congrArg (some c :: ·) (ih (Nat.le_of_succ_le_succ enough))

theorem length_encode (text : List Char) : text.length ≤ (encode text).length := by
  induction text with
  | nil => exact Nat.le_refl 0
  | cons c rest ih =>
      obtain ⟨first, more, same, _⟩ := firstPiece_encode c []
      rw [encode_cons, same, List.length_append, List.length_cons, List.length_cons]
      omega

/-- Decoding takes back encoding. -/
theorem decode?_encode (text : List Char) : decode? (encode text) = some text := by
  rw [decode?, pieces, piecesWithin_encode text (length_encode text)]
  induction text with
  | nil => rfl
  | cons c rest ih =>
      rw [List.map_cons, List.mapM_cons, ih]
      rfl

-----------------------------------------------------------------------------------------
-- Lines
-----------------------------------------------------------------------------------------

/-- A character is one small byte, or all its bytes are large. -/
theorem encodeChar_bytes (c : Char)
    : c.toNat < 128 ∧ String.utf8EncodeChar c = [UInt8.ofNat c.toNat]
      ∨ 128 ≤ c.toNat ∧ ∀ byte ∈ String.utf8EncodeChar c, 128 ≤ byte.toNat := by
  have code : c.val.toNat = c.toNat := rfl
  simp only [String.utf8EncodeChar, code]
  generalize c.toNat = v
  split_ifs with one two three
  · exact .inl ⟨by omega, rfl⟩
  all_goals
    refine .inr ⟨by omega, fun byte member => ?_⟩
    simp only [List.mem_cons, List.not_mem_nil, or_false] at member
    rcases member with rfl | rfl | rfl | rfl <;> rw [byte_toNat] <;> omega

/-- A small character is found in the encoding of no other one. -/
theorem mem_encodeChar {c small : Char} (bound : small.toNat < 128)
    : UInt8.ofNat small.toNat ∈ String.utf8EncodeChar c ↔ c = small := by
  have value : (UInt8.ofNat small.toNat).toNat = small.toNat := byte_toNat (Nat.lt_trans bound (by decide))
  constructor
  · intro member
    rcases encodeChar_bytes c with ⟨one, bytes⟩ | ⟨_, large⟩
    · rw [bytes, List.mem_singleton, ← UInt8.toNat_inj, value, byte_toNat (Nat.lt_trans one (by decide))] at member
      rw [← Char.ofNat_toNat c, ← member, Char.ofNat_toNat]
    · have beyond := large _ member
      rw [value] at beyond
      exact absurd bound (Nat.not_lt.mpr beyond)
  · intro same
    rcases encodeChar_bytes c with ⟨_, bytes⟩ | ⟨beyond, _⟩
    · rw [bytes, same]
      exact List.mem_singleton_self _
    · exact absurd bound (Nat.not_lt.mpr (same ▸ beyond))

end KnowledgeCompiler.Text

namespace KnowledgeCompiler.Nnf

open KnowledgeCompiler.Text

theorem encode_reverse_cons (c : Char) (begun : List Char)
    : (encode (c :: begun).reverse).reverse = (String.utf8EncodeChar c).reverse ++ (encode begun.reverse).reverse := by
  rw [List.reverse_cons, encode_append, List.reverse_append, encode_cons]
  exact congrArg (fun bytes : List UInt8 => bytes.reverse ++ (encode begun.reverse).reverse) (List.append_nil _)

/-- A carriage return at the end of a line is dropped from the bytes just if it is dropped from the characters. -/
theorem dropCarriage_encode (begun : List Char)
    : (if (encode begun.reverse).reverse.head? = some 13 then (encode begun.reverse).reverse.tail
        else (encode begun.reverse).reverse)
      = (encode (if begun.head? = some '\r' then begun.tail else begun).reverse).reverse := by
  cases begun with
  | nil => rfl
  | cons c begun =>
      by_cases carriage : c = '\r'
      · subst carriage
        rw [encode_reverse_cons]
        rfl
      · obtain ⟨first, more, same, _⟩ := firstPiece_encode c []
        have last : (encode (c :: begun).reverse).reverse.head? ≠ some 13 := by
          rw [encode_reverse_cons, List.head?_append, Option.or_of_isSome (by simp [same])]
          intro head
          exact carriage ((@mem_encodeChar c '\r' (by decide)).mp (List.mem_reverse.mp (List.mem_of_head? head)))
        rw [if_neg last, if_neg (by simpa using carriage)]

/-- The bytes of a text fall into the bytes of its lines; induction on the text. -/
theorem splitLines_encode (begun text : List Char)
    : splitLines 10 13 (encode begun.reverse).reverse (encode text) = (splitLines '\n' '\r' begun text).map encode := by
  induction text generalizing begun with
  | nil =>
      cases begun with
      | nil => rfl
      | cons c begun =>
          have some_ : (encode (c :: begun).reverse).reverse ≠ [] := by
            obtain ⟨first, more, same, _⟩ := firstPiece_encode c []
            rw [encode_reverse_cons]
            simp [same]
          show (if (encode (c :: begun).reverse).reverse.isEmpty then [] else [_]) = _
          rw [if_neg (by simpa using some_), List.reverse_reverse]
          rfl
  | cons c rest ih =>
      by_cases feed : c = '\n'
      · subst feed
        have line : encode ('\n' :: rest) = 10 :: encode rest := rfl
        rw [line, splitLines, if_pos rfl, splitLines, if_pos rfl, List.map_cons]
        dsimp only
        rw [dropCarriage_encode, List.reverse_reverse]
        exact congrArg (_ :: ·) (ih [])
      · have unfed : 10 ∉ String.utf8EncodeChar c := fun member => feed ((@mem_encodeChar c '\n' (by decide)).mp member)
        rw [encode_cons, splitLines_append unfed, splitLines, if_neg feed, ← ih, encode_reverse_cons]

/-- Bytes are read as the text that they encode. -/
theorem readBytes_encode (text : List Char) : readBytes (encode text) = readText text := by
  have lines := splitLines_encode [] text
  rw [readBytes, readText]
  change readAll ((splitLines 10 13 (encode [].reverse).reverse (encode text)).map decode?) = _
  rw [lines, List.map_map]
  exact congrArg (fun f => readAll ((splitLines '\n' '\r' [] text).map f)) (funext decode?_encode)

end KnowledgeCompiler.Nnf
