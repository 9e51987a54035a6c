import Mathlib.Data.List.Basic
import KnowledgeCompiler.Circuit.Nnf
import KnowledgeCompiler.Proofs.Text.Numeral

/-! Words and lines are found again in what is laid out of them.

Words with spaces between them fall into these words, and lines that end with line feeds fall into these lines. A
line that is made of words holds no line feed and no carriage return, since both are blank.
-/

namespace KnowledgeCompiler.Text

variable {c : Char} {word : List Char} {words : List (List Char)}

-----------------------------------------------------------------------------------------
-- Words
-----------------------------------------------------------------------------------------

/-- Characters without a blank among them, and not none. -/
structure IsWord (word : List Char) : Prop where
  some_ : word ≠ []
  solid : ∀ c ∈ word, isBlank c = false

theorem isWord_iff : (!word.isEmpty && word.all fun c => !isBlank c) = true ↔ IsWord word := by
  rw [Bool.and_eq_true, Bool.not_eq_true', List.isEmpty_eq_false_iff, List.all_eq_true]
  simp only [Bool.not_eq_true']
  exact ⟨fun both => ⟨both.1, both.2⟩, fun isWord => ⟨isWord.some_, isWord.solid⟩⟩

instance (word : List Char) : Decidable (IsWord word) := decidable_of_iff _ isWord_iff

/-- A word goes on as long as no blank comes; induction on what comes. -/
theorem wordsAfter_append {part : List Char} (solid : ∀ c ∈ part, isBlank c = false) (started rest : List Char)
    : wordsAfter started (part ++ rest) = wordsAfter (started ++ part) rest := by
  induction part generalizing started with
  | nil => rw [List.nil_append, List.append_nil]
  | cons c part ih =>
      obtain ⟨here, later⟩ := List.forall_mem_cons.mp solid
      rw [List.cons_append, wordsAfter, here, if_neg Bool.false_ne_true, ih later, List.append_assoc]
      rfl

/-- A word and then a blank. -/
theorem words_append_blank (isWord : IsWord word) (blank : isBlank c = true) (rest : List Char)
    : Text.words (word ++ c :: rest) = word :: Text.words rest := by
  have some_ : ¬ word.isEmpty = true := fun none_ => isWord.some_ (List.isEmpty_iff.mp none_)
  rw [Text.words, wordsAfter_append isWord.solid, List.nil_append, wordsAfter, if_pos blank, if_neg some_]
  rfl

theorem words_singleton (isWord : IsWord word) : Text.words word = [word] := by
  have some_ : ¬ word.isEmpty = true := fun none_ => isWord.some_ (List.isEmpty_iff.mp none_)
  have whole := wordsAfter_append isWord.solid [] []
  rw [List.append_nil, List.nil_append] at whole
  rw [Text.words, whole, wordsAfter, if_neg some_]

/-- Words with spaces between them fall into these words; induction on the words. -/
theorem words_intercalate (areWords : ∀ word ∈ words, IsWord word)
    : Text.words ([' '].intercalate words) = words := by
  induction words with
  | nil => rfl
  | cons word rest ih =>
      obtain ⟨here, later⟩ := List.forall_mem_cons.mp areWords
      cases rest with
      | nil =>
          rw [List.intercalate_singleton]
          exact words_singleton here
      | cons next rest =>
          rw [List.intercalate_cons_cons, List.append_assoc, List.singleton_append, words_append_blank here rfl,
            ih later]

/-- Words with spaces between them hold no blank but spaces; induction on the words. -/
theorem not_mem_intercalate (areWords : ∀ word ∈ words, IsWord word) (blank : isBlank c = true) (other : c ≠ ' ')
    : c ∉ [' '].intercalate words := by
  induction words with
  | nil => exact List.not_mem_nil
  | cons word rest ih =>
      obtain ⟨here, later⟩ := List.forall_mem_cons.mp areWords
      have outside : c ∉ word := by
        intro member
        rw [here.solid c member] at blank
        cases blank
      cases rest with
      | nil =>
          rw [List.intercalate_singleton]
          exact outside
      | cons next rest =>
          rw [List.intercalate_cons_cons, List.mem_append, List.mem_append, List.mem_singleton]
          exact not_or_intro (not_or_intro outside other) (ih later)

-----------------------------------------------------------------------------------------
-- Numerals
-----------------------------------------------------------------------------------------

theorem isBlank_of_isDigit (digit : c.isDigit = true) : isBlank c = false := by
  have bounds : 48 ≤ c.toNat ∧ c.toNat ≤ 57 := by
    rw [Char.isDigit, Bool.and_eq_true, decide_eq_true_eq, decide_eq_true_eq] at digit
    exact digit
  unfold isBlank
  simp only [Bool.or_eq_false_iff, Bool.and_eq_false_iff, decide_eq_false_iff_not, beq_eq_false_iff_ne]
  omega

theorem isWord_toDigits (n : Nat) : IsWord (Nat.toDigits 10 n) :=
  ⟨Nat.toDigits_ne_nil, fun c member => isBlank_of_isDigit (isDigit_toDigits n c member)⟩

theorem isWord_natural (n : Nat) : IsWord (toString n).toList := by
  rw [Nat.toString_eq_repr, Nat.toList_repr]
  exact isWord_toDigits n

theorem isWord_integer (i : Int) : IsWord (toString i).toList := by
  cases i with
  | ofNat n =>
      have shown : (toString (Int.ofNat n)).toList = Nat.toDigits 10 n := Nat.toList_repr
      rw [shown]
      exact isWord_toDigits n
  | negSucc n =>
      rw [toList_negSucc]
      exact ⟨List.cons_ne_nil _ _, List.forall_mem_cons.mpr ⟨rfl, (isWord_toDigits (n + 1)).solid⟩⟩

end KnowledgeCompiler.Text

namespace KnowledgeCompiler.Nnf

variable {α : Type} [DecidableEq α] {feed carriage : α} {lines : List (List α)}

/-- Without a line feed nothing ends; induction on what comes before it. -/
theorem splitLines_append {part : List α} (unfed : feed ∉ part) (begun rest : List α)
    : splitLines feed carriage begun (part ++ rest) = splitLines feed carriage (part.reverse ++ begun) rest := by
  induction part generalizing begun with
  | nil => rfl
  | cons a part ih =>
      rw [List.mem_cons, not_or] at unfed
      rw [List.cons_append, splitLines, if_neg (Ne.symm unfed.1), ih unfed.2, List.reverse_cons, List.append_assoc]
      rfl

/-- Lines that end with line feeds fall into these lines; induction on the lines. -/
theorem splitLines_flatMap (plain : ∀ line ∈ lines, feed ∉ line ∧ carriage ∉ line)
    : splitLines feed carriage [] (lines.flatMap (· ++ [feed])) = lines := by
  induction lines with
  | nil => rfl
  | cons line rest ih =>
      obtain ⟨here, later⟩ := List.forall_mem_cons.mp plain
      have kept : line.reverse.head? ≠ some carriage := fun head =>
        here.2 (List.mem_reverse.mp (List.mem_of_head? head))
      rw [List.flatMap_cons, List.append_assoc, List.singleton_append, splitLines_append here.1, List.append_nil,
        splitLines, if_pos rfl]
      dsimp only
      rw [if_neg kept, List.reverse_reverse, ih later]

/-- The line of some words. -/
theorem toList_spaced (words : List String) : (spaced words).toList = [' '].intercalate (words.map String.toList) :=
  String.toList_intercalate

end KnowledgeCompiler.Nnf
