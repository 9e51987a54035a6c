import KnowledgeCompiler.Text.Numeral

/-! Numerals are read back as the numbers that they were written for. -/

namespace KnowledgeCompiler.Text

variable {largest n : Nat} {smallest greatest i : Int} {text : List Char}

theorem digitsFrom_of_isDigit (value : Nat) (digits : ∀ c ∈ text, c.isDigit = true)
    : digitsFrom value text = some (Nat.ofDigitChars 10 text value) := by
  induction text generalizing value with
  | nil => rw [digitsFrom, Nat.ofDigitChars_nil]
  | cons c rest ih =>
      obtain ⟨first, later⟩ := List.forall_mem_cons.mp digits
      rw [digitsFrom, if_pos first, ih _ later, Nat.ofDigitChars_cons, Nat.mul_comm 10]

theorem isDigit_toDigits (n : Nat) : ∀ c ∈ Nat.toDigits 10 n, c.isDigit = true := fun _ member =>
  Nat.isDigit_of_mem_toDigits (by decide) (by decide) member

/-- The digits of a number. -/
theorem digits?_toDigits (n : Nat) : digits? (Nat.toDigits 10 n) = some n := by
  have read := digitsFrom_of_isDigit 0 (isDigit_toDigits n)
  rw [Nat.ofDigitChars_ten_toDigits] at read
  unfold digits?
  split
  · rename_i none_
    exact absurd none_ Nat.toDigits_ne_nil
  · exact read

/-- Digits do not begin with a sign. -/
theorem head_toDigits {c : Char} {rest : List Char} (starts : Nat.toDigits 10 n = c :: rest) : c ≠ '+' ∧ c ≠ '-' := by
  have digit := isDigit_toDigits n c (starts ▸ List.mem_cons_self)
  constructor
  · rintro rfl
    cases digit
  · rintro rfl
    cases digit

theorem natural?_toDigits (bound : n ≤ largest) : natural? largest (Nat.toDigits 10 n) = some n := by
  unfold natural?
  split
  · rename_i starts
    exact absurd rfl (head_toDigits starts).1
  · rw [digits?_toDigits]
    exact if_pos bound

/-- A number is read back. -/
theorem natural?_toString (bound : n ≤ largest) : natural? largest (toString n).toList = some n := by
  rw [Nat.toString_eq_repr, Nat.toList_repr]
  exact natural?_toDigits bound

theorem toList_negSucc (n : Nat) : (toString (Int.negSucc n)).toList = '-' :: Nat.toDigits 10 (n + 1) := by
  show ("-" ++ (n + 1).repr).toList = _
  rw [String.toList_append, Nat.toList_repr]
  rfl

/-- A number with a sign is read back. -/
theorem integer?_toString (lower : smallest ≤ i) (upper : i ≤ greatest)
    : integer? smallest greatest (toString i).toList = some i := by
  cases i with
  | ofNat n =>
      have shown : (toString (Int.ofNat n)).toList = Nat.toDigits 10 n := Nat.toList_repr
      rw [shown]
      unfold integer?
      split
      · rename_i starts
        exact absurd rfl (head_toDigits starts).1
      · rename_i starts
        exact absurd rfl (head_toDigits starts).2
      · rw [digits?_toDigits]
        exact if_pos ⟨lower, upper⟩
  | negSucc n =>
      rw [toList_negSucc]
      simp only [integer?, digits?_toDigits]
      exact if_pos ⟨lower, upper⟩

/-- What is read is within the bounds. -/
theorem integer?_bounds (read : integer? smallest greatest text = some i) : smallest ≤ i ∧ i ≤ greatest := by
  have within : ∀ {n : Int}, (if smallest ≤ n ∧ n ≤ greatest then some n else none) = some i
      → smallest ≤ i ∧ i ≤ greatest := by
    intro n same
    split at same
    · rename_i bounds
      exact Option.some.inj same ▸ bounds
    · cases same
  unfold integer? at read
  dsimp only at read
  split at read
  · obtain ⟨n, _, same⟩ := Option.bind_eq_some_iff.mp read
    exact within same
  · obtain ⟨n, _, same⟩ := Option.bind_eq_some_iff.mp read
    exact within same
  · obtain ⟨n, _, same⟩ := Option.bind_eq_some_iff.mp read
    exact within same

end KnowledgeCompiler.Text
