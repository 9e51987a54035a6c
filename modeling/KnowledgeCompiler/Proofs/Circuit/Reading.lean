import KnowledgeCompiler.Circuit.Nnf
import KnowledgeCompiler.Proofs.Circuit.Growth

/-! Reading a circuit from a text makes nodes like any other request, line by line. -/

namespace KnowledgeCompiler.Nnf

open KnowledgeCompiler.Build

variable {c : Circuit} {α : Type} {line : Nat} {seen : Seen} {tokens : List (List Char)}

theorem number_grows {parse : List Char → Option α} {token : List Char}
    : Grows c (number line parse token) fun _ _ => True := by
  unfold number
  split
  · exact .pure trivial
  · exact .fail

/-- The named nodes in turn; induction on them. -/
theorem childNodes_grows : Grows c (childNodes line tokens) fun _ _ => True := by
  induction tokens generalizing c with
  | nil => exact .pure trivial
  | cons token rest ih =>
      refine Grows.bind (@number_grows c Nat line _ token) fun position d _ _ => .current ?_
      split
      · exact .failed
      · exact ih.bind fun _ _ _ _ => .pure trivial

theorem children_grows : Grows c (children line tokens) fun _ _ => True := by
  cases tokens with
  | nil => exact .fail
  | cons declared rest =>
      refine Grows.bind (@number_grows c Nat line _ declared) fun expected d _ _ => ?_
      dsimp only
      split
      · exact .failed
      · exact childNodes_grows

theorem readHeader_grows {text : List Char} : Grows c (readHeader line text tokens seen) fun _ _ => True := by
  unfold readHeader
  dsimp only
  split
  · exact .failed
  · split
    · refine Grows.bind number_grows fun nodes c₁ _ _ => ?_
      refine Grows.bind number_grows fun edges c₂ _ _ => ?_
      exact Grows.bind number_grows fun vars c₃ _ _ => .pure trivial
    · exact .fail

theorem readLiteral_grows : Grows c (readLiteral line tokens seen) fun _ _ => True := by
  unfold readLiteral
  split
  · refine Grows.bind number_grows fun l c₁ _ _ => ?_
    dsimp only
    split
    · exact .failed
    · rw [Action.discard_bind]
      exact (literal_grows l).bind fun _ _ _ _ => .pure trivial
  · exact .fail

theorem readConjunction_grows : Grows c (readConjunction line tokens seen) fun _ _ => True := by
  refine Grows.bind children_grows fun ids c₁ _ _ => ?_
  rw [Action.discard_bind]
  exact (conjunction_grows ids).bind fun _ _ _ _ => .pure trivial

theorem readDisjunction_grows : Grows c (readDisjunction line tokens seen) fun _ _ => True := by
  unfold readDisjunction
  split
  · refine Grows.bind number_grows fun decision c₁ _ _ => ?_
    refine Grows.bind children_grows fun ids c₂ _ _ => ?_
    rw [Action.discard_bind]
    exact (disjunction_grows ids _).bind fun _ _ _ _ => .pure trivial
  · exact .fail

theorem readLine_grows (text : List Char) : Grows c (readLine line text seen) fun _ _ => True := by
  unfold readLine
  split
  · exact .pure trivial
  · dsimp only
    split
    · exact .pure trivial
    · split
      · exact readHeader_grows
      · split
        · exact .failed
        · split
          · exact readLiteral_grows
          · exact readConjunction_grows
          · exact readDisjunction_grows
          · exact .fail

/-- The lines in turn; induction on them. -/
theorem readLines_grows (all : List (Option (List Char)))
    : Grows c (readLines line all seen) fun _ _ => True := by
  induction all generalizing c line seen with
  | nil => exact .pure trivial
  | cons text rest ih =>
      cases text with
      | none => exact .fail
      | some text => exact (readLine_grows text).bind fun _ _ _ _ => ih

theorem compareHeader_grows (header : Header) (nodes : Nat)
    : Grows c (compareHeader header nodes seen) fun _ _ => True := by
  have noted (wanted : Bool) (event : Event) {next : Unit → Build Unit}
      (then_ : ∀ {d}, Grows d (next ()) fun _ _ => True) {d : Circuit}
      : Grows d (if wanted then Action.note event >>= next else next ()) fun _ _ => True := by
    split
    · exact Grows.note.bind fun _ _ _ _ => then_
    · exact then_
  unfold compareHeader
  apply noted
  intro d
  apply noted
  intro e
  dsimp only
  split
  · exact .note
  · exact .pure trivial

/-- Reading a text only adds nodes. -/
theorem readAll_grows (all : List (Option (List Char))) : Grows c (readAll all) fun _ _ => True := by
  refine (setSharing_grows false).bind fun _ c₁ _ _ => ?_
  refine (readLines_grows all).bind fun seen c₂ _ _ => ?_
  split
  · exact .fail
  · rename_i header _
    refine .current ?_
    dsimp only
    split
    · exact .failed
    · refine (compareHeader_grows header _).bind fun _ c₃ _ _ => ?_
      exact (setSharing_grows true).bind fun _ c₄ _ _ => setRoot_grows _

end KnowledgeCompiler.Nnf
