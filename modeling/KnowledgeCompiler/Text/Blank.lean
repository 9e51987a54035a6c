/-! Blank characters and the words between them. -/

namespace KnowledgeCompiler.Text

/-- The characters with the white space property: controls from tab to carriage return, the
spaces, and the line and paragraph separators.
-/
def isBlank (c : Char) : Bool :=
  let code := c.toNat
  (9 ≤ code && code ≤ 13) || code == 32 || code == 0x85 || code == 0xA0 || code == 0x1680
    || (0x2000 ≤ code && code ≤ 0x200A) || code == 0x2028 || code == 0x2029 || code == 0x202F
    || code == 0x205F || code == 0x3000

/-- The words of a text that continues a word begun with `started`. -/
def wordsAfter (started : List Char) : List Char → List (List Char)
  | [] => if started.isEmpty then [] else [started]
  | c :: rest =>
      if isBlank c then
        if started.isEmpty then wordsAfter [] rest else started :: wordsAfter [] rest
      else wordsAfter (started ++ [c]) rest

/-- The longest runs of characters that are not blank. -/
def words (text : List Char) : List (List Char) := wordsAfter [] text

end KnowledgeCompiler.Text
