/-
# Blanks and words

Words are the longest runs of characters that are not white space. White space is
taken in the sense of Unicode: besides the ASCII blank and the usual control
characters it includes the no-break space and the typographic spaces.
-/

namespace TreeCode.Text

/-- Whether a character is white space. -/
def isBlank (c : Char) : Bool :=
  let n := c.toNat
  (9 ≤ n && n ≤ 13) || n == 0x20 || n == 0x85 || n == 0xA0 || n == 0x1680 ||
    (0x2000 ≤ n && n ≤ 0x200A) || n == 0x2028 || n == 0x2029 || n == 0x202F ||
    n == 0x205F || n == 0x3000

/-- The words of a text, given the reversed beginning of the word that it continues. -/
def wordsFrom (word : List Char) : List Char → List (List Char)
  | [] => if word.isEmpty then [] else [word.reverse]
  | c :: cs =>
    if isBlank c then
      if word.isEmpty then wordsFrom [] cs else word.reverse :: wordsFrom [] cs
    else
      wordsFrom (c :: word) cs

/-- The words of a text. -/
def words (s : String) : List String :=
  (wordsFrom [] s.toList).map String.ofList

end TreeCode.Text
