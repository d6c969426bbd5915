/-
# Wrapping

Wrapping puts the words of a text on lines, with one blank between the words of a
line. A word goes on the current line if the line stays within a width, counted in
bytes, and otherwise starts a new line. A word that is wider than that stands on a
line of its own.
-/

import TreeCode.Text.Blank

namespace TreeCode.Text

/-- Put words on lines, the first of which has begun already. -/
def fillLines (width : Int) (line : String) : List String → List String
  | [] => [line]
  | word :: rest =>
    if (line.utf8ByteSize : Int) + 1 + word.utf8ByteSize > width then
      line :: fillLines width word rest
    else
      fillLines width (line ++ " " ++ word) rest

/-- The lines of a text within a width. -/
def wrap (width : Int) (s : String) : List String :=
  match words s with
  | [] => []
  | word :: rest => fillLines width word rest

end TreeCode.Text
