/-
# Padding

Columns of listings are padded with blanks to a least width that is counted in
code points. A text that is already as wide as its column is left alone: nothing
is ever cut.
-/

namespace TreeCode.Text

/-- Extend a text with blanks on its right up to the given number of code points. -/
def padRight (width : Nat) (s : String) : String :=
  s ++ String.ofList (List.replicate (width - s.length) ' ')

/-- Extend a text with blanks on its left up to the given number of code points. -/
def padLeft (width : Nat) (s : String) : String :=
  String.ofList (List.replicate (width - s.length) ' ') ++ s

/-- Two blanks for every level of nesting. -/
def indent (depth : Nat) : String :=
  String.ofList (List.replicate (2 * depth) ' ')

end TreeCode.Text
