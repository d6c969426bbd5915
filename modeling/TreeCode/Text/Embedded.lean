/-
# Parts without a printed form

A few things have no printed form of their own: a negative number in a table of
names, and an absent statement. Asking for the text of one fails with a cause. A
larger text that embeds such a part still prints, and reports the cause in its
place.
-/

namespace TreeCode

/-- Why something has no printed form. -/
inductive TextError where
  | negativeCode (code : Int)
  | absentStatement
deriving DecidableEq, Repr

namespace TextError

/-- The wording of a cause. -/
def message : TextError → String
  | negativeCode code => s!"index out of range [{code}]"
  | absentStatement => "invalid memory address or nil pointer dereference"

/-- A printed part inside a larger text: the text itself, or a report of why
there is none. -/
def embed : Except TextError String → String
  | .ok s => s
  | .error e => "%!s(PANIC=String method: runtime error: " ++ e.message ++ ")"

/-- What stands in a larger text where a statement or a place is absent. -/
def absentText : String :=
  "%!s(<nil>)"

end TextError

namespace Text

/-- The name of a number in a table. Numbers beyond the table are shown as such
under the name of the family; negative ones have no printed form. -/
def ofCode (table : List String) (family : String) (code : Int) : Except TextError String :=
  if code < 0 then .error (.negativeCode code)
  else .ok ((table[code.toNat]?).getD s!"{family}({code})")

end Text

end TreeCode
