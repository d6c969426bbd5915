/-
# Words

Every atomic value of the machine is one 64-bit two's-complement word. Arithmetic
wraps around; division and remainder truncate toward zero. Addresses, offsets
and byte counts are words as well, so an address computation wraps exactly as a
value computation does.
-/

namespace TreeCode

/-- A machine word: a 64-bit two's-complement integer. -/
abbrev Word := Int64

namespace Word

/-- The number of bytes one word occupies in memory. -/
def byteSize : Nat := 8

/-- The size of a word, as a word. -/
def size : Word := 8

/-- The number of words. -/
def span : Nat := 18446744073709551616

/-- The least natural number that is too large for a word. -/
def limit : Nat := 9223372036854775808

/-- A truth value as a word: one for true and zero for false. -/
def ofBool (b : Bool) : Word :=
  if b then 1 else 0

/-- The decimal text of a word, with a sign only when it is negative. -/
def text (w : Word) : String :=
  toString w.toInt

end Word

end TreeCode
