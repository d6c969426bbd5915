/-
# Frames

A frame is the activation record of one function. Offsets are relative to the
frame pointer, which is the lowest address of the record:

* the static link is at offset zero;
* the parameters follow, one word each;
* the locals come next, in the order of their declarations;
* the caller's frame pointer is saved in the last word.

The machine relies on this convention and on nothing else about a function.
-/

import TreeCode.Label
import TreeCode.Word

namespace TreeCode

/-- The shape of a function's activation record. -/
structure Frame where
  /-- The place where the code of the function starts. -/
  label : Label
  /-- The nesting level: one for a function that no other function encloses. -/
  level : Int
  /-- The offset of each parameter slot, in the order of the parameters. -/
  params : List Word
  /-- The number of bytes of the record. -/
  size : Word
  /-- The offset of the word that saves the caller's frame pointer. -/
  linkOffset : Word
deriving DecidableEq, Repr

end TreeCode
