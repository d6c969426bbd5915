/-
# Labels and temps

A label marks a place in code or data. Two labels may print alike and still be
different places, so a label carries a key beside its name: the key tells labels
apart and the name is what a listing shows. Labels made from a bare name use that
name as their key.

A temp is a register of one activation. The first two are reserved: the frame
pointer, which the machine maintains, and the return value.
-/

namespace TreeCode

/-- A place in code or data, told apart by its key and shown by its name. -/
structure Label where
  key : String
  name : String
deriving DecidableEq, Repr

namespace Label

/-- The label that is known by its name alone. -/
def ofName (name : String) : Label :=
  ⟨name, name⟩

@[simp]
theorem ofName_name (name : String) : (ofName name).name = name := rfl

end Label

/-- A register local to one activation. -/
structure Temp where
  index : Int
deriving DecidableEq, Repr

namespace Temp

/-- The frame pointer. -/
def fp : Temp := ⟨0⟩

/-- The return value. -/
def rv : Temp := ⟨1⟩

/-- The index of the first temp that is free for general use. -/
def firstFree : Nat := 2

/-- The name under which listings show a temp. -/
def name (t : Temp) : String :=
  if t = fp then "FP" else if t = rv then "RV" else "T" ++ toString t.index

end Temp

end TreeCode
