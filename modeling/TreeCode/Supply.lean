/-
# Supply of labels and temps

One compilation draws all its labels and temps from one supply. Label names are
unique: a declared name that is already taken gets a number after a `#`, and the
generated names `L0`, `L1`, … and `S0`, `S1`, … skip every name that is taken.

Both searches look at one candidate more than there are taken names, so they
always find a free one.
-/

import TreeCode.Label

namespace TreeCode

/-- What one compilation has handed out so far. -/
structure Supply where
  /-- The number of the next candidate for a jump label. -/
  labels : Nat
  /-- The number of the next candidate for a string label. -/
  strings : Nat
  /-- The number of the next temp. -/
  temps : Nat
  /-- The names handed out, each with the last number that was appended to it. A
  later entry for a name replaces an earlier one. -/
  taken : List (String × Nat)

namespace Supply

/-- The supply at the start of a compilation. -/
def empty : Supply :=
  ⟨0, 0, Temp.firstFree, []⟩

/-- Whether no label of this name has been handed out. -/
def isFree (s : Supply) (name : String) : Bool :=
  (s.taken.lookup name).isNone

/-- The first number from `start` on whose candidate name is free. -/
def firstFree (s : Supply) (candidate : Nat → String) (start : Nat) : Nat :=
  ((List.range' start (s.taken.length + 1)).find? fun k => s.isFree (candidate k)).getD start

/-- A declared name with a number that tells it from its namesakes. -/
def numbered (name : String) (k : Nat) : String :=
  name ++ "#" ++ toString k

/-- A label for a declared name, numbered if the name is taken. -/
def named (s : Supply) (name : String) : Label × Supply :=
  match s.taken.lookup name with
  | none => (.ofName name, { s with taken := (name, 0) :: s.taken })
  | some k =>
    let j := s.firstFree (numbered name) (k + 1)
    (.ofName (numbered name j),
      { s with taken := (numbered name j, 0) :: (name, j) :: s.taken })

/-- A fresh jump label. -/
def label (s : Supply) : Label × Supply :=
  let candidate (k : Nat) := "L" ++ toString k
  let j := s.firstFree candidate s.labels
  (.ofName (candidate j), { s with labels := j + 1, taken := (candidate j, 0) :: s.taken })

/-- A fresh label for the bytes of a string literal. -/
def string (s : Supply) : Label × Supply :=
  let candidate (k : Nat) := "S" ++ toString k
  let j := s.firstFree candidate s.strings
  (.ofName (candidate j), { s with strings := j + 1, taken := (candidate j, 0) :: s.taken })

/-- A fresh temp. -/
def temp (s : Supply) : Temp × Supply :=
  (⟨s.temps⟩, { s with temps := s.temps + 1 })

end Supply

end TreeCode
