/-
# Quantities for human readers

Byte counts are shown with a binary unit and two or three significant digits, and
plain counts with a comma after every three digits.

The unit of a byte count and the digits before it are found in binary floating
point with 53 significant bits. The unit is chosen by the logarithm of the count,
which is rounded as well, so a count that is a few bytes short of the two largest
units already takes them.
-/

import TreeCode.Word

namespace TreeCode.Quantity

/-- The nearest number with at most 53 significant bits; of two equally near ones
the one with an even last bit. -/
def roundBits (n : Nat) : Nat :=
  let excess := n.log2 + 1 - 53
  let unit := Nat.pow 2 excess
  let quotient := n / unit
  let rest := n % unit
  let up := 2 * rest > unit || (2 * rest == unit && quotient % 2 == 1 && excess > 0)
  (if up then quotient + 1 else quotient) * unit

/-- The units of byte counts. -/
def units : List String :=
  ["B", "KiB", "MiB", "GiB", "TiB", "PiB", "EiB"]

/-- The least counts that take the units after the first. -/
def thresholds : List Nat :=
  [Nat.pow 2 10, Nat.pow 2 20, Nat.pow 2 30, Nat.pow 2 40, Nat.pow 2 50 - 3,
    Nat.pow 2 60 - 6144]

/-- A number of tenths as text: with one place below ten, and else rounded to a
whole number, a half to the even one. -/
def tenthsText (tenths : Nat) : String :=
  let whole := tenths / 10
  let rest := tenths % 10
  if tenths < 100 then s!"{whole}.{rest}"
  else if rest > 5 || (rest == 5 && whole % 2 == 1) then toString (whole + 1)
  else toString whole

/-- A byte count without a sign. -/
def magnitudeText (n : Nat) : String :=
  if n < 10 then s!"{n} B"
  else
    let rounded := roundBits n
    let step := (thresholds.filter (· ≤ rounded)).length
    let scale := Nat.pow 1024 step
    let tenths := roundBits (roundBits (rounded * 10 * 2) + scale) / (2 * scale)
    tenthsText tenths ++ " " ++ (units[step]?).getD ""

/-- A byte count. -/
def bytesText (w : Word) : String :=
  (if w < 0 then "-" else "") ++ magnitudeText w.toInt.natAbs

/-- Put a comma before every group of three digits that follows others. The digits
are given in reverse. -/
def groupReversed : List Char → List Char
  | a :: b :: c :: d :: rest => a :: b :: c :: ',' :: groupReversed (d :: rest)
  | cs => cs

/-- A count. -/
def countText (w : Word) : String :=
  let digits := (toString w.toInt.natAbs).toList
  (if w < 0 then "-" else "") ++ String.ofList (groupReversed digits.reverse).reverse

end TreeCode.Quantity
