/-
# Numerals

Integers are read from text in two ways. A *decimal* numeral is an optional sign
and decimal digits. A *literal* may also carry a base: `0x`, `0o` or `0b` in either
case, or a leading zero for octal; underscores may separate its digits, but only
between two digits or between the base and a digit.

Digits are read from left to right, and the first of two faults wins: a character
that is no digit of the base, or a value that no word can hold.
-/

import TreeCode.Text.Quoted
import TreeCode.Text.Utf8
import TreeCode.Word

namespace TreeCode.Text

/-- Why a text is no number. -/
inductive NumeralError where
  | syntaxError
  | outOfRange
deriving DecidableEq, Repr

/-- The wording of a cause. -/
def NumeralError.message : NumeralError → String
  | syntaxError => "invalid syntax"
  | outOfRange => "value out of range"

/-- The value of a digit, in any base up to 36. -/
def digitValue? (c : Char) : Option Nat :=
  if '0' ≤ c ∧ c ≤ '9' then some (c.toNat - '0'.toNat)
  else if 'a' ≤ c ∧ c ≤ 'z' then some (c.toNat - 'a'.toNat + 10)
  else if 'A' ≤ c ∧ c ≤ 'Z' then some (c.toNat - 'A'.toNat + 10)
  else none

/-- Whether a character is a hexadecimal digit. -/
def isHexDigit (c : Char) : Bool :=
  c.isDigit || ('a' ≤ c && c ≤ 'f') || ('A' ≤ c && c ≤ 'F')

/-- The value of digits in a base, whatever their number. -/
def natOfDigits (base : Nat) (cs : List Char) : Nat :=
  cs.foldl (fun n c => n * base + (digitValue? c).getD 0) 0

/-- The value of hexadecimal digits. -/
def hexValue? (digits : List Char) : Option Nat :=
  if digits.all isHexDigit then some (natOfDigits 16 digits) else none

/-- The character of a code. Codes of no character give the replacement character. -/
def charOfCode (n : Nat) : Char :=
  if n.isValidChar then Char.ofNat n else replacement

/-- The character of a code in hexadecimal digits. -/
def charOfHex? (digits : List Char) : Option Char :=
  (hexValue? digits).map charOfCode

/-- Read digits after those of the given value, as long as the value stays below
`Word.span`. Separators are skipped if they are allowed. -/
def readDigits (base : Nat) (separators : Bool) (value : Nat) :
    List Char → Except NumeralError Nat
  | [] => .ok value
  | c :: cs =>
    if separators && c == '_' then readDigits base separators value cs
    else
      match digitValue? c with
      | none => .error .syntaxError
      | some d =>
        if d ≥ base then .error .syntaxError
        else if value * base + d ≥ Word.span then .error .outOfRange
        else readDigits base separators (value * base + d) cs

/-- Split a sign off a numeral. -/
def splitSign : List Char → Bool × List Char
  | '+' :: cs => (false, cs)
  | '-' :: cs => (true, cs)
  | cs => (false, cs)

/-- The word of a sign and a magnitude. -/
def signed (negative : Bool) (magnitude : Nat) : Except NumeralError Word :=
  if negative then
    if magnitude > Word.limit then .error .outOfRange else .ok (Int64.ofInt (-magnitude))
  else
    if magnitude ≥ Word.limit then .error .outOfRange else .ok (Int64.ofNat magnitude)

/-- Read a decimal numeral. -/
def readDecimal (s : String) : Except NumeralError Word := do
  let (negative, digits) := splitSign s.toList
  if digits.isEmpty then throw .syntaxError
  signed negative (← readDigits 10 false 0 digits)

/-- Split the base off an unsigned literal. A base needs at least one character
after it; a lone leading zero stands for octal. -/
def splitBase : List Char → Nat × List Char
  | '0' :: b :: c :: rest =>
    if b == 'b' || b == 'B' then (2, c :: rest)
    else if b == 'o' || b == 'O' then (8, c :: rest)
    else if b == 'x' || b == 'X' then (16, c :: rest)
    else (8, b :: c :: rest)
  | '0' :: rest => (8, rest)
  | cs => (10, cs)

/-- What stands before a character of a literal. -/
inductive Before where
  | start
  | digit
  | separator
  | other
deriving DecidableEq

/-- Whether every underscore follows a digit and is followed by one. -/
def separatorsFit (hex : Bool) : Before → List Char → Bool
  | before, [] => before != .separator
  | before, c :: cs =>
    if c.isDigit || (hex && (digitValue? c).any (· < 16)) then separatorsFit hex .digit cs
    else if c == '_' then before == .digit && separatorsFit hex .separator cs
    else before != .separator && separatorsFit hex .other cs

/-- Whether the underscores of an unsigned literal separate its digits. A base
counts as a digit. -/
def separatorsOk : List Char → Bool
  | '0' :: b :: rest =>
    if b == 'x' || b == 'X' then separatorsFit true .digit rest
    else if b == 'b' || b == 'B' || b == 'o' || b == 'O' then separatorsFit false .digit rest
    else separatorsFit false .start ('0' :: b :: rest)
  | cs => separatorsFit false .start cs

/-- Read a literal. -/
def readLiteral (s : String) : Except NumeralError Word := do
  let (negative, digits) := splitSign s.toList
  if digits.isEmpty then throw .syntaxError
  let (base, rest) := splitBase digits
  let magnitude ← readDigits base true 0 rest
  if rest.contains '_' && !separatorsOk digits then throw .syntaxError
  signed negative magnitude

/-- Read a truth value. -/
def readTruth? (s : String) : Option Bool :=
  if ["1", "t", "T", "TRUE", "true", "True"].contains s then some true
  else if ["0", "f", "F", "FALSE", "false", "False"].contains s then some false
  else none

end TreeCode.Text
