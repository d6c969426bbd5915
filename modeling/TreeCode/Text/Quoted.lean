/-
# Quoted text

A quoted text stands between double quotes. A double quote and a backslash inside
it are marked with a backslash, so the end of the text can be found. Control
characters have short escapes where there are customary ones and numbers
otherwise; every printable character stands for itself.
-/

import TreeCode.Text.Printable

namespace TreeCode.Text

/-- A number in lower-case hexadecimal digits, with leading zeros up to a width. -/
def hexPadded (width : Nat) (n : Nat) : List Char :=
  let digits := Nat.toDigits 16 n
  List.replicate (width - digits.length) '0' ++ digits

/-- The escape of a character that does not stand for itself. -/
def escape (c : Char) : List Char :=
  if c.toNat == 7 then ['\\', 'a']
  else if c.toNat == 8 then ['\\', 'b']
  else if c.toNat == 12 then ['\\', 'f']
  else if c.toNat == 10 then ['\\', 'n']
  else if c.toNat == 13 then ['\\', 'r']
  else if c.toNat == 9 then ['\\', 't']
  else if c.toNat == 11 then ['\\', 'v']
  else if c.toNat < 0x80 then '\\' :: 'x' :: hexPadded 2 c.toNat
  else if c.toNat < 0x10000 then '\\' :: 'u' :: hexPadded 4 c.toNat
  else '\\' :: 'U' :: hexPadded 8 c.toNat

/-- How a character is written inside a quoted text. -/
def quotedChar (c : Char) : List Char :=
  if c == '"' || c == '\\' then ['\\', c]
  else if isPrintable c then [c]
  else escape c

/-- A text between double quotes. -/
def quoted (s : String) : String :=
  String.ofList ('"' :: s.toList.flatMap quotedChar ++ ['"'])

end TreeCode.Text
