/-
# Numbers and moments of a settings file

An integer is decimal with an optional sign, or hexadecimal, octal or binary behind
`0x`, `0o` or `0b`. Underscores may stand between digits. A decimal integer of three
or more digits does not start with a zero. Integers have 64 bits; those from 2^63 on
are kept apart.

A number with a point or an exponent is checked for its form and for its size, which
must round to a double, but its value is of no use to any setting. The same holds for
dates and times.
-/

import TreeCode.Text.Numeral
import TreeCode.Toml.Value

namespace TreeCode.Toml

open Text (isHexDigit natOfDigits)

/-- Whether every underscore follows a digit and does not come last. -/
def underscoresFit (isDigit : Char → Bool) (afterDigit : Bool) : List Char → Bool
  | [] => true
  | c :: cs =>
    (c != '_' || (afterDigit && !cs.isEmpty)) && underscoresFit isDigit (isDigit c) cs

/-- The digits of a number, without underscores. -/
def digitsOnly (cs : List Char) : List Char :=
  cs.filter (· != '_')

/-- An integer as a scalar, if it has 64 bits. A negative or signed one has one bit
less. -/
def integerOfSize? (signed negative : Bool) (n : Nat) : Option Scalar :=
  if negative then
    if n ≤ Word.limit then some (.integer (Int64.ofInt (-n))) else none
  else if n < Word.limit then some (.integer (Int64.ofInt n))
  else if n < Word.span && !signed then some (.large (UInt64.ofNat n))
  else none

/-- The integer that a numeral stands for. -/
def integer? (numeral : List Char) : Option Scalar :=
  let unsigned (isDigit : Char → Bool) (base : Nat) (digits : List Char) : Option Scalar :=
    if underscoresFit isDigit false numeral then
      integerOfSize? false false (natOfDigits base digits)
    else none
  match digitsOnly numeral with
  | '0' :: 'x' :: d :: ds => unsigned isHexDigit 16 (d :: ds)
  | '0' :: 'o' :: d :: ds => unsigned Char.isDigit 8 (d :: ds)
  | '0' :: 'b' :: d :: ds => unsigned Char.isDigit 2 (d :: ds)
  | '0' :: _ :: _ :: _ => none
  | digits =>
    let (sign, digits) := match digits with
      | '-' :: ds => (some true, ds)
      | '+' :: ds => (some false, ds)
      | ds => (none, ds)
    if underscoresFit Char.isDigit false numeral && !digits.isEmpty && digits.all Char.isDigit then
      integerOfSize? sign.isSome (sign == some true) (natOfDigits 10 digits)
    else none

/-- Whether digits times a power of ten round to a double. Only sizes near the limit
are computed. -/
def fitsDouble (digits : List Char) (exponent : Int) : Bool :=
  let significant := digits.dropWhile (· == '0')
  let size : Int := significant.length + exponent
  if significant.isEmpty || size < 300 then true
  else if size > 320 then false
  else
    let limit := Nat.pow 2 1024 - Nat.pow 2 970
    let n := natOfDigits 10 significant
    if 0 ≤ exponent then n * Nat.pow 10 exponent.toNat < limit
    else n < limit * Nat.pow 10 (-exponent).toNat

/-- The exponent that digits stand for. Once it has reached ten thousand, further
digits do not count. -/
def exponentOf (digits : List Char) : Nat :=
  digits.foldl (fun e d => if e < 10000 then 10 * e + natOfDigits 10 [d] else e) 0

/-- Whether a numeral with a point or an exponent is well formed and fits. -/
def realFits (numeral : List Char) : Bool :=
  let unsigned := match digitsOnly numeral with
    | '+' :: cs => cs
    | '-' :: cs => cs
    | cs => cs
  let whole := unsigned.takeWhile Char.isDigit
  let (fraction, rest) := match unsigned.dropWhile Char.isDigit with
    | '.' :: cs => (cs.takeWhile Char.isDigit, cs.dropWhile Char.isDigit)
    | cs => ([], cs)
  let exponent : Option Int := match rest with
    | [] => some 0
    | e :: cs =>
      let (negative, digits) := match cs with
        | '-' :: ds => (true, ds)
        | '+' :: ds => (false, ds)
        | ds => (false, ds)
      if (e == 'e' || e == 'E') && !digits.isEmpty && digits.all Char.isDigit then
        let n := exponentOf digits
        some (if negative then -n else n)
      else none
  underscoresFit Char.isDigit false numeral && !(whole ++ fraction).isEmpty &&
    exponent.any fun e => fitsDouble (whole ++ fraction) (e - fraction.length)

/-- The longest run of characters of a decimal number, whether it has a point or an
exponent, and what follows. A point stands between digits and only once. -/
def decimalRun (point digit real : Bool) : List Char → Option (List Char × Bool × List Char)
  | '.' :: cs =>
    if point || !digit || !(cs.head?.any Char.isDigit) then none
    else (decimalRun true digit true cs).map fun (run, r) => ('.' :: run, r)
  | c :: s :: cs =>
    if c == 'e' || c == 'E' then
      if s == '+' || s == '-' then
        (decimalRun point digit true cs).map fun (run, r) => (c :: s :: run, r)
      else
        (decimalRun point digit true (s :: cs)).map fun (run, r) => (c :: run, r)
    else if c.isDigit || c == '_' then
      (decimalRun point (digit || c.isDigit) real (s :: cs)).map fun (run, r) => (c :: run, r)
    else if digit then some ([], real, c :: s :: cs) else none
  | [c] =>
    if c == 'e' || c == 'E' then if digit then some ([c], true, []) else none
    else if c.isDigit then some ([c], real, [])
    else if !digit then none
    else if c == '_' then some ([c], real, [])
    else some ([], real, [c])
  | [] => if digit then some ([], real, []) else none

/-- Whether a character is a digit in the base that a letter names. -/
def baseDigit? : Char → Option (Char → Bool)
  | 'x' => some isHexDigit
  | 'o' => some fun c => '0' ≤ c && c ≤ '7'
  | 'b' => some fun c => c == '0' || c == '1'
  | _ => none

/-- The number at the start of a text, and what follows. -/
def number? (cs : List Char) : Option (Scalar × List Char) :=
  let decimal (sign cs : List Char) : Option (Scalar × List Char) := do
    let (run, real, rest) ← decimalRun false false false cs
    if real then
      if realFits (sign ++ run) then some (.real, rest) else none
    else
      return (← integer? (sign ++ run), rest)
  match cs with
  | '+' :: 'i' :: 'n' :: 'f' :: rest => some (.real, rest)
  | '-' :: 'i' :: 'n' :: 'f' :: rest => some (.real, rest)
  | '+' :: 'n' :: 'a' :: 'n' :: rest => some (.real, rest)
  | '-' :: 'n' :: 'a' :: 'n' :: rest => some (.real, rest)
  | '+' :: rest => decimal ['+'] rest
  | '-' :: rest => decimal ['-'] rest
  | '0' :: c :: rest =>
    match baseDigit? c with
    | some isDigit =>
      let inNumeral (d : Char) : Bool := isDigit d || d == '_'
      (integer? ('0' :: c :: rest.takeWhile inNumeral)).map fun v =>
        (v, rest.dropWhile inNumeral)
    | none => if c.isAlpha then none else decimal [] cs
  | _ => decimal [] cs

/-- The value of two digits. -/
def twoDigits? (a b : Char) : Option Nat :=
  if a.isDigit && b.isDigit then some (natOfDigits 10 [a, b]) else none

/-- The number of days in a month. -/
def daysIn (year month : Nat) : Nat :=
  if month = 2 then
    if year % 4 = 0 && (year % 100 != 0 || year % 400 = 0) then 29 else 28
  else if month = 4 || month = 6 || month = 9 || month = 11 then 30
  else 31

/-- A time of day at the start of a text: what follows it. -/
def time? : List Char → Option (List Char)
  | h :: h' :: ':' :: m :: m' :: ':' :: s :: s' :: rest => do
    let hour ← twoDigits? h h'
    let minute ← twoDigits? m m'
    let second ← twoDigits? s s'
    if hour < 24 && minute < 60 && second < 60 then
      match rest with
      | '.' :: d :: rest => if d.isDigit then some (rest.dropWhile Char.isDigit) else none
      | '.' :: [] => none
      | rest => some rest
    else none
  | _ => none

/-- Whether an offset from universal time stands at the start of a text, and what
follows it. -/
def offset? : List Char → Option (Bool × List Char)
  | 'Z' :: rest => some (true, rest)
  | c :: rest =>
    if c == '+' || c == '-' then
      match rest with
      | h :: h' :: ':' :: m :: m' :: rest => do
        let hours ← twoDigits? h h'
        let minutes ← twoDigits? m m'
        if hours ≤ 24 && minutes ≤ 60 then some (true, rest) else none
      | _ => none
    else some (false, c :: rest)
  | [] => some (false, [])

/-- A date at the start of a text: what follows it. -/
def date? : List Char → Option (List Char)
  | a :: b :: c :: d :: '-' :: m :: m' :: '-' :: e :: e' :: rest => do
    let century ← twoDigits? a b
    let year ← twoDigits? c d
    let month ← twoDigits? m m'
    let day ← twoDigits? e e'
    if 1 ≤ month && month ≤ 12 && 1 ≤ day && day ≤ daysIn (century * 100 + year) month then
      some rest
    else none
  | _ => none

end TreeCode.Toml
