/-
# JSON

Values of the JSON format, their reader and their printer. Objects keep their members
in order, repeated names included. Numbers are kept as they are written. A text whose
lists and objects stand too deep in one another is refused.

The printer sets every member and item on a line of its own, two blanks deeper than
what it is in. Angle brackets and ampersands in strings are written as numbers, so
that a text may stand in a web page.
-/

import TreeCode.Text.Numeral

namespace TreeCode.Json

/-- A value. -/
inductive Value where
  | null
  | truth (value : Bool)
  | number (numeral : String)
  | text (value : String)
  | list (items : List Value)
  | object (members : List (String × Value))

/-- Whether a character is a blank between values. -/
def isSpace (c : Char) : Bool :=
  c == ' ' || c == '\t' || c == '\r' || c == '\n'

/-- A text without blanks at its start. -/
def skipSpace (cs : List Char) : List Char :=
  cs.dropWhile isSpace

/-- The character of an escape of one letter. -/
def escaped? : Char → Option Char
  | '"' => some '"'
  | '\\' => some '\\'
  | '/' => some '/'
  | 'b' => some '\x08'
  | 'f' => some '\x0c'
  | 'n' => some '\n'
  | 'r' => some '\r'
  | 't' => some '\t'
  | _ => none

/-- The code that a pair of surrogates stands for. -/
def pairCode? (high low : Nat) : Option Nat :=
  if 0xD800 ≤ high && high < 0xDC00 && 0xDC00 ≤ low && low < 0xE000 then
    some ((high - 0xD800) * 0x400 + (low - 0xDC00) + 0x10000)
  else none

/-- The rest of a string up to its closing quote, and what follows. A surrogate
without its partner gives the replacement character. -/
def stringRest? : List Char → Option (List Char × List Char)
  | [] => none
  | '"' :: cs => some ([], cs)
  | '\\' :: 'u' :: a :: b :: c :: d :: cs => do
    let high ← Text.hexValue? [a, b, c, d]
    match cs with
    | '\\' :: 'u' :: e :: f :: g :: h :: more =>
      match (Text.hexValue? [e, f, g, h]).bind (pairCode? high) with
      | some code => (stringRest? more).map fun (s, rest) => (Text.charOfCode code :: s, rest)
      | none =>
        (stringRest? ('\\' :: 'u' :: e :: f :: g :: h :: more)).map fun (s, rest) =>
          (Text.charOfCode high :: s, rest)
    | cs => (stringRest? cs).map fun (s, rest) => (Text.charOfCode high :: s, rest)
  | '\\' :: c :: cs => do
    let x ← escaped? c
    let (s, rest) ← stringRest? cs
    return (x :: s, rest)
  | c :: cs =>
    if c.toNat < 0x20 then none
    else (stringRest? cs).map fun (s, rest) => (c :: s, rest)

/-- The digits at the start of a text and what follows, if there are any. -/
def digits? (cs : List Char) : Option (List Char × List Char) :=
  match cs.takeWhile Char.isDigit with
  | [] => none
  | ds => some (ds, cs.dropWhile Char.isDigit)

/-- The numeral at the start of a text, and what follows: an optional minus, digits
without a needless zero, and perhaps a fraction and an exponent. -/
def numeral? (cs : List Char) : Option (List Char × List Char) := do
  let (sign, cs) := match cs with
    | '-' :: cs => (['-'], cs)
    | cs => ([], cs)
  let (whole, cs) ← match cs with
    | '0' :: cs => some (['0'], cs)
    | cs => digits? cs
  let (fraction, cs) ← match cs with
    | '.' :: cs => (digits? cs).map fun (ds, cs) => ('.' :: ds, cs)
    | cs => some ([], cs)
  let (exponent, cs) ← match cs with
    | e :: cs =>
      if e == 'e' || e == 'E' then
        let (sign, cs) := match cs with
          | '+' :: cs => (['+'], cs)
          | '-' :: cs => (['-'], cs)
          | cs => ([], cs)
        (digits? cs).map fun (ds, cs) => (e :: sign ++ ds, cs)
      else some ([], e :: cs)
    | [] => some ([], [])
  return (sign ++ whole ++ fraction ++ exponent, cs)

/-- How deep lists and objects may stand in one another. -/
def deepest : Nat :=
  10000

mutual

/-- The value at the start of a text, and what follows. Lists and objects are no
deeper than `room`, and there are no more steps than `fuel`. -/
def value? : Nat → Nat → List Char → Option (Value × List Char)
  | 0, _, _ => none
  | fuel + 1, room, cs =>
    match skipSpace cs, room with
    | 'n' :: 'u' :: 'l' :: 'l' :: rest, _ => some (.null, rest)
    | 't' :: 'r' :: 'u' :: 'e' :: rest, _ => some (.truth true, rest)
    | 'f' :: 'a' :: 'l' :: 's' :: 'e' :: rest, _ => some (.truth false, rest)
    | '"' :: rest, _ => do
      let (s, rest) ← stringRest? rest
      return (.text (String.ofList s), rest)
    | '[' :: rest, room + 1 =>
      match skipSpace rest with
      | ']' :: rest => some (.list [], rest)
      | rest => do
        let (items, rest) ← items? fuel room rest
        return (.list items, rest)
    | '\x7b' :: rest, room + 1 =>
      match skipSpace rest with
      | '\x7d' :: rest => some (.object [], rest)
      | rest => do
        let (members, rest) ← members? fuel room rest
        return (.object members, rest)
    | rest, _ => do
      let (numeral, rest) ← numeral? rest
      return (.number (String.ofList numeral), rest)

/-- The items of a list, of which there is at least one, up to its end. -/
def items? : Nat → Nat → List Char → Option (List Value × List Char)
  | 0, _, _ => none
  | fuel + 1, room, cs => do
    let (v, rest) ← value? fuel room cs
    match skipSpace rest with
    | ',' :: rest =>
      let (vs, rest) ← items? fuel room rest
      return (v :: vs, rest)
    | ']' :: rest => return ([v], rest)
    | _ => none

/-- The members of an object, of which there is at least one, up to its end. -/
def members? : Nat → Nat → List Char → Option (List (String × Value) × List Char)
  | 0, _, _ => none
  | fuel + 1, room, cs =>
    match skipSpace cs with
    | '"' :: rest => do
      let (name, rest) ← stringRest? rest
      match skipSpace rest with
      | ':' :: rest =>
        let (v, rest) ← value? fuel room rest
        match skipSpace rest with
        | ',' :: rest =>
          let (ms, rest) ← members? fuel room rest
          return ((String.ofList name, v) :: ms, rest)
        | '\x7d' :: rest => return ([(String.ofList name, v)], rest)
        | _ => none
      | _ => none
    | _ => none

end

/-- The value that bytes describe. Nothing but blanks may follow it. -/
def read? (bytes : List UInt8) : Option Value := do
  let cs := Text.decode bytes
  let (v, rest) ← value? (2 * cs.length + 2) deepest cs
  if (skipSpace rest).isEmpty then some v else none

/-- How a character is written in a string. -/
def quotedChar (c : Char) : List Char :=
  if c == '"' || c == '\\' then ['\\', c]
  else if c == '\n' then ['\\', 'n']
  else if c == '\r' then ['\\', 'r']
  else if c == '\t' then ['\\', 't']
  else if c.toNat == 8 then ['\\', 'b']
  else if c.toNat == 12 then ['\\', 'f']
  else if c.toNat < 0x20 || c == '<' || c == '>' || c == '&' || c.toNat == 0x2028 ||
      c.toNat == 0x2029 then
    '\\' :: 'u' :: Text.hexPadded 4 c.toNat
  else [c]

/-- A text as a string. -/
def quoted (s : String) : String :=
  String.ofList ('"' :: s.toList.flatMap quotedChar ++ ['"'])

/-- The start of a line at a depth. -/
def lineStart (depth : Nat) : String :=
  "\n" ++ String.ofList (List.replicate (2 * depth) ' ')

mutual

/-- The printed form of a value at a depth. -/
def Value.renderAt (depth : Nat) : Value → String
  | .null => "null"
  | .truth b => if b then "true" else "false"
  | .number numeral => numeral
  | .text s => quoted s
  | .list [] => "[]"
  | .list (v :: vs) =>
    "[" ++ lineStart (depth + 1) ++ v.renderAt (depth + 1) ++ renderItems (depth + 1) vs ++
      lineStart depth ++ "]"
  | .object [] => "\x7b\x7d"
  | .object ((name, v) :: ms) =>
    "\x7b" ++ lineStart (depth + 1) ++ quoted name ++ ": " ++ v.renderAt (depth + 1) ++
      renderMembers (depth + 1) ms ++ lineStart depth ++ "\x7d"

/-- The printed form of further items. -/
def renderItems (depth : Nat) : List Value → String
  | [] => ""
  | v :: vs => "," ++ lineStart depth ++ v.renderAt depth ++ renderItems depth vs

/-- The printed form of further members. -/
def renderMembers (depth : Nat) : List (String × Value) → String
  | [] => ""
  | (name, v) :: ms =>
    "," ++ lineStart depth ++ quoted name ++ ": " ++ v.renderAt depth ++ renderMembers depth ms

end

/-- The printed form of a value. -/
def Value.render (v : Value) : String :=
  v.renderAt 0

end TreeCode.Json
