/-
# Tokens of a settings file

A text is cut into tokens from left to right, in one of two places. Between
statements a line may end anywhere, and a name is a key. After an equals sign stand
values; the end of the line leads back to statements, unless a list is open. A
comment goes to the end of its line. A date, a time and its offset are three tokens.

Strings are basic, in double quotes and with escapes, or literal, in single quotes.
Three quotes open a string over several lines, whose first line break does not
count. A backslash at the end of a line takes the blanks and line breaks behind it
with it.
-/

import TreeCode.Text.Utf8
import TreeCode.Toml.Number

namespace TreeCode.Toml

/-- A token. -/
inductive Token where
  /-- A key before an equals sign, with the quotes of its parts. -/
  | key (name : String)
  | equals
  | comma
  | openBracket
  | closeBracket
  | openBrace
  | closeBrace
  /-- The name between the brackets of a table. -/
  | tableName (name : String)
  | openTables
  | closeTables
  /-- The name between the double brackets of a list of tables. -/
  | tablesName (name : String)
  | scalar (value : Scalar)
  | date
  | time
  /-- The offset of a time from universal time. -/
  | offset
deriving DecidableEq, Repr

/-- Whether a character is a blank within a line. -/
def isSpace (c : Char) : Bool :=
  c == ' ' || c == '\t'

/-- Whether a character breaks a line. -/
def isBreak (c : Char) : Bool :=
  c == '\r' || c == '\n'

/-- Whether a character may stand in a key without quotes. -/
def isBareChar (c : Char) : Bool :=
  c.isAlphanum || c == '_' || c == '-'

/-- A text without a line break at its start. -/
def dropBreak : List Char → List Char
  | '\r' :: '\n' :: cs => cs
  | '\n' :: cs => cs
  | cs => cs

/-- The character of an escape of one letter. -/
def escaped? : Char → Option Char
  | '"' => some '"'
  | 'n' => some '\n'
  | 'b' => some '\x08'
  | 'f' => some '\x0c'
  | '/' => some '/'
  | 't' => some '\t'
  | 'r' => some '\r'
  | '\\' => some '\\'
  | _ => none

/-- The rest of a basic string up to its closing quotes, and what follows them.
Blanks are left out as long as `skipping` is set. Control characters are refused, but
for line breaks where they are admitted. -/
def basicString (triple breaks : Bool) : Bool → List Char → Option (List Char × List Char)
  | _, [] => none
  | _, '"' :: cs =>
    if triple then
      match cs with
      | '"' :: '"' :: rest => some ([], rest)
      | _ => (basicString triple breaks false cs).map fun (s, rest) => ('"' :: s, rest)
    else some ([], cs)
  | _, '\\' :: 'u' :: a :: b :: c :: d :: cs => do
    let x ← Text.charOfHex? [a, b, c, d]
    let (s, rest) ← basicString triple breaks false cs
    return (x :: s, rest)
  | _, '\\' :: 'U' :: a :: b :: c :: d :: e :: f :: g :: h :: cs => do
    let x ← Text.charOfHex? [a, b, c, d, e, f, g, h]
    let (s, rest) ← basicString triple breaks false cs
    return (x :: s, rest)
  | _, '\\' :: c :: cs =>
    if isSpace c || isBreak c then basicString triple breaks true cs
    else do
      let x ← escaped? c
      let (s, rest) ← basicString triple breaks false cs
      return (x :: s, rest)
  | skipping, c :: cs =>
    if skipping && (isSpace c || isBreak c) then basicString triple breaks true cs
    else if c.toNat < 0x20 && c != '\t' && !(breaks && isBreak c) then none
    else (basicString triple breaks false cs).map fun (s, rest) => (c :: s, rest)

/-- The rest of a literal string up to its closing quotes, and what follows them. -/
def literalString (triple : Bool) : List Char → Option (List Char × List Char)
  | [] => none
  | '\'' :: cs =>
    if triple then
      match cs with
      | '\'' :: '\'' :: rest => some ([], rest)
      | _ => (literalString triple cs).map fun (s, rest) => ('\'' :: s, rest)
    else some ([], cs)
  | c :: cs => (literalString triple cs).map fun (s, rest) => (c :: s, rest)

/-- The string at the start of a text, and what follows. -/
def string? : List Char → Option (List Char × List Char)
  | '"' :: '"' :: '"' :: cs => basicString true true false (dropBreak cs)
  | '"' :: cs => basicString false false false cs
  | '\'' :: '\'' :: '\'' :: cs => literalString true (dropBreak cs)
  | '\'' :: cs => literalString false cs
  | _ => none

/-- The key at the start of a text, and what follows. Quoted parts keep their quotes;
blanks end a key unless a dot follows. There is no key that is longer than `fuel`. -/
def key? : Nat → List Char → Option (List Char × List Char)
  | 0, _ => none
  | _, [] => some ([], [])
  | fuel + 1, c :: cs =>
    if c == '=' then some ([], c :: cs)
    else if c == '"' then do
      let (part, rest) ← basicString false true false cs
      let (s, rest) ← key? fuel rest
      return ('"' :: part ++ '"' :: s, rest)
    else if c == '\'' then do
      let (part, rest) ← literalString false cs
      let (s, rest) ← key? fuel rest
      return ('\'' :: part ++ '\'' :: s, rest)
    else if isSpace c then
      match cs.dropWhile isSpace with
      | '.' :: rest => do
        let (s, after) ← key? fuel (rest.dropWhile isSpace)
        return (' ' :: cs.takeWhile isSpace ++ '.' :: rest.takeWhile isSpace ++ s, after)
      | rest => some ([], rest)
    else if c == '.' || isBareChar c then do
      let (s, rest) ← key? fuel cs
      return (c :: s, rest)
    else none

/-- The name up to a closing bracket, and what stands from that bracket on. -/
def bracketed? (cs : List Char) : Option (String × List Char) :=
  let inName (c : Char) : Bool := c != ']' && c != '['
  match cs.dropWhile inName with
  | ']' :: rest => some (String.ofList (cs.takeWhile inName), ']' :: rest)
  | _ => none

/-- What stands behind a comment. -/
def dropComment : List Char → List Char
  | '\n' :: cs => '\n' :: cs
  | '\r' :: '\n' :: cs => '\r' :: '\n' :: cs
  | _ :: cs => dropComment cs
  | [] => []

/-- The tokens of a time of day and of an offset right behind it, and what follows. -/
def timeTokens? (cs : List Char) : Option (List Token × List Char) := do
  let rest ← time? cs
  let (shifted, rest) ← offset? rest
  return (if shifted then [.time, .offset] else [.time], rest)

/-- The tokens of a date and of a time behind a blank or the letter `T`, and what
follows. Behind a date there may be nothing else; one blank is passed over if a digit
pair follows, which has to start a time. -/
def dateTokens? (cs : List Char) : Option (List Token × List Char) := do
  let withTime (cs : List Char) : Option (List Token × List Char) :=
    (timeTokens? cs).map fun (tokens, rest) => (.date :: tokens, rest)
  match ← date? cs with
  | [] => some ([.date], [])
  | 'T' :: rest => withTime rest
  | ' ' :: h :: h' :: rest =>
    if h.isDigit && h'.isDigit then withTime (h :: h' :: rest)
    else some ([.date], ' ' :: h :: h' :: rest)
  | ' ' :: rest => some ([.date], ' ' :: rest)
  | _ => none

/-- The tokens of the number, the date or the time at the start of a text that starts
with a digit, and what follows. -/
def digitTokens? (cs : List Char) : Option (List Token × List Char) :=
  let numberToken : Option (List Token × List Char) :=
    (number? cs).map fun (v, rest) => ([.scalar v], rest)
  match cs with
  | a :: b :: ':' :: _ =>
    if a.isDigit && b.isDigit then timeTokens? cs else numberToken
  | a :: b :: c :: d :: '-' :: _ =>
    if [a, b, c, d].all Char.isDigit then dateTokens? cs else numberToken
  | _ => numberToken

/-- What is read next. -/
inductive Place where
  | statement
  | value
deriving DecidableEq, Repr

/-- What is open. -/
inductive Bracket where
  | list
  | table
deriving DecidableEq, Repr

/-- The tokens at some point: those found, and where and with what to go on. -/
structure Step where
  tokens : List Token
  place : Place
  opened : List Bracket
  rest : List Char

/-- Close a table in braces. -/
def closeBrace? (opened : List Bracket) (rest : List Char) : Option Step :=
  match opened with
  | .table :: opened => some ⟨[.closeBrace], .value, opened, rest⟩
  | _ => none

/-- The next step among statements. -/
def statementStep? (opened : List Bracket) (cs : List Char) : Option Step :=
  match cs with
  | [] => none
  | '}' :: rest => closeBrace? opened rest
  | '[' :: '[' :: rest => do
    let (name, rest) ← bracketed? rest
    match rest with
    | ']' :: ']' :: rest =>
      some ⟨[.openTables, .tablesName name, .closeTables], .statement, opened, rest⟩
    | _ => none
  | '[' :: rest => do
    let (name, rest) ← bracketed? rest
    let name := if name.isEmpty then [] else [Token.tableName name]
    return ⟨[.openBracket] ++ name ++ [.closeBracket], .statement, opened, rest.drop 1⟩
  | '#' :: rest => some ⟨[], .statement, opened, dropComment rest⟩
  | '=' :: rest => some ⟨[.equals], .value, opened, rest⟩
  | c :: rest =>
    if isSpace c || isBreak c then some ⟨[], .statement, opened, rest⟩
    else do
      let (name, rest) ← key? (cs.length + 1) cs
      return ⟨[.key (String.ofList name)], .statement, opened, rest⟩

/-- The next step among values. -/
def valueStep? (opened : List Bracket) (cs : List Char) : Option Step :=
  let scalar (v : Scalar) (rest : List Char) : Option Step :=
    some ⟨[.scalar v], .value, opened, rest⟩
  match cs with
  | [] => none
  | '=' :: rest => some ⟨[.equals], .value, opened, rest⟩
  | '[' :: rest => some ⟨[.openBracket], .value, .list :: opened, rest⟩
  | ']' :: rest =>
    match opened with
    | .list :: opened => some ⟨[.closeBracket], .value, opened, rest⟩
    | _ => none
  | '{' :: rest => some ⟨[.openBrace], .statement, .table :: opened, rest⟩
  | '}' :: rest => closeBrace? opened rest
  | '#' :: rest => some ⟨[], .value, opened, dropComment rest⟩
  | ',' :: rest =>
    some ⟨[.comma], if opened.head? = some .table then .statement else .value, opened, rest⟩
  | 't' :: 'r' :: 'u' :: 'e' :: rest => scalar (.truth true) rest
  | 'f' :: 'a' :: 'l' :: 's' :: 'e' :: rest => scalar (.truth false) rest
  | 'i' :: 'n' :: 'f' :: rest => scalar .real rest
  | 'n' :: 'a' :: 'n' :: rest => scalar .real rest
  | c :: rest =>
    if isBreak c then
      some ⟨[], if opened.head? = some .list then .value else .statement, opened, rest⟩
    else if isSpace c then some ⟨[], .value, opened, rest⟩
    else if c == '"' || c == '\'' then do
      let (s, rest) ← string? cs
      scalar (.text (String.ofList s)) rest
    else if c == '+' || c == '-' then do
      let (v, rest) ← number? cs
      scalar v rest
    else if c.isDigit then do
      let (tokens, rest) ← digitTokens? cs
      return ⟨tokens, .value, opened, rest⟩
    else none

/-- The tokens of a text that takes no more than `fuel` steps. -/
def scanFrom : Nat → Place → List Bracket → List Char → Option (List Token)
  | _, _, _, [] => some []
  | 0, _, _, _ => none
  | fuel + 1, place, opened, cs => do
    let step ← match place with
      | .statement => statementStep? opened cs
      | .value => valueStep? opened cs
    let more ← scanFrom fuel step.place step.opened step.rest
    return step.tokens ++ more

/-- The tokens of a text. Every step takes at least one character. -/
def scan? (cs : List Char) : Option (List Token) :=
  scanFrom cs.length .statement [] cs

end TreeCode.Toml
