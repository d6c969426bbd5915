/-
# Reading a settings file

A document is a sequence of statements. `key = value` puts a value into the current
table, `[name]` makes a table the current one, and `[[name]]` appends a table to a
list and makes it the current one. Keys are paths of parts with dots between them;
a part may be quoted.

A key is given only once, and so is a table under one spelling of its name. The
members of a table in braces may be given repeatedly, and the last one counts.

A date is one value with a time behind it, and with the offset of that time.

Whatever is no document is refused without further distinction.
-/

import TreeCode.Toml.Token

namespace TreeCode.Toml

/-- The rest of a quoted part, and what follows its quote. -/
def quotedPart? (quote : Char) : List Char → Option (List Char × List Char)
  | [] => none
  | c :: cs =>
    if c == quote then some ([], cs)
    else (quotedPart? quote cs).map fun (part, rest) => (c :: part, rest)

/-- The parts of a key that has no more than `fuel` characters. -/
def keyParts : Nat → List Char → Option (List String)
  | _, [] => some []
  | 0, _ => none
  | fuel + 1, c :: cs =>
    let part (name : List Char) (rest : List Char) : Option (List String) :=
      (keyParts fuel rest).map (String.ofList name :: ·)
    if isSpace c then keyParts fuel cs
    else if isBareChar c then
      let name := (c :: cs).takeWhile isBareChar
      match (c :: cs).dropWhile isBareChar with
      | [] => part name []
      | d :: rest =>
        if d == '.' then part name (d :: rest)
        else if isSpace d then
          match rest.dropWhile isSpace with
          | [] => part name []
          | e :: rest => if e == '.' then part name (e :: rest) else none
        else none
    else if c == '\'' || c == '"' then do
      let (name, rest) ← quotedPart? c cs
      part name rest
    else if c == '.' then
      match cs with
      | d :: _ =>
        if isBareChar d || d == '\'' || d == '"' || d == ' ' then keyParts fuel cs else none
      | [] => none
    else none

/-- The path that a key stands for. -/
def path? (key : String) : Option (List String) := do
  let parts ← keyParts (key.toList.length + 1) key.toList
  if parts.isEmpty then none else some parts

/-- Where the reading of a table in braces stands. -/
inductive Fields where
  | start
  | afterField
  | afterComma
deriving DecidableEq, Repr

mutual

/-- The value at the start of tokens, and what follows. No value takes more than
`fuel` tokens. -/
def value? : Nat → List Token → Option (Value × List Token)
  | 0, _ => none
  | fuel + 1, ts =>
    match ts with
    | .scalar v :: rest => some (.scalar v, rest)
    | .date :: .time :: .offset :: rest => some (.scalar .moment, rest)
    | .date :: .time :: rest => some (.scalar .moment, rest)
    | .date :: rest => some (.scalar .moment, rest)
    | .time :: rest => some (.scalar .moment, rest)
    | .openBracket :: rest => do
      let (items, rest) ← items? fuel rest
      return (.list items, rest)
    | .openBrace :: rest => do
      let (t, rest) ← fields? fuel .start .empty rest
      return (.table true t.entries, rest)
    | _ => none

/-- The items of a list up to its closing bracket, and what follows. -/
def items? : Nat → List Token → Option (List Value × List Token)
  | 0, _ => none
  | fuel + 1, ts =>
    match ts with
    | .closeBracket :: rest => some ([], rest)
    | ts => do
      let (v, rest) ← value? fuel ts
      match rest with
      | .comma :: rest =>
        let (vs, rest) ← items? fuel rest
        return (v :: vs, rest)
      | .closeBracket :: rest => return ([v], rest)
      | _ => none

/-- The members of a table up to its closing brace, and what follows. -/
def fields? : Nat → Fields → Table → List Token → Option (Table × List Token)
  | 0, _, _, _ => none
  | fuel + 1, state, t, ts =>
    match ts with
    | .closeBrace :: rest => if state = .afterComma then none else some (t, rest)
    | .comma :: rest => if state = .afterComma then none else fields? fuel .afterComma t rest
    | .key name :: .equals :: rest =>
      if state = .afterField then none
      else do
        let path ← path? name
        let (v, rest) ← value? fuel rest
        fields? fuel .afterField (t.place v path) rest
    | _ => none

end

/-- What was read of a document. -/
structure Document where
  root : Table
  /-- The path of the current table. -/
  current : List String
  /-- The names of tables, as they were written. -/
  seen : List String

namespace Document

/-- A document without statements. -/
def empty : Document :=
  ⟨.empty, [], []⟩

/-- Make a table the current one. A name is used once, and a sealed table is not
opened again. -/
def openTable? (d : Document) (name : String) : Option Document := do
  if d.seen.contains name then none
  else
    let path ← path? name
    let root ← d.root.update? some path
    if ((root.at? path).bind Value.asTable?).any (·.sealed) then none
    else return ⟨root, path, d.seen ++ [name]⟩

/-- Append a table to a list of tables and make it the current one. The names of
tables below the list may be used again. -/
def appendTable? (d : Document) (name : String) : Option Document := do
  let path ← path? name
  let root := (d.root.update? some path.dropLast).getD d.root
  let members ← match root.at? path with
    | none => some []
    | some (.list items) => if (Value.list items).isTableList then some items else none
    | some _ => none
  let seen := d.seen.filter fun s => !(name ++ ".").toList.isPrefixOf s.toList
  return ⟨root.place (.list (members ++ [Table.empty.toValue])) path, path, seen ++ [name]⟩

/-- Put a value under a key of the current table. -/
def assign? (d : Document) (key : String) (v : Value) : Option Document := do
  let parts ← path? key
  let last ← parts.getLast?
  let path := d.current ++ parts.dropLast
  let put (t : Table) : Option Table :=
    if t.sealed || (t.get? last).isSome then none else some (t.put last v)
  let root ← d.root.update? put path
  return { d with root := root }

/-- Read the statements of tokens, of which there are no more than `fuel`. -/
def readFrom : Nat → Document → List Token → Option Document
  | _, d, [] => some d
  | 0, _, _ => none
  | fuel + 1, d, ts =>
    match ts with
    | .openBracket :: .tableName name :: .closeBracket :: rest => do
      readFrom fuel (← d.openTable? name) rest
    | .openTables :: .tablesName name :: .closeTables :: rest => do
      readFrom fuel (← d.appendTable? name) rest
    | .key name :: .equals :: rest => do
      let (v, rest) ← value? (rest.length + 1) rest
      readFrom fuel (← d.assign? name v) rest
    | _ => none

end Document

/-- The bytes that a text may start with as a mark of its encoding. -/
def marks : List (List UInt8) :=
  [[0x00, 0x00, 0xFE, 0xFF], [0xFF, 0xFE, 0x00, 0x00], [0xEF, 0xBB, 0xBF], [0xFE, 0xFF],
    [0xFF, 0xFE]]

/-- Bytes without a mark at their start. -/
def withoutMark (bytes : List UInt8) : List UInt8 :=
  match marks.find? fun m => m.isPrefixOf bytes with
  | some m => bytes.drop m.length
  | none => bytes

/-- The table that a document of bytes describes. -/
def read? (bytes : List UInt8) : Option Table := do
  let tokens ← scan? (Text.decode (withoutMark bytes))
  let d ← Document.empty.readFrom tokens.length tokens
  return d.root

end TreeCode.Toml
