/-
# Values of a settings file

A settings file is a table. The entries of a table are scalars, lists and further
tables. A table that is written on one line, in braces, is sealed: nothing can be
added to it afterwards.

A path of keys leads from table to table. It passes through a list of tables by its
most recent member.
-/

import TreeCode.Word

namespace TreeCode.Toml

/-- A value without parts. -/
inductive Scalar where
  | text (value : String)
  | truth (value : Bool)
  | integer (value : Word)
  /-- An integer of 64 bits that is too large for a word. -/
  | large (value : UInt64)
  /-- A number with a fraction or an exponent. No setting has one. -/
  | real
  /-- A date or a time. No setting has one. -/
  | moment
deriving DecidableEq, Repr

/-- A value. -/
inductive Value where
  | scalar (value : Scalar)
  | list (items : List Value)
  | table (sealed : Bool) (entries : List (String × Value))

/-- A table. -/
structure Table where
  sealed : Bool
  entries : List (String × Value)

namespace Value

/-- The table that a value is, if it is one. -/
def asTable? : Value → Option Table
  | table sealed entries => some ⟨sealed, entries⟩
  | _ => none

/-- Whether a value is a list of tables. An empty list is none. -/
def isTableList : Value → Bool
  | list items => !items.isEmpty && items.all fun v => v.asTable?.isSome
  | _ => false

/-- The table that a path goes on in. -/
def current? : Value → Option Table
  | table sealed entries => some ⟨sealed, entries⟩
  | list items =>
    if (list items).isTableList then items.getLast?.bind asTable? else none
  | scalar _ => none

/-- A value with another table for a path to go on in. -/
def withCurrent (t : Table) : Value → Value
  | list items => list (items.dropLast ++ [table t.sealed t.entries])
  | _ => table t.sealed t.entries

end Value

namespace Table

/-- A table without entries. -/
def empty : Table :=
  ⟨false, []⟩

/-- A table as a value. -/
def toValue (t : Table) : Value :=
  .table t.sealed t.entries

/-- The value of a key. -/
def get? (t : Table) (key : String) : Option Value :=
  t.entries.lookup key

/-- Give a key a value, in place of the one it had. -/
def put (t : Table) (key : String) (v : Value) : Table :=
  if (t.get? key).isSome then
    { t with entries := t.entries.map fun e => if e.1 = key then (key, v) else e }
  else
    { t with entries := t.entries ++ [(key, v)] }

/-- The value at a path. The table itself is at the empty path. -/
def at? (t : Table) : List String → Option Value
  | [] => some t.toValue
  | [key] => t.get? key
  | key :: rest => do
    let v ← t.get? key
    let sub ← v.current?
    sub.at? rest

/-- Change the table at a path. Tables that are missing on the way are created, as
sealed as the one they are in; a path through anything else is refused. -/
def update? (change : Table → Option Table) (t : Table) : List String → Option Table
  | [] => change t
  | key :: rest => do
    let v := (t.get? key).getD (.table t.sealed [])
    let sub ← v.current?
    let sub ← update? change sub rest
    return t.put key (v.withCurrent sub)

/-- Put a value at a path. Tables that are missing on the way are created, and what
is no table is passed over. -/
def place (v : Value) (t : Table) : List String → Table
  | [] => t
  | [key] => t.put key v
  | key :: rest =>
    match t.get? key with
    | none => t.put key (place v empty rest).toValue
    | some w =>
      match w.current? with
      | some sub => t.put key (w.withCurrent (place v sub rest))
      | none => place v t rest

end Table

end TreeCode.Toml
