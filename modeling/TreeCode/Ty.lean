/-
# Types

Values of a type occupy a fixed number of bytes. Atomic values and pointers take
one word; arrays and records are laid out flat, element after element and field
after field. Arrays and records are *aggregates*: they are handled by address.

A type may refer to a declared one by name, so types can be recursive, though
only through pointers. Such a name is looked up when a pointer is followed, and
`TypeTable.expand` replaces the names that no pointer protects. An expression may
also have no type at all; it counts as void.
-/

import TreeCode.Word

namespace TreeCode

/-- A type. -/
inductive Ty where
  | absent
  | integer
  | logical
  | string
  | void
  | array (length : Word) (elem : Ty)
  | pointer (target : Ty)
  | record (name : String) (fields : List (String × Ty))
  /-- The declared type of a name. -/
  | ref (id : String)

instance : Inhabited Ty := ⟨.absent⟩

/-- The declared types by name. -/
abbrev TypeTable := List (String × Ty)

namespace Ty

mutual

/-- The number of bytes a value takes. A name takes none before it is looked up. -/
def size : Ty → Word
  | absent | void | ref _ => 0
  | integer | logical | string | pointer _ => Word.size
  | array length elem => length * elem.size
  | record _ fields => fieldsSize fields

/-- The number of bytes the fields of a record take. -/
def fieldsSize : List (String × Ty) → Word
  | [] => 0
  | (_, t) :: rest => t.size + fieldsSize rest

end

/-- Whether values are handled by address. -/
def isAggregate : Ty → Bool
  | array _ _ => true
  | record _ _ => true
  | _ => false

/-- Whether there are no values. -/
def isVoid : Ty → Bool
  | absent => true
  | void => true
  | _ => false

/-- The first field of a name: its offset from the given one, and its type. -/
def fieldFrom? (offset : Word) (name : String) : List (String × Ty) → Option (Word × Ty)
  | [] => none
  | (n, t) :: rest =>
    if n = name then some (offset, t) else fieldFrom? (offset + t.size) name rest

/-- The offset and the type of a field of a record. -/
def field? (t : Ty) (name : String) : Option (Word × Ty) :=
  match t with
  | record _ fields => fieldFrom? 0 name fields
  | _ => none

mutual

/-- The printed form of a type, given that of every name. -/
def textWith (refText : String → String) : Ty → String
  | absent | void => "void"
  | integer => "integer"
  | logical => "logical"
  | string => "string"
  | array length elem => "arr[" ++ length.text ++ "]" ++ elem.textWith refText
  | pointer target => "ptr " ++ target.textWith refText
  | record name fields =>
    if name.isEmpty then "rec(" ++ ",".intercalate (fieldTexts refText fields) ++ ")" else name
  | ref id => refText id

/-- The printed forms of the fields of a record. -/
def fieldTexts (refText : String → String) : List (String × Ty) → List String
  | [] => []
  | (n, t) :: rest => (n ++ ":" ++ t.textWith refText) :: fieldTexts refText rest

end

mutual

/-- Replace the names that no pointer protects. -/
def expandWith (lookup : String → Ty) : Ty → Ty
  | array length elem => array length (elem.expandWith lookup)
  | record name fields => record name (expandFields lookup fields)
  | ref id => lookup id
  | t => t

/-- Replace the names in the fields of a record that no pointer protects. -/
def expandFields (lookup : String → Ty) : List (String × Ty) → List (String × Ty)
  | [] => []
  | (n, t) :: rest => (n, t.expandWith lookup) :: expandFields lookup rest

end

end Ty

namespace TypeTable

/-- The printed form of a name, looking up at most a number of names on the way. -/
def refText (types : TypeTable) : Nat → String → String
  | 0, _ => ""
  | n + 1, id => ((types.lookup id).getD .absent).textWith (refText types n)

/-- The printed form of a type. Names are never looked up in a circle: a recursive
type has a printed form only if a named record stands in its way. -/
def text (types : TypeTable) (t : Ty) : String :=
  t.textWith (types.refText types.length)

/-- The type of a name, looking up at most a number of names on the way. -/
def lookupRef (types : TypeTable) : Nat → String → Ty
  | 0, _ => .absent
  | n + 1, id => ((types.lookup id).getD .absent).expandWith (lookupRef types n)

/-- Replace the names that no pointer protects. -/
def expand (types : TypeTable) (t : Ty) : Ty :=
  t.expandWith (types.lookupRef types.length)

/-- The type of what an array or pointer leads to. Nothing else leads anywhere. -/
def base (types : TypeTable) : Ty → Ty
  | .array _ elem => elem
  | .pointer target => types.expand target
  | _ => .absent

end TypeTable

end TreeCode
