/-
# Operators of the source tree

Binary and unary operators share one numbering. Numbers outside the table denote
no operator but can occur in a tree, so they are kept as `other`.
-/

import TreeCode.Text.Embedded

namespace TreeCode.Source

/-- An operator of the source tree. -/
inductive Op where
  | or | and
  | eq | ne | le | ge | lt | gt
  | add | sub | mul | div | mod
  | index | assign
  | plus | neg | not
  | addr | deref
  | other (code : Int)
deriving DecidableEq, Repr

namespace Op

/-- The operators of the table, in the order of their numbers. -/
def table : List Op :=
  [or, and, eq, ne, le, ge, lt, gt, add, sub, mul, div, mod, index, assign,
    plus, neg, not, addr, deref]

/-- The operator with the given number. -/
def ofCode (code : Int) : Op :=
  if code < 0 then other code else (table[code.toNat]?).getD (other code)

/-- The symbol of an operator; a number outside the table is shown as such. -/
def symbol : Op → String
  | or => "|"
  | and => "&"
  | eq => "=="
  | ne => "!="
  | le => "<="
  | ge => ">="
  | lt => "<"
  | gt => ">"
  | add => "+"
  | sub => "-"
  | mul => "*"
  | div => "/"
  | mod => "%"
  | index => "[]"
  | assign => "="
  | plus => "+"
  | neg => "-"
  | not => "!"
  | addr => "^"
  | deref => "@"
  | other code => s!"Op({code})"

/-- The printed form of an operator. A negative number has none. -/
def text : Op → Except TextError String
  | other code =>
    if code < 0 then .error (.negativeCode code) else .ok (other code).symbol
  | op => .ok op.symbol

/-- Whether an operator yields a truth value. Negative numbers count as such. -/
def isLogical : Op → Bool
  | or | and | eq | ne | le | ge | lt | gt | not => true
  | other code => code < 0
  | _ => false

end Op

end TreeCode.Source
