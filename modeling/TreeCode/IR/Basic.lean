/-
# Tree code

Code is a tree of expressions, which have a value, and statements, which have an
effect. An expression may run a statement first (`eseq`), so effects can stand
anywhere inside a value; the canonical form of `TreeCode.IR.Canonical` removes
them again.

Operators are numbered. Numbers outside the table denote no operation but can be
written and printed, so they are kept as `other`.
-/

import TreeCode.Frame

namespace TreeCode.IR

/-- An operator of tree code. -/
inductive Op where
  | add | sub | mul | div | mod
  | and | or
  | eq | ne | lt | gt | le | ge
  | neg | not
  | other (code : Int)
deriving DecidableEq, Repr

namespace Op

/-- The operators that denote an operation, in the order of their numbers. -/
def table : List Op :=
  [add, sub, mul, div, mod, and, or, eq, ne, lt, gt, le, ge, neg, not]

/-- The operator with the given number. -/
def ofCode (code : Int) : Op :=
  if code < 0 then other code else (table[code.toNat]?).getD (other code)

/-- The symbol of an operator; a number outside the table is shown as such. -/
def symbol : Op → String
  | add => "+"
  | sub => "-"
  | mul => "*"
  | div => "/"
  | mod => "%"
  | and => "&"
  | or => "|"
  | eq => "=="
  | ne => "!="
  | lt => "<"
  | gt => ">"
  | le => "<="
  | ge => ">="
  | neg => "neg"
  | not => "not"
  | other code => s!"Op({code})"

/-- The operator of the table with the given symbol. -/
def ofSymbol? (symbol : String) : Option Op :=
  table.find? fun op => op.symbol == symbol

end Op

mutual

/-- An expression: evaluating it yields one word. -/
inductive Expr where
  | const (value : Word)
  | name (label : Label)
  | temp (temp : Temp)
  | mem (address : Expr)
  | binop (op : Op) (left right : Expr)
  | unop (op : Op) (operand : Expr)
  | call (function : Label) (args : List Expr)
  | eseq (stmt : Stmt) (value : Expr)

/-- A statement: running it has an effect and yields nothing. The absent
statement does nothing and leaves no instruction behind. -/
inductive Stmt where
  | absent
  | exp (value : Expr)
  | move (target source : Expr)
  | seq (stmts : List Stmt)
  | cjump (condition : Expr) (ifTrue ifFalse : Label)
  | jump (target : Label)
  | label (label : Label)

end

instance : Inhabited Expr := ⟨.const 0⟩

instance : Inhabited Stmt := ⟨.absent⟩

namespace Stmt

/-- Whether a statement is the absent one. -/
def isAbsent : Stmt → Bool
  | absent => true
  | _ => false

/-- Join statements into one. Absent statements are dropped, and a single
remaining statement stands for itself. -/
def join (stmts : List Stmt) : Stmt :=
  match stmts.filter fun s => !s.isAbsent with
  | [s] => s
  | ss => seq ss

mutual

/-- Whether a statement leaves no instruction behind. -/
def isNop : Stmt → Bool
  | absent => true
  | seq ss => allNop ss
  | _ => false

/-- Whether no statement of a list leaves an instruction behind. -/
def allNop : List Stmt → Bool
  | [] => true
  | s :: ss => s.isNop && allNop ss

end

mutual

/-- The instructions of a statement in order: sequences are spliced at every
depth and absent statements vanish. -/
def flatten : Stmt → List Stmt
  | absent => []
  | seq ss => flattenAll ss
  | s => [s]

/-- The instructions of a list of statements in order. -/
def flattenAll : List Stmt → List Stmt
  | [] => []
  | s :: ss => s.flatten ++ flattenAll ss

end

end Stmt

/-- A unit of generated output: the code of one function, or a block of static
data whose bytes beyond the initial ones are zero. -/
inductive Chunk where
  | code (frame : Frame) (body : Stmt)
  | data (label : Label) (size : Word) (init : List UInt8)

namespace Chunk

/-- The label under which other code refers to a chunk. -/
def label : Chunk → Label
  | code frame _ => frame.label
  | data label _ _ => label

end Chunk

end TreeCode.IR
