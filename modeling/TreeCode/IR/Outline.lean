/-
# Outline of tree code

The outline of a chunk shows its tree, one node a line, with two blanks of
indentation for every level. Data shows the printable part of its initial bytes.
The absent statement takes no line.
-/

import TreeCode.IR.Text
import TreeCode.Text.Pad
import TreeCode.Text.Quoted
import TreeCode.Text.Utf8

namespace TreeCode.IR

open TextError (embed)
open Text (indent)

mutual

/-- The lines of an expression, at a level of nesting. -/
def Expr.outline (depth : Nat) : Expr → List String
  | .const n => [indent depth ++ "CONST " ++ n.text]
  | .name l => [indent depth ++ "NAME " ++ l.name]
  | .temp t => [indent depth ++ "TEMP " ++ t.name]
  | .mem a => (indent depth ++ "MEM") :: a.outline (depth + 1)
  | .binop op x y =>
    (indent depth ++ "BINOP " ++ embed op.text) ::
      (x.outline (depth + 1) ++ y.outline (depth + 1))
  | .unop op x => (indent depth ++ "UNOP " ++ embed op.text) :: x.outline (depth + 1)
  | .call f args => (indent depth ++ "CALL " ++ f.name) :: Expr.outlineAll (depth + 1) args
  | .eseq s e => (indent depth ++ "ESEQ") :: (s.outline (depth + 1) ++ e.outline (depth + 1))

/-- The lines of a list of expressions. -/
def Expr.outlineAll (depth : Nat) : List Expr → List String
  | [] => []
  | e :: es => e.outline depth ++ Expr.outlineAll depth es

/-- The lines of a statement, at a level of nesting. -/
def Stmt.outline (depth : Nat) : Stmt → List String
  | .absent => []
  | .exp e => (indent depth ++ "EXP") :: e.outline (depth + 1)
  | .move d s => (indent depth ++ "MOVE") :: (d.outline (depth + 1) ++ s.outline (depth + 1))
  | .seq ss => (indent depth ++ "SEQ") :: Stmt.outlineAll (depth + 1) ss
  | .cjump c t f =>
    (indent depth ++ "CJUMP " ++ t.name ++ " " ++ f.name) :: c.outline (depth + 1)
  | .jump l => [indent depth ++ "JUMP " ++ l.name]
  | .label l => [indent depth ++ "LABEL " ++ l.name]

/-- The lines of a list of statements. -/
def Stmt.outlineAll (depth : Nat) : List Stmt → List String
  | [] => []
  | s :: ss => s.outline depth ++ Stmt.outlineAll depth ss

end

/-- The initial bytes of data as text, without what is not printable. -/
def printableText (bytes : List UInt8) : String :=
  String.ofList ((Text.decode bytes).filter fun c => Text.isPrintable c)

namespace Chunk

/-- The lines of a chunk. -/
def outline : Chunk → List String
  | code frame body =>
    s!"CODE {frame.label.name} (level={frame.level} size={frame.size.text})" :: body.outline 1
  | data label size init =>
    [s!"DATA {label.name} [{size.text}]" ++
      if init.isEmpty then "" else " " ++ Text.quoted (printableText init)]

/-- The outline of a list of chunks. -/
def outlines (chunks : List Chunk) : String :=
  String.join ((chunks.flatMap outline).map (· ++ "\n"))

end Chunk

end TreeCode.IR
