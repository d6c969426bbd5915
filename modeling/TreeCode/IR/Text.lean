/-
# Printed form of tree code

Expressions and statements print on one line, fully bracketed. Two things have no
printed form of their own: an operator with a negative number and the absent
statement. Asking for one of them fails with a cause. A larger text that embeds a
part without a printed form still prints, and reports the cause in the place of
that part; only the direct wrappers (`MEM`, `CALL`, `EXP`, `SEQ`) pass the
failure on to whatever surrounds them.
-/

import TreeCode.IR.Basic
import TreeCode.Text.Embedded

namespace TreeCode

namespace IR

open TextError (embed absentText)

namespace Op

/-- The printed form of an operator. A negative number has none. -/
def text : Op → Except TextError String
  | other code =>
    if code < 0 then .error (.negativeCode code) else .ok (other code).symbol
  | op => .ok op.symbol

end Op

mutual

/-- The printed form of an expression. -/
def Expr.text : Expr → Except TextError String
  | .const n => .ok ("CONST " ++ n.text)
  | .name l => .ok ("NAME " ++ l.name)
  | .temp t => .ok ("TEMP " ++ t.name)
  | .mem a => do return "MEM(" ++ (← a.text) ++ ")"
  | .binop op x y =>
    .ok ("(" ++ embed x.text ++ " " ++ embed op.text ++ " " ++ embed y.text ++ ")")
  | .unop op x => .ok (embed op.text ++ "(" ++ embed x.text ++ ")")
  | .call f args => do
    return "CALL " ++ f.name ++ "(" ++ ", ".intercalate (← Expr.texts args) ++ ")"
  | .eseq s e =>
    .ok ("ESEQ(" ++ (if s.isAbsent then absentText else embed s.text) ++ "; " ++
      embed e.text ++ ")")

/-- The printed forms of a list of expressions. -/
def Expr.texts : List Expr → Except TextError (List String)
  | [] => .ok []
  | e :: es => do
    let t ← e.text
    return t :: (← Expr.texts es)

/-- The printed form of a statement. -/
def Stmt.text : Stmt → Except TextError String
  | .absent => .error .absentStatement
  | .exp e => do return "EXP " ++ (← e.text)
  | .move d s => .ok ("MOVE " ++ embed d.text ++ " <- " ++ embed s.text)
  | .seq ss => do return "SEQ(" ++ "; ".intercalate (← Stmt.texts ss) ++ ")"
  | .cjump c t f => .ok ("CJUMP " ++ embed c.text ++ " ? " ++ t.name ++ " : " ++ f.name)
  | .jump l => .ok ("JUMP " ++ l.name)
  | .label l => .ok (l.name ++ ":")

/-- The printed forms of a list of statements. -/
def Stmt.texts : List Stmt → Except TextError (List String)
  | [] => .ok []
  | s :: ss => do
    let t ← s.text
    return t :: (← Stmt.texts ss)

end

end IR

end TreeCode
