/-
# Canonical code

Canonical code has no statement inside an expression, and an operand that is a call
becomes the whole source of a move into a temp. Lifting turns arbitrary tree code
into canonical code: what an expression does before its value is known is pulled in
front of it, in the order of evaluation.

When a later operand has to run code first, the operands before it must not see
the effects of that code. Their values are therefore saved in fresh temps, except
for constants and addresses of data, which no effect can change. The number of
the next fresh temp is passed along explicitly.

A move is lifted by its target. Targets that are neither a temp nor memory are no
places to store to; such a move is left as it stands.
-/

import TreeCode.IR.Basic

namespace TreeCode.IR

/-- A computation that draws fresh temps: it takes the number of the next one and
returns the number after those it used. -/
abbrev Fresh (α : Type) := Nat → α × Nat

/-- Whether an expression has the same value before and after any effect. -/
def Expr.isFixed : Expr → Bool
  | const _ => true
  | name _ => true
  | _ => false

/-- Whether an expression is a call. -/
def Expr.isCall : Expr → Bool
  | call _ _ => true
  | _ => false

/-- Whether a statement may run before an expression without changing its value. -/
def Stmt.commutes (s : Stmt) (e : Expr) : Bool :=
  s.isNop || e.isFixed

/-- One statement after another, where statements without instructions vanish. -/
def Stmt.andThen (a b : Stmt) : Stmt :=
  if a.isNop then b else if b.isNop then a else seq [a, b]

/-- What has to run before a value is known, and the expression that yields the
value afterwards. -/
structure Lifted where
  pre : Stmt
  value : Expr

namespace Lifted

/-- Combine an operand with the code that the operands after it run first. The
value is saved unless that code cannot change it. -/
def before (first : Lifted) (later : Stmt) : Fresh Lifted := fun n =>
  if later.commutes first.value then
    (⟨first.pre.andThen later, first.value⟩, n)
  else
    let t := Expr.temp ⟨n⟩
    (⟨(first.pre.andThen (.move t first.value)).andThen later, t⟩, n + 1)

/-- Use an expression as an operand: a call is moved into a temp, which is drawn
before the call itself is lifted. -/
def operand (e : Expr) (lifted : Fresh Lifted) : Fresh Lifted := fun n =>
  if e.isCall then
    let (a, m) := lifted (n + 1)
    let t := Expr.temp ⟨n⟩
    (⟨a.pre.andThen (.move t a.value), t⟩, m)
  else
    lifted n

end Lifted

/-- The source of a move: as it stands, and with everything lifted out of it. -/
structure MoveSource where
  plain : Expr
  lifted : Fresh Lifted

mutual

/-- Lift everything out of an expression. A call on top keeps its place. -/
def Expr.lift : Expr → Fresh Lifted
  | .mem a => fun n =>
    let (a, n) := Lifted.operand a a.lift n
    (⟨a.pre, .mem a.value⟩, n)
  | .binop op x y => fun n =>
    let (x, n) := Lifted.operand x x.lift n
    let (y, n) := Lifted.operand y y.lift n
    let (x, n) := x.before y.pre n
    (⟨x.pre, .binop op x.value y.value⟩, n)
  | .unop op x => fun n =>
    let (x, n) := Lifted.operand x x.lift n
    (⟨x.pre, .unop op x.value⟩, n)
  | .call f args => fun n =>
    let ((pre, args), n) := Expr.liftAll args n
    (⟨pre, .call f args⟩, n)
  | .eseq s e => fun n =>
    let (s, n) := s.lift n
    let (e, n) := e.lift n
    (⟨s.andThen e.pre, e.value⟩, n)
  | e => fun n => (⟨.absent, e⟩, n)

/-- Lift everything out of a list of operands, which are evaluated from left to
right. -/
def Expr.liftAll : List Expr → Fresh (Stmt × List Expr)
  | [] => fun n => ((.absent, []), n)
  | e :: es => fun n =>
    let (e, n) := Lifted.operand e e.lift n
    let ((later, es), n) := Expr.liftAll es n
    let (e, n) := e.before later n
    ((e.pre, e.value :: es), n)

/-- Lift a move of the given source into a target. -/
def Expr.liftMove : Expr → MoveSource → Fresh Stmt
  | .temp t, source => fun n =>
    let (v, n) := source.lifted n
    (v.pre.andThen (.move (.temp t) v.value), n)
  | .mem a, source => fun n =>
    let (a, n) := Lifted.operand a a.lift n
    let (v, n) := Lifted.operand source.plain source.lifted n
    let (a, n) := a.before v.pre n
    (a.pre.andThen (.move (.mem a.value) v.value), n)
  | .eseq s target, source => fun n =>
    let (s, n) := s.lift n
    let (m, n) := target.liftMove source n
    (s.andThen m, n)
  | target, source => fun n => (.move target source.plain, n)

/-- Lift everything out of the expressions of a statement. -/
def Stmt.lift : Stmt → Fresh Stmt
  | .seq ss => Stmt.liftAll ss
  | .cjump c t f => fun n =>
    let (c, n) := Lifted.operand c c.lift n
    (c.pre.andThen (.cjump c.value t f), n)
  | .exp e => fun n =>
    let (e, n) := e.lift n
    (e.pre.andThen (.exp e.value), n)
  | .move target source => target.liftMove ⟨source, source.lift⟩
  | s => fun n => (s, n)

/-- Lift everything out of the expressions of a list of statements. -/
def Stmt.liftAll : List Stmt → Fresh Stmt
  | [] => fun n => (.absent, n)
  | s :: ss => fun n =>
    let (s, n) := s.lift n
    let (ss, n) := Stmt.liftAll ss n
    (s.andThen ss, n)

end

/-- The canonical instructions of a statement. -/
def Stmt.canonical (s : Stmt) : Fresh (List Stmt) := fun n =>
  let (s, n) := s.lift n
  (s.flatten, n)

/-- Bring the code of every chunk into canonical form. -/
def Chunk.canonicalAll : List Chunk → Fresh (List Chunk)
  | [] => fun n => ([], n)
  | .code frame body :: rest => fun n =>
    let (body, n) := body.canonical n
    let (rest, n) := canonicalAll rest n
    (.code frame (.seq body) :: rest, n)
  | chunk :: rest => fun n =>
    let (rest, n) := canonicalAll rest n
    (chunk :: rest, n)

end TreeCode.IR
