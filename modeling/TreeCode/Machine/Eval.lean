/-
# Evaluation

Expressions are evaluated from left to right. A statement inside an expression is
run as a block of its own: its jumps stay inside that block, and afterwards the
enclosing instruction is the running one again.

Everything here is relative to a way of running blocks, `run`. Evaluation itself
follows the structure of the expression, so the only unbounded part of a run is
in `run`, which `TreeCode.Machine.Run` closes with a bound on the number of steps.

A call passes the number of static links to follow as its first argument. The
frame of the callee is set up as `TreeCode.Frame` describes.
-/

import TreeCode.Machine.State

namespace TreeCode

open IR (Op Expr Stmt)

namespace Exec

/-- The result of a binary operator. -/
def binary (op : Op) (x y : Word) : Exec Word :=
  match op with
  | .add => pure (x + y)
  | .sub => pure (x - y)
  | .mul => pure (x * y)
  | .div => if y = 0 then fault (.zeroDivisor x .div) else pure (x / y)
  | .mod => if y = 0 then fault (.zeroDivisor x .mod) else pure (x % y)
  | .and => pure (.ofBool (x != 0 && y != 0))
  | .or => pure (.ofBool (x != 0 || y != 0))
  | .eq => pure (.ofBool (x == y))
  | .ne => pure (.ofBool (x != y))
  | .lt => pure (.ofBool (x < y))
  | .gt => pure (.ofBool (x > y))
  | .le => pure (.ofBool (x ≤ y))
  | .ge => pure (.ofBool (x ≥ y))
  | .neg | .not | .other _ => defect (.binaryOperator op)

/-- The result of a unary operator. -/
def unary (op : Op) (x : Word) : Exec Word :=
  match op with
  | .neg => pure (-x)
  | .not => pure (.ofBool (x == 0))
  | _ => defect (.unaryOperator op)

end Exec

/-- The functions that the machine itself provides. -/
inductive Builtin where
  | putInt
  | putStr
  | putNl
deriving DecidableEq, Repr

namespace Builtin

/-- The built-in function of a name. -/
def ofName? : String → Option Builtin
  | "put_int" => some putInt
  | "put_str" => some putStr
  | "put_nl" => some putNl
  | _ => none

/-- The effect of a built-in function on its arguments. Its value is zero. -/
def apply : Builtin → List Word → Exec Word
  | putInt, n :: _ => do
    Exec.print n.text.toUTF8.toList
    return 0
  | putStr, addr :: _ => do
    Exec.print (← Exec.loadString addr)
    return 0
  | putNl, _ => do
    Exec.print [10]
    return 0
  | _, [] => Exec.defect .missingArgument

end Builtin

namespace Exec

variable (setup : Setup) (run : Block → Exec Unit)

/-- Follow a number of static links from a frame. -/
def followLinks : Nat → Word → Exec Word
  | 0, fp => pure fp
  | n + 1, fp => do followLinks n (← load fp)

/-- Make a frame the running one. -/
def enter (frame : Frame) (base : Word) : Exec Unit := fun s =>
  let depth := s.depth + 1
  let used := setup.memorySize - base
  .ok () { s with
    fp := base
    sp := base
    depth := depth
    stats := { s.stats with
      calls := s.stats.calls + 1
      maxDepth := max s.stats.maxDepth depth
      peakStack := if s.stats.peakStack < used then used else s.stats.peakStack }
    activation := ⟨frame.label.name, .empty⟩ }

/-- Make the caller's frame the running one again, and yield the return value. -/
def resume (frame : Frame) (caller : Activation) (location : Location) (fp : Word) :
    Exec Word := fun s =>
  .ok (s.activation.temps.get Temp.rv) { s with
    fp := fp
    sp := s.fp + frame.size
    depth := s.depth - 1
    location := location
    activation := caller }

/-- Leave the running frame for that of the caller, whose frame pointer was saved
in it, and yield the return value. -/
def leave (frame : Frame) (caller : Activation) (location : Location) : Exec Word := do
  let saved ← load ((← get).fp + frame.linkOffset)
  resume frame caller location saved

/-- Check that a function can be called with a number of arguments, and yield the
address of its new frame. -/
def reserve (frame : Frame) (argCount : Nat) : Exec Word := fun s =>
  let base := s.sp - frame.size
  if (s.depth : Int) ≥ setup.maxDepth then
    fault (.depthLimit setup.maxDepth frame.label.name) s
  else if base < setup.program.dataSize then
    fault (.frameTooLarge frame.label.name frame.size) s
  else if argCount ≠ frame.params.length then
    defect (.argumentCount frame.label.name frame.params.length argCount) s
  else
    .ok base s

/-- Write the static link, the arguments and the caller's frame pointer into a new
frame. -/
def fill (frame : Frame) (base link : Word) (args : List Word) : Exec Unit := do
  store base link
  storeAll base (frame.params.zip args)
  store (base + frame.linkOffset) (← get).fp

/-- Run a function in a new frame. -/
def invoke (f : Function) (link : Word) (args : List Word) : Exec Word := do
  let base ← reserve setup f.frame args.length
  fill f.frame base link args
  let caller := (← get).activation
  let location := (← get).location
  enter setup f.frame base
  run f.body
  leave f.frame caller location

/-- Call the function at a label. The first argument is the number of static links
to follow. Labels without code may still name a built-in function. -/
def call (l : Label) (args : List Word) : Exec Word :=
  match setup.program.function? l with
  | some f =>
    match args with
    | [] => defect .missingArgument
    | hops :: args => do
      let link ← followLinks hops.toInt.toNat (← get).fp
      invoke setup run f link args
  | none =>
    match Builtin.ofName? l.name with
    | some b => do
      countCall
      match args with
      | [] => defect .missingArgument
      | _ :: args => b.apply args
    | none => fault (.noFunction l.name)

mutual

/-- The value of an expression. -/
def eval : Expr → Exec Word
  | .const n => pure n
  | .name l =>
    match setup.program.address? l with
    | some addr => pure addr
    | none => fault (.noData l.name)
  | .temp t => readTemp t
  | .mem a => do load (← eval a)
  | .binop op x y => do
    let x ← eval x
    let y ← eval y
    binary op x y
  | .unop op x => do unary op (← eval x)
  | .call f args => do call setup run f (← evalAll args)
  | .eseq s e => do
    let l ← location
    run (.ofStmt s)
    setLocation l
    eval e

/-- The values of a list of expressions, from left to right. -/
def evalAll : List Expr → Exec (List Word)
  | [] => pure []
  | e :: es => do
    let v ← eval e
    return v :: (← evalAll es)

end

/-- The kind of an expression, as the report of a bad move names it. -/
def targetName : Expr → String
  | .const _ => "*ir.Const"
  | .name _ => "*ir.Name"
  | .temp _ => "*ir.Temp"
  | .mem _ => "*ir.Mem"
  | .binop .. => "*ir.BinOp"
  | .unop .. => "*ir.UnOp"
  | .call .. => "*ir.Call"
  | .eseq .. => "*ir.ESeq"

/-- Move a value into a temp or into memory. The address is evaluated before the
source. -/
def move (target source : Expr) : Exec Unit :=
  match target with
  | .temp t =>
    if t = Temp.fp then defect .moveIntoFramePointer
    else do writeTemp t (← eval setup run source)
  | .mem a => do
    let addr ← eval setup run a
    store addr (← eval setup run source)
  | target => defect (.moveInto (targetName target))

/-- The position of a jump's target in the running block. -/
def target (b : Block) (l : Label) : Exec Nat :=
  match b.position? l with
  | some pc => pure pc
  | none => fault (.noTarget l.name)

/-- Execute the instruction at a position of a block and yield the position of the
next one. -/
def step (b : Block) (pc : Nat) : Stmt → Exec Nat
  | .label _ => pure (pc + 1)
  | .jump l => target b l
  | .cjump c t f => do
    let v ← eval setup run c
    target b (if v = 0 then f else t)
  | .move d s => do
    move setup run d s
    return pc + 1
  | .exp e => do
    let _ ← eval setup run e
    return pc + 1
  | .seq _ => defect (.nestedSequence "*ir.Seq")
  | .absent => defect (.nestedSequence "<nil>")

end Exec

end TreeCode
