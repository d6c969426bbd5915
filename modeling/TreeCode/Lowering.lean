/-
# Lowering

Lowering turns the source tree into tree code. Every node has up to three readings:
the code for its value, the code for its effect alone, and the code for its address
if it denotes a place in memory. The readings of a node are made from those of its
children, so one recursion over the tree gives all three.

* A node that has a value has the effect of computing it and dropping it.
* A node that has only an effect has the value zero after it.
* Aggregates are represented by their address; other values are loaded.

Lowering a function yields one code chunk; functions and string literals inside it
yield chunks of their own, which follow it. Labels and temps are drawn in the order
of the code, with two exceptions that are visible in their numbers: an index is
lowered before the array it goes into, and the labels of a construct come before
those of its parts.
-/

import TreeCode.IR.Basic
import TreeCode.Layout

namespace TreeCode

open IR (Chunk Expr Stmt)
open Source (Kind Node Symbol)

/-- Why a tree has no code. -/
inductive LowerError where
  | noValue (kind : Kind)
  | noAddress (kind : Kind)
  | aggregateAssignment (type : String)
  | notVisible (level : Nat) (function : String)
  | noFrame (name : String)
  | noStorage (name : String)
  | noElse
deriving DecidableEq, Repr

/-- The wording of a cause. -/
def LowerError.message : LowerError → String
  | noValue kind => s!"internal: cannot generate value for {kind.name}"
  | noAddress kind => s!"internal: {kind.name} is not addressable"
  | aggregateAssignment type => s!"internal: assignment to aggregate of type {type}"
  | notVisible level function =>
    s!"internal: frame at level {level} is not visible from '{function}'"
  | noFrame name => s!"internal: no frame for function '{name}'"
  | noStorage name => s!"internal: no storage for '{name}'"
  | noElse => "internal: conditional expression without else"

/-- The names left, and the chunks made so far. -/
structure LowerState where
  supply : Supply
  chunks : List Chunk

/-- A step of lowering. -/
abbrev Lower := StateT LowerState (Except LowerError)

namespace Lower

/-- A fresh temp. -/
def temp : Lower Temp := fun s =>
  let (t, supply) := s.supply.temp
  .ok (t, { s with supply := supply })

/-- A fresh jump label. -/
def label : Lower Label := fun s =>
  let (l, supply) := s.supply.label
  .ok (l, { s with supply := supply })

/-- Add a chunk after those made so far. -/
def emit (c : Chunk) : Lower Unit :=
  modify fun s => { s with chunks := s.chunks ++ [c] }

/-- Make the code chunk of a function. Chunks made by its body follow it. -/
def function (frame : Frame) (body : Lower Stmt) : Lower Unit := do
  let before := (← get).chunks
  modify fun s => { s with chunks := [] }
  let code ← body
  modify fun s => { s with chunks := before ++ .code frame code :: s.chunks }

/-- The address of a string literal, whose bytes become a data chunk: a zero byte
ends them, and the size is rounded up to whole words. -/
def string (bytes : List UInt8) : Lower Expr := do
  let init := bytes ++ [0]
  let size := Int64.ofNat ((init.length + Word.byteSize - 1) / Word.byteSize * Word.byteSize)
  let l ← fun s =>
    let (l, supply) := s.supply.string
    .ok (l, { s with supply := supply })
  emit (.data l size init)
  return .name l

end Lower

/-- An address at an offset from another one. -/
def atOffset (base : Expr) (offset : Word) : Expr :=
  if offset = 0 then base else .binop .add base (.const offset)

/-- Follow a number of static links from an address. -/
def linkChain : Nat → Expr → Expr
  | 0, base => base
  | n + 1, base => linkChain n (.mem base)

/-- The address of the frame at a nesting level, seen from the current function. -/
def frameAddress (current : FrameRecord) (level : Nat) : Lower Expr :=
  if level > current.level then
    throw (.notVisible level current.label.name)
  else
    return linkChain (current.level - level) (.temp Temp.fp)

/-- The address of a variable or parameter. -/
def symbolAddress (layout : Layout) (current : FrameRecord) (s : Symbol) : Lower Expr :=
  match layout.access? s with
  | none => throw (.noStorage s.name)
  | some (.global l _) => return .name l
  | some (.localSlot frame offset _) => do
    return atOffset (← frameAddress current (layout.frameLevel frame)) offset
  | some (.paramSlot frame offset byRef) => do
    let slot := atOffset (← frameAddress current (layout.frameLevel frame)) offset
    return if byRef then .mem slot else slot

/-- The operator of tree code for a binary operator. Operators that are not binary
stand for addition. -/
def binaryOp : Source.Op → IR.Op
  | .or => .or
  | .and => .and
  | .eq => .eq
  | .ne => .ne
  | .le => .le
  | .ge => .ge
  | .lt => .lt
  | .gt => .gt
  | .sub => .sub
  | .mul => .mul
  | .div => .div
  | .mod => .mod
  | _ => .add

/-- The readings of a node. -/
structure Lowering where
  ty : Ty
  value : Lower Expr
  effect : Lower Stmt
  address : Lower Expr

namespace Lowering

/-- A node that has a value and no address. -/
def ofValue (kind : Kind) (ty : Ty) (value : Lower Expr) : Lowering where
  ty := ty
  value := value
  effect := return .exp (← value)
  address := throw (.noAddress kind)

/-- A node that has only an effect. -/
def ofEffect (kind : Kind) (ty : Ty) (effect : Lower Stmt) : Lowering where
  ty := ty
  value := return .eseq (← effect) (.const 0)
  effect := effect
  address := throw (.noAddress kind)

/-- The value at an address. -/
def load (ty : Ty) (address : Lower Expr) : Lower Expr := do
  let a ← address
  return if ty.isAggregate then a else .mem a

/-- A node that denotes a place in memory. -/
def ofAddress (ty : Ty) (address : Lower Expr) : Lowering where
  ty := ty
  value := load ty address
  effect := return .exp (← load ty address)
  address := address

/-- A node after some definitions. -/
def after (defs : Lower Unit) (l : Lowering) : Lowering where
  ty := l.ty
  value := do defs; l.value
  effect := do defs; l.effect
  address := do defs; l.address

/-- A node as the argument of a call: aggregates are passed by address. -/
def argument (l : Lowering) : Lower Expr :=
  if l.ty.isAggregate then l.address else l.value

/-- The address of an element of an array. -/
def element (array index : Lowering) (elem : Ty) : Lower Expr := do
  let i ← index.value
  let base ← array.address
  return .binop .add base (.binop .mul i (.const elem.size))

/-- Aggregates cannot be assigned to. -/
def checkAssignable (types : TypeTable) (target : Lowering) : Lower Unit :=
  if target.ty.isAggregate then throw (.aggregateAssignment (types.text target.ty)) else pure ()

/-- An assignment for its effect. -/
def assign (types : TypeTable) (target source : Lowering) : Lower Stmt := do
  checkAssignable types target
  let a ← target.address
  return .move (.mem a) (← source.value)

/-- An assignment whose value is used. The address is computed before the source. -/
def assignValue (types : TypeTable) (target source : Lowering) : Lower Expr := do
  checkAssignable types target
  let addr ← Lower.temp
  let t ← Lower.temp
  let a ← target.address
  let v ← source.value
  return .eseq
    (.seq [.move (.temp addr) a, .move (.temp t) v, .move (.mem (.temp addr)) (.temp t)])
    (.temp t)

/-- A conditional for its effect. -/
def branchEffect (condition thenArm : Lowering) (elseArm : Option Lowering) : Lower Stmt := do
  let thenLabel ← Lower.label
  let elseLabel ← Lower.label
  let c ← condition.value
  match elseArm with
  | none =>
    let t ← thenArm.effect
    return .seq [.cjump c thenLabel elseLabel, .label thenLabel, t, .label elseLabel]
  | some elseArm =>
    let endLabel ← Lower.label
    let t ← thenArm.effect
    let e ← elseArm.effect
    return .seq [.cjump c thenLabel elseLabel, .label thenLabel, t, .jump endLabel,
      .label elseLabel, e, .label endLabel]

/-- A conditional for its value: both arms move theirs into one temp. -/
def branchValue (condition thenArm : Lowering) (elseArm : Option Lowering) : Lower Expr :=
  match elseArm with
  | none => throw .noElse
  | some elseArm => do
    let t ← Lower.temp
    let thenLabel ← Lower.label
    let elseLabel ← Lower.label
    let endLabel ← Lower.label
    let c ← condition.value
    let a ← thenArm.value
    let b ← elseArm.value
    return .eseq
      (.seq [.cjump c thenLabel elseLabel, .label thenLabel, .move (.temp t) a,
        .jump endLabel, .label elseLabel, .move (.temp t) b, .label endLabel])
      (.temp t)

/-- A conditional. Without a value to yield it is read for its effect. -/
def branch (ty : Ty) (condition thenArm : Lowering) (elseArm : Option Lowering) : Lowering :=
  let effect := branchEffect condition thenArm elseArm
  { ofEffect .branch ty effect with
    value :=
      if ty.isVoid then return .eseq (← effect) (.const 0)
      else branchValue condition thenArm elseArm }

/-- A loop that tests its condition before every round. -/
def whileLoop (condition body : Lowering) : Lower Stmt := do
  let startLabel ← Lower.label
  let bodyLabel ← Lower.label
  let endLabel ← Lower.label
  let c ← condition.value
  let b ← body.effect
  return .seq [.label startLabel, .cjump c bodyLabel endLabel, .label bodyLabel, b,
    .jump startLabel, .label endLabel]

/-- A counting loop. The upper bound and the step are evaluated in every round, and
the counter is found anew whenever it is used. -/
def forLoop (counter lo hi step body : Lowering) : Lower Stmt := do
  let startLabel ← Lower.label
  let bodyLabel ← Lower.label
  let endLabel ← Lower.label
  let first ← counter.address
  let l ← lo.value
  let tested ← counter.address
  let h ← hi.value
  let b ← body.effect
  let written ← counter.address
  let read ← counter.address
  let s ← step.value
  return .seq [.move (.mem first) l, .label startLabel,
    .cjump (.binop .lt (.mem tested) h) bodyLabel endLabel, .label bodyLabel, b,
    .move (.mem written) (.binop .add (.mem read) s), .jump startLabel, .label endLabel]

/-- The effects of a list of nodes, in order. -/
def effects (items : List Lowering) : Lower (List Stmt) :=
  items.mapM (·.effect)

/-- A sequence: its value is that of its last item. -/
def sequence (ty : Ty) (items : List Lowering) : Lowering :=
  let effect : Lower Stmt := return .seq (← effects items)
  { ofEffect .sequence ty effect with
    value :=
      match items.getLast? with
      | none => return .const 0
      | some last =>
        if last.ty.isVoid then return .eseq (← effect) (.const 0)
        else do
          let before ← effects items.dropLast
          return .eseq (.join before) (← last.value) }

/-- A binary operation. -/
def binary (types : TypeTable) (op : Source.Op) (ty : Ty) (left right : Lowering) : Lowering :=
  match op with
  | .index => ofAddress ty (element left right ty)
  | .assign =>
    { ofValue .binaryOp ty (assignValue types left right) with
      effect := assign types left right }
  | op =>
    ofValue .binaryOp ty do
      let x ← left.value
      return .binop (binaryOp op) x (← right.value)

/-- A unary operation. -/
def unary (op : Source.Op) (ty : Ty) (operand : Lowering) : Lowering :=
  match op with
  | .plus => ofValue .unaryOp ty operand.value
  | .neg => ofValue .unaryOp ty (return .unop .neg (← operand.value))
  | .not => ofValue .unaryOp ty (return .unop .not (← operand.value))
  | .addr => ofValue .unaryOp ty operand.address
  | .deref => ofAddress ty operand.value
  | _ => ofValue .unaryOp ty (throw (.noValue .unaryOp))

/-- A call. The number of static links to follow is the first argument. -/
def call (layout : Layout) (current : FrameRecord) (callee : Symbol) (args : List Lowering) :
    Lower Expr :=
  match layout.frameOf? callee with
  | none => throw (.noFrame callee.name)
  | some f => do
    let hops : Int := current.level - (f.level - 1)
    let args ← args.mapM argument
    return .call f.label (.const (Int64.ofInt hops) :: args)

/-- A declaration where a value is expected. -/
def ofDecl (kind : Kind) (ty : Ty) : Lowering :=
  ofValue kind ty (throw (.noValue kind))

end Lowering

section

variable (types : TypeTable) (layout : Layout)

mutual

/-- The readings of a node inside the current function. -/
def Source.Node.lower (current : FrameRecord) : Node → Lowering
  | .number n => .ofValue .number .integer (return .const n)
  | .logical b => .ofValue .logical .logical (return .const (.ofBool b))
  | .string bytes => .ofValue .string .string (Lower.string bytes)
  | .ident s => .ofAddress s.ty (symbolAddress layout current s)
  | .member operand field =>
    let l := operand.lower current
    let (offset, ty) := (l.ty.field? field).getD (0, .absent)
    .ofAddress ty (return atOffset (← l.address) offset)
  | .binary op left right =>
    let l := left.lower current
    let r := right.lower current
    .binary types op (Source.Node.binaryTy types op l.ty) l r
  | .unary op operand =>
    let l := operand.lower current
    .unary op (Source.Node.unaryTy types op l.ty) l
  | .call callee args =>
    let args := Source.Node.lowerAll current args
    .ofValue .funcCall callee.ty (Lowering.call layout current callee args)
  | .sequence items =>
    let items := Source.Node.lowerAll current items
    .sequence ((items.getLast?.map (·.ty)).getD .void) items
  | .within body defs =>
    (body.lower current).after (Source.Node.lowerDefs defs)
  | .branch valued condition thenArm none =>
    let t := thenArm.lower current
    .branch (if valued then t.ty else .void) (condition.lower current) t none
  | .branch valued condition thenArm (some elseArm) =>
    let t := thenArm.lower current
    .branch (if valued then t.ty else .void) (condition.lower current) t
      (some (elseArm.lower current))
  | .whileLoop condition body =>
    .ofEffect .whileLoop .void (Lowering.whileLoop (condition.lower current) (body.lower current))
  | .forLoop counter lo hi step body =>
    .ofEffect .forLoop .void
      (Lowering.forLoop (counter.lower current) (lo.lower current) (hi.lower current)
        (step.lower current) (body.lower current))
  | .funDecl s _ _ => .ofDecl .funcDecl s.ty
  | .varDecl s => .ofDecl .varDecl s.ty
  | .parDecl s => .ofDecl .parDecl s.ty
  | .typeDecl s => .ofDecl .typeDecl s.ty

/-- The readings of the nodes of a list. -/
def Source.Node.lowerAll (current : FrameRecord) : List Node → List Lowering
  | [] => []
  | n :: rest => n.lower current :: Source.Node.lowerAll current rest

/-- The chunks of a list of definitions, for the functions and static variables
among them. -/
def Source.Node.lowerDefs : List Node → Lower Unit
  | [] => pure ()
  | .varDecl s :: rest => do
    match layout.access? s with
    | none => throw (.noStorage s.name)
    | some (.global l size) => Lower.emit (.data l size [])
    | some _ => pure ()
    Source.Node.lowerDefs rest
  | .funDecl s _ (some body) :: rest => do
    match layout.frameOf? s with
    | none => throw (.noFrame s.name)
    | some f =>
      let l := body.lower f
      Lower.function f.frame <|
        if s.ty.isVoid then l.effect else return .move (.temp Temp.rv) (← l.value)
    Source.Node.lowerDefs rest
  | _ :: rest => Source.Node.lowerDefs rest

end

end

/-- The chunks of a program, and the names left. -/
def Source.Program.lower (p : Source.Program) (layout : Layout) (supply : Supply) :
    Except LowerError (List Chunk × Supply) := do
  let (_, s) ← Source.Node.lowerDefs p.types layout p.defs ⟨supply, []⟩
  return (s.chunks, s.supply)

end TreeCode
