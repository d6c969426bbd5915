/-
# The meaning of source programs

A direct evaluator of the source tree, on the state of the machine: memory, frame and
stack pointer, depth of calls, output. It follows the structure of the tree and knows
neither temps nor jumps. Variables live where the layout puts them and are found
through the static links; aggregates are represented by their address; a call takes a
frame off the stack and gives it back.

Every node has three readings: its value, its effect and its address. Operands are
evaluated from left to right, an array before its index, the target of an assignment
before its source.

Two parts of evaluation have no bound of their own, loops and calls. They are given by
a `Practice`; `Source.Program.practice` is the one that bounds both by an amount of
fuel. Nodes that make no sense where they stand have a meaning without an end.

The bytes of string literals are part of the data of a program. Literals are numbered
in the order in which they are met, functions listed in a `where` before its body and
an index before its array; the counter of a counting loop is met four times.
-/

import TreeCode.Layout
import TreeCode.Proofs.Machine.Loop

namespace TreeCode

open Source (Node Op Symbol)

/-- The result of a binary operator. One that is not binary adds. -/
def Source.Op.apply (op : Op) (x y : Word) : Exec Word :=
  match op with
  | .or => pure (.ofBool (x != 0 || y != 0))
  | .and => pure (.ofBool (x != 0 && y != 0))
  | .eq => pure (.ofBool (x == y))
  | .ne => pure (.ofBool (x != y))
  | .le => pure (.ofBool (x ≤ y))
  | .ge => pure (.ofBool (x ≥ y))
  | .lt => pure (.ofBool (x < y))
  | .gt => pure (.ofBool (x > y))
  | .sub => pure (x - y)
  | .mul => pure (x * y)
  | .div => if y = 0 then Exec.fault (.zeroDivisor x .div) else pure (x / y)
  | .mod => if y = 0 then Exec.fault (.zeroDivisor x .mod) else pure (x % y)
  | _ => pure (x + y)

/-- The address of the literal of a number. Literals are the data that has initial
bytes. -/
def Program.literal (p : Program) (i : Nat) : Word :=
  (((p.data.filter fun d => !d.init.isEmpty)[i]?).map (·.offset)).getD 0

namespace Source.Node

mutual

/-- The number of literals that are met in a node. -/
def literals : Node → Nat
  | .string _ => 1
  | .binary _ left right => left.literals + right.literals
  | .unary _ operand => operand.literals
  | .member operand _ => operand.literals
  | .call _ args => literalsAll args
  | .sequence items => literalsAll items
  | .within body defs => literalsIn defs + body.literals
  | .branch _ condition thenArm none => condition.literals + thenArm.literals
  | .branch _ condition thenArm (some elseArm) =>
    condition.literals + (thenArm.literals + elseArm.literals)
  | .whileLoop condition body => condition.literals + body.literals
  | .forLoop counter lo hi step body =>
    counter.literals + (lo.literals + (counter.literals + (hi.literals + (body.literals +
      (counter.literals + (counter.literals + step.literals))))))
  | _ => 0

/-- The number of literals that are met in the nodes of a list. -/
def literalsAll : List Node → Nat
  | [] => 0
  | n :: rest => n.literals + literalsAll rest

/-- The number of literals that are met in the functions of a list of definitions. -/
def literalsIn : List Node → Nat
  | [] => 0
  | .funDecl _ _ (some body) :: rest => body.literals + literalsIn rest
  | _ :: rest => literalsIn rest

end

end Source.Node

/-- A function with a body, and the number of the first literal that is met in it. -/
structure Source.Function where
  decl : Symbol
  body : Node
  literal : Nat

namespace Source.Node

mutual

/-- The functions that are defined in a node whose literals have numbers from `i` on. -/
def functions : Node → Nat → List Source.Function
  | .binary .index array index, i => index.functions i ++ array.functions (i + index.literals)
  | .binary _ left right, i => left.functions i ++ right.functions (i + left.literals)
  | .unary _ operand, i => operand.functions i
  | .member operand _, i => operand.functions i
  | .call _ args, i => functionsAll args i
  | .sequence items, i => functionsAll items i
  | .within body defs, i => functionsIn defs i ++ body.functions (i + literalsIn defs)
  | .branch _ condition thenArm none, i =>
    condition.functions i ++ thenArm.functions (i + condition.literals)
  | .branch _ condition thenArm (some elseArm), i =>
    condition.functions i ++ (thenArm.functions (i + condition.literals) ++
      elseArm.functions (i + condition.literals + thenArm.literals))
  | .whileLoop condition body, i =>
    condition.functions i ++ body.functions (i + condition.literals)
  | .forLoop counter lo hi step body, i =>
    counter.functions i ++ (lo.functions (i + counter.literals) ++
      (counter.functions (i + counter.literals + lo.literals) ++
        (hi.functions (i + counter.literals + lo.literals + counter.literals) ++
          (body.functions (i + counter.literals + lo.literals + counter.literals +
            hi.literals) ++
            (counter.functions (i + counter.literals + lo.literals + counter.literals +
              hi.literals + body.literals) ++
              (counter.functions (i + counter.literals + lo.literals + counter.literals +
                hi.literals + body.literals + counter.literals) ++
                step.functions (i + counter.literals + lo.literals + counter.literals +
                  hi.literals + body.literals + counter.literals + counter.literals)))))))
  | _, _ => []

/-- The functions that are defined in the nodes of a list. -/
def functionsAll : List Node → Nat → List Source.Function
  | [], _ => []
  | n :: rest, i => n.functions i ++ functionsAll rest (i + n.literals)

/-- The functions of a list of definitions, and those that are defined in them. -/
def functionsIn : List Node → Nat → List Source.Function
  | [], _ => []
  | .funDecl x _ (some body) :: rest, i =>
    ⟨x, body, i⟩ :: (body.functions i ++ functionsIn rest (i + body.literals))
  | _ :: rest, i => functionsIn rest i

end

end Source.Node

namespace Source.Program

/-- All functions of a program that have a body. -/
def functions (p : Source.Program) : List Source.Function :=
  Node.functionsIn p.defs 0

/-- The function of a declaration. -/
def function? (p : Source.Program) (x : Symbol) : Option Source.Function :=
  p.functions.find? fun f => f.decl.id == x.id

end Source.Program

/-- How loops and calls are carried out. A loop goes on as long as its round yields
something; a call is told the frame of the callee and the number of static links to
follow. -/
structure Practice where
  loop : Exec (Option Unit) → Exec Unit
  call : FrameRecord → Int → List Word → Exec Word

/-- The readings of a node. -/
structure Meaning where
  value : Exec Word
  effect : Exec Unit
  address : Exec Word

namespace Meaning

/-- Drop the value of a computation. -/
def drop (x : Exec Word) : Exec Unit := do
  let _ ← x
  return ()

/-- A node that has a value and no address. -/
def ofValue (value : Exec Word) : Meaning :=
  ⟨value, drop value, Exec.diverge⟩

/-- A node that has only an effect. -/
def ofEffect (effect : Exec Unit) : Meaning :=
  ⟨do effect; return 0, effect, Exec.diverge⟩

/-- A node that denotes a place in memory. Aggregates are represented by their address. -/
def ofPlace (ty : Ty) (address : Exec Word) : Meaning :=
  let value := if ty.isAggregate then address else do Exec.load (← address)
  ⟨value, drop value, address⟩

/-- A choice between two computations. -/
def choose {α : Type} (condition : Exec Word) (thenArm elseArm : Exec α) : Exec α := do
  let v ← condition
  if v = 0 then elseArm else thenArm

/-- One round of a loop: a test, and something to do if it is met. -/
def round (condition : Exec Word) (body : Exec Unit) : Exec (Option Unit) :=
  choose condition (do body; return some ()) (return none)

/-- Write a value to an address that is computed before it. -/
def assign (address value : Exec Word) : Exec Word := do
  let a ← address
  let v ← value
  Exec.store a v
  return v

/-- The test of a counting loop: the counter is below the upper bound. -/
def test (counter hi : Exec Word) : Exec Word := do
  let a ← counter
  let x ← Exec.load a
  let h ← hi
  return .ofBool (x < h)

/-- Add the step of a counting loop to its counter, which is found once to be written and
once to be read. -/
def advance (written read step : Exec Word) : Exec Unit :=
  drop <| assign written do
    let a ← read
    let x ← Exec.load a
    let d ← step
    return x + d

end Meaning

section

variable (types : TypeTable) (layout : Layout) (program : TreeCode.Program)
  (practice : Practice)

/-- The address of a slot in a frame at a nesting level, seen from the current function. -/
def slotPlace (current : FrameRecord) (frame : Nat) (offset : Word) : Exec Word := do
  let base ← Exec.followLinks (current.level - layout.frameLevel frame) (← get).fp
  return base + offset

/-- The address of a variable or parameter. -/
def symbolPlace (current : FrameRecord) (x : Symbol) : Exec Word :=
  match layout.access? x with
  | none => Exec.diverge
  | some (.global l _) =>
    match program.address? l with
    | some a => pure a
    | none => Exec.fault (.noData l.name)
  | some (.localSlot frame offset _) => slotPlace layout current frame offset
  | some (.paramSlot frame offset byRef) => do
    let slot ← slotPlace layout current frame offset
    if byRef then Exec.load slot else pure slot

namespace Source.Node

open Meaning (advance assign choose drop ofEffect ofPlace ofValue round test)

mutual

/-- The meaning of a node of the current function, whose literals have numbers from `i`
on. -/
def meaning (current : FrameRecord) : Node → Nat → Meaning
  | .number n, _ => ofValue (pure n)
  | .logical b, _ => ofValue (pure (.ofBool b))
  | .string _, i => ofValue (pure (program.literal i))
  | .ident x, _ => ofPlace x.ty (symbolPlace layout program current x)
  | .member operand field, i =>
    let entry := ((operand.ty types).field? field).getD (0, .absent)
    ofPlace entry.2 do
      let a ← (operand.meaning current i).address
      return a + entry.1
  | .binary .index array index, i =>
    let elem := types.base (array.ty types)
    ofPlace elem do
      let base ← (array.meaning current (i + index.literals)).address
      let v ← (index.meaning current i).value
      return base + v * elem.size
  | .binary .assign target source, i =>
    ofValue <|
      if (target.ty types).isAggregate then Exec.diverge
      else assign (target.meaning current i).address
        (source.meaning current (i + target.literals)).value
  | .binary op left right, i =>
    ofValue do
      let x ← (left.meaning current i).value
      let y ← (right.meaning current (i + left.literals)).value
      op.apply x y
  | .unary .plus operand, i => ofValue (operand.meaning current i).value
  | .unary .neg operand, i =>
    ofValue do
      let x ← (operand.meaning current i).value
      return -x
  | .unary .not operand, i =>
    ofValue do
      let x ← (operand.meaning current i).value
      return .ofBool (x == 0)
  | .unary .addr operand, i => ofValue (operand.meaning current i).address
  | .unary .deref operand, i =>
    ofPlace (types.base (operand.ty types)) (operand.meaning current i).value
  | .unary _ _, _ => ofValue Exec.diverge
  | .call callee args, i =>
    ofValue <|
      match layout.frameOf? callee with
      | none => Exec.diverge
      | some f => do
        let args ← arguments current args i
        practice.call f (current.level - (f.level - 1)) args
  | .sequence items, i =>
    { ofEffect (effects current items i) with value := lastValue current items i }
  | .within body defs, i => body.meaning current (i + literalsIn defs)
  | .branch _ condition thenArm none, i =>
    ofEffect <|
      choose (condition.meaning current i).value
        (thenArm.meaning current (i + condition.literals)).effect (return ())
  | .branch valued condition thenArm (some elseArm), i =>
    let c := (condition.meaning current i).value
    let t := thenArm.meaning current (i + condition.literals)
    let e := elseArm.meaning current (i + condition.literals + thenArm.literals)
    let both := ofEffect (choose c t.effect e.effect)
    if !valued || (thenArm.ty types).isVoid then both
    else { both with value := choose c t.value e.value }
  | .whileLoop condition body, i =>
    ofEffect <| practice.loop <|
      round (condition.meaning current i).value
        (body.meaning current (i + condition.literals)).effect
  | .forLoop counter lo hi step body, i =>
    let loAt := i + counter.literals
    let testedAt := loAt + lo.literals
    let hiAt := testedAt + counter.literals
    let bodyAt := hiAt + hi.literals
    let writtenAt := bodyAt + body.literals
    let readAt := writtenAt + counter.literals
    let stepAt := readAt + counter.literals
    ofEffect do
      drop (assign (counter.meaning current i).address (lo.meaning current loAt).value)
      practice.loop <|
        round (test (counter.meaning current testedAt).address (hi.meaning current hiAt).value)
          do
            (body.meaning current bodyAt).effect
            advance (counter.meaning current writtenAt).address
              (counter.meaning current readAt).address (step.meaning current stepAt).value
  | .funDecl _ _ _, _ => ofValue Exec.diverge
  | .varDecl _, _ => ofValue Exec.diverge
  | .parDecl _, _ => ofValue Exec.diverge
  | .typeDecl _, _ => ofValue Exec.diverge

/-- The effects of the nodes of a list, in order. -/
def effects (current : FrameRecord) : List Node → Nat → Exec Unit
  | [], _ => pure ()
  | n :: rest, i => do
    (n.meaning current i).effect
    effects current rest (i + n.literals)

/-- The value of the last node of a list after the effects of those before it. -/
def lastValue (current : FrameRecord) : List Node → Nat → Exec Word
  | [], _ => pure 0
  | [n], i =>
    if (n.ty types).isVoid then do (n.meaning current i).effect; return 0
    else (n.meaning current i).value
  | n :: rest, i => do
    (n.meaning current i).effect
    lastValue current rest (i + n.literals)

/-- The arguments of a call, in order. Aggregates are passed by address. -/
def arguments (current : FrameRecord) : List Node → Nat → Exec (List Word)
  | [], _ => pure []
  | n :: rest, i => do
    let m := n.meaning current i
    let v ← if (n.ty types).isAggregate then m.address else m.value
    let vs ← arguments current rest (i + n.literals)
    return v :: vs

end

end Source.Node

end

namespace Exec

/-- Take a frame off the stack. -/
def occupy (setup : Setup) (base : Word) : Exec Unit := fun s =>
  let depth := s.depth + 1
  let used := setup.memorySize - base
  .ok () { s with
    fp := base
    sp := base
    depth := depth
    stats := { s.stats with
      calls := s.stats.calls + 1
      maxDepth := max s.stats.maxDepth depth
      peakStack := if s.stats.peakStack < used then used else s.stats.peakStack } }

/-- Give a frame back and go on in that of the caller. -/
def vacate (frame : Frame) : Exec Unit := do
  let saved ← load ((← get).fp + frame.linkOffset)
  modify fun s => { s with fp := saved, sp := s.fp + frame.size, depth := s.depth - 1 }

/-- Evaluate the body of a function in a new frame. -/
def framed (setup : Setup) (frame : Frame) (link : Word) (args : List Word) (body : Exec Word) :
    Exec Word := do
  let base ← reserve setup frame args.length
  fill frame base link args
  occupy setup base
  let v ← body
  vacate frame
  return v

end Exec

namespace Source

/-- The meaning of the body of a function. A function without a result yields zero. -/
def Function.meaning (types : TypeTable) (layout : Layout) (program : TreeCode.Program)
    (practice : Practice) (f : Source.Function) (frame : FrameRecord) : Exec Word :=
  let m := f.body.meaning types layout program practice frame f.literal
  if f.decl.ty.isVoid then do m.effect; return 0 else m.value

namespace Program

variable (p : Source.Program) (layout : Layout) (setup : Setup)

/-- Call the function of a frame. Without a body it may still be a built-in one. -/
def call (practice : Practice) (frame : FrameRecord) (hops : Int) (args : List Word) :
    Exec Word :=
  match p.function? frame.decl with
  | some f => do
    let link ← Exec.followLinks (Int64.ofInt hops).toInt.toNat (← get).fp
    Exec.framed setup frame.frame link args
      (f.meaning p.types layout setup.program practice frame)
  | none =>
    match Builtin.ofName? frame.label.name with
    | some b => do
      Exec.countCall
      b.apply args
    | none => Exec.fault (.noFunction frame.label.name)

/-- Loops of a bounded number of rounds and calls of a bounded depth. -/
def practice : Nat → Practice
  | 0 => ⟨fun round => Exec.rounds (fun _ => round) 0 (), fun _ _ _ => throw .outOfFuel⟩
  | n + 1 =>
    ⟨fun round => Exec.rounds (fun _ => round) (n + 1) (), p.call layout setup (practice n)⟩

/-- The function whose label has a name, with its frame. -/
def entryOf? (name : String) : Option (Source.Function × FrameRecord) :=
  p.functions.findSome? fun f =>
    match layout.frameOf? f.decl with
    | some frame => if frame.label.name = name then some (f, frame) else none
    | none => none

/-- Evaluate a program from the function of a name on. -/
def evaluate (fuel : Nat) (name : String) (arg : Word) : Exec Word :=
  match p.entryOf? layout name with
  | none => Exec.fault (.noEntry name)
  | some (f, frame) =>
    Exec.framed setup frame.frame 0 [arg]
      (f.meaning p.types layout setup.program (p.practice layout setup fuel) frame)

end Program

end Source

end TreeCode
