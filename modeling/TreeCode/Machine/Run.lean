/-
# Runs

A block is executed instruction by instruction until control falls off its end.
Nothing forces a program to end, so a run has a bound on the number of steps, its
fuel: running out of it is an outcome of its own, different from every outcome of
the program. More fuel never changes an outcome that was reached.

A machine is made for one run. Asking for a second one is refused; reading memory
stays possible, and an address outside memory faults then as it does in a run.
-/

import TreeCode.Machine.Digest
import TreeCode.Machine.Eval
import TreeCode.Text.Pad

namespace TreeCode

namespace Exec

/-- The line that the trace shows for an instruction. -/
def traceLine (s : State) (stmt : IR.Stmt) : String :=
  Text.padRight 24 s.location.text ++ " fp=" ++ Text.padRight 8 s.fp.text ++
    " sp=" ++ Text.padRight 8 s.sp.text ++ " " ++ TextError.embed stmt.text ++ "\n"

/-- Make the instruction at a position the running one. -/
def start (setup : Setup) (pc : Nat) (stmt : IR.Stmt) : Exec Unit := fun s =>
  let s := { s with
    location := ⟨s.activation.function, pc⟩
    stats.instructions := s.stats.instructions + 1 }
  .ok () (if setup.traced then { s with trace := s.trace.push (traceLine s stmt) } else s)

/-- Execute a block from a position on, until control falls off its end. -/
def block (setup : Setup) : Nat → Block → Nat → Exec Unit
  | 0, _, _ => throw .outOfFuel
  | fuel + 1, b, pc =>
    match b[pc]? with
    | none => pure ()
    | some stmt => do
      start setup pc stmt
      let next ← step setup (fun inner => block setup fuel inner 0) b pc stmt
      block setup fuel b next

end Exec

/-- What may be chosen for a machine; zero stands for the default. -/
structure Options where
  memorySize : Word
  maxDepth : Int
  traced : Bool

namespace Options

/-- The memory of a machine when nothing else is chosen: one mebibyte. -/
def defaultMemorySize : Word := 1048576

/-- The limit on the depth of calls when nothing else is chosen. -/
def defaultMaxDepth : Int := 4096

/-- The setup of a machine for a program. -/
def setup (o : Options) (p : Program) : Setup where
  program := p
  memorySize := if o.memorySize = 0 then defaultMemorySize else o.memorySize
  maxDepth := if o.maxDepth = 0 then defaultMaxDepth else o.maxDepth
  traced := o.traced

end Options

/-- Why no machine can be made. -/
inductive NewError where
  | memoryTooSmall (memorySize dataSize : Word)
  /-- The memory cannot be set aside, or the data of the program has no image. -/
  | noImage
deriving DecidableEq, Repr

namespace NewError

/-- The wording of a cause, if it has one. -/
def message? : NewError → Option String
  | memoryTooSmall memorySize dataSize =>
    some s!"memory size {memorySize.text} is smaller than the data area ({dataSize.text} bytes)"
  | noImage => none

end NewError

/-- Why a run yields no value. -/
inductive RunError where
  | alreadyRun
  | stopped (stop : Stop)
deriving DecidableEq, Repr

/-- The wording of the refusal of a second run. -/
def RunError.alreadyRunMessage : String :=
  "machine has already run"

/-- A machine for one run of a program. -/
structure Machine where
  setup : Setup
  state : State

namespace Machine

/-- The state of a machine before its run. -/
def initialState (memorySize : Word) (memory : Memory) : State where
  memory := memory
  fp := memorySize
  sp := memorySize
  depth := 0
  location := ⟨"", 0⟩
  status := .running
  started := false
  stats := ⟨0, 0, 0, 0⟩
  activation := ⟨"", .empty⟩
  output := #[]
  trace := #[]

/-- The memory of a new machine: the image of the data, followed by zeros. -/
def initialMemory (size : Nat) (image : Array UInt8) : Memory :=
  ⟨image ++ Array.replicate (size - image.size) 0⟩

/-- A new machine for a program. -/
def new (p : Program) (o : Options) : Except NewError Machine :=
  let setup := o.setup p
  if setup.memorySize < p.dataSize then
    .error (.memoryTooSmall setup.memorySize p.dataSize)
  else if !Program.allocatable setup.memorySize then
    .error .noImage
  else
    match p.image? with
    | none => .error .noImage
    | some image =>
      let memory := initialMemory setup.memorySize.toInt.toNat image
      .ok ⟨setup, initialState setup.memorySize memory⟩

/-- Call the function of a name with one argument. -/
def enter (setup : Setup) (fuel : Nat) (name : String) (arg : Word) : Exec Word :=
  match setup.program.lookup? name with
  | none => Exec.fault (.noEntry name)
  | some f => Exec.invoke setup (fun b => Exec.block setup fuel b 0) f 0 [arg]

/-- Run a program from the function of a name. -/
def run (m : Machine) (fuel : Nat) (name : String) (arg : Word) :
    Except RunError Word × Machine :=
  if m.state.started then
    (.error .alreadyRun, m)
  else
    let setup := m.setup
    match enter setup fuel name arg { m.state with started := true, status := .running } with
    | .ok value state => (.ok value, ⟨setup, { state with status := .halted }⟩)
    | .error stop state => (.error (.stopped stop), ⟨setup, state⟩)

/-- The word at an address. -/
def word (m : Machine) (addr : Word) : Except Stop Word × Machine :=
  match Exec.load addr m.state with
  | .ok value state => (.ok value, { m with state := state })
  | .error stop state => (.error stop, { m with state := state })

/-- The address of the data of a name. -/
def addressOf? (m : Machine) (name : String) : Option Word :=
  m.setup.program.addressOf? name

/-- The digest of the whole memory. -/
def digest (m : Machine) : UInt64 :=
  Digest.ofBytes m.state.memory.bytes

end Machine

end TreeCode
