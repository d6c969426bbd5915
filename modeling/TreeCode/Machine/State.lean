/-
# State of the machine

The data of a program lies at the bottom of memory and the stack grows down from
the top. The machine holds the frame pointer and the stack pointer, the place of
the running instruction, the temps of the running activation and a few counters.

Computations of the machine either yield a value or stop early; in both cases the
state they leave behind is known.
-/

import TreeCode.Machine.Fault
import TreeCode.Machine.Memory
import TreeCode.Program

namespace TreeCode

/-- Whether a machine has run, and how its run ended. -/
inductive Status where
  | running
  | halted
  | faulted
deriving DecidableEq, Repr

/-- The name of a status. -/
def Status.name : Status → String
  | running => "running"
  | halted => "halted"
  | faulted => "faulted"

/-- The name of the status with a number; any other number is shown as such. -/
def Status.nameOfCode (code : Int) : String :=
  if code = 0 then running.name
  else if code = 1 then halted.name
  else if code = 2 then faulted.name
  else s!"State({code})"

/-- What a machine counts. -/
structure Stats where
  instructions : Nat
  calls : Nat
  maxDepth : Nat
  /-- The most bytes of stack in use at once. -/
  peakStack : Word
deriving DecidableEq, Repr

/-- The values of temps. A temp that was never written is zero. -/
structure Temps where
  entries : List (Temp × Word)

namespace Temps

/-- No temp has been written. -/
def empty : Temps :=
  ⟨[]⟩

/-- The value of a temp. -/
def get (ts : Temps) (t : Temp) : Word :=
  (ts.entries.lookup t).getD 0

/-- Write a temp. -/
def set (ts : Temps) (t : Temp) (w : Word) : Temps :=
  ⟨(t, w) :: ts.entries.filter fun entry => entry.1 != t⟩

/-- Removing the entries of one temp leaves the others alone. -/
theorem lookup_filter_ne {t u : Temp} (h : u ≠ t) (entries : List (Temp × Word)) :
    (entries.filter fun entry => entry.1 != t).lookup u = entries.lookup u := by
  induction entries with
  | nil => rfl
  | cons entry rest ih =>
    obtain ⟨v, w⟩ := entry
    by_cases hv : v = t
    · subst hv
      have hb : (u == v) = false := by simpa using h
      simp [List.lookup_cons, ih, hb]
    · cases hb : u == v <;> simp [List.lookup_cons, hv, ih, hb]

/-- Reading a temp after a write: the written value, or what was there before. -/
@[simp]
theorem get_set (ts : Temps) (t u : Temp) (w : Word) :
    (ts.set t w).get u = if u = t then w else ts.get u := by
  by_cases h : u = t
  · subst h
    simp [set, get]
  · have hb : (u == t) = false := by simpa using h
    simp only [set, get, List.lookup_cons, hb, if_neg h]
    rw [lookup_filter_ne h]

end Temps

/-- The function that is running, with its temps. -/
structure Activation where
  function : String
  temps : Temps

/-- Everything about a machine that a run changes. -/
structure State where
  memory : Memory
  fp : Word
  sp : Word
  depth : Nat
  location : Location
  status : Status
  started : Bool
  stats : Stats
  activation : Activation
  /-- The bytes printed by the program. -/
  output : Array UInt8
  /-- One line for every instruction that was executed, when tracing is on. -/
  trace : Array String

/-- Everything about a machine that a run does not change. -/
structure Setup where
  program : Program
  memorySize : Word
  maxDepth : Int
  traced : Bool

/-- A computation of the machine. -/
abbrev Exec := EStateM Stop State

namespace Exec

/-- Stop with a fault at the running instruction. -/
def fault {α : Type} (cause : FaultCause) : Exec α := fun s =>
  .error (.fault ⟨cause, s.location, s.fp, s.sp⟩) { s with status := .faulted }

/-- Stop because of a defect. -/
def defect {α : Type} (d : Defect) : Exec α := fun s =>
  .error (.defect d) s

/-- Read the word at an address. -/
def load (addr : Word) : Exec Word := fun s =>
  if s.memory.holdsWord addr then .ok (s.memory.readWord addr) s
  else fault (.load addr) s

/-- Write a word at an address. -/
def store (addr value : Word) : Exec Unit := fun s =>
  if s.memory.holdsWord addr then
    .ok () { s with memory := s.memory.writeWord addr value }
  else fault (.store addr) s

/-- Write words at offsets from an address, in order. -/
def storeAll (base : Word) : List (Word × Word) → Exec Unit
  | [] => pure ()
  | (offset, value) :: rest => do
    store (base + offset) value
    storeAll base rest

/-- The value of a temp. The frame pointer is a register of the machine. -/
def readTemp (t : Temp) : Exec Word := fun s =>
  if t = Temp.fp then .ok s.fp s else .ok (s.activation.temps.get t) s

/-- Write a temp of the running activation. -/
def writeTemp (t : Temp) (value : Word) : Exec Unit := fun s =>
  .ok () { s with activation.temps := s.activation.temps.set t value }

/-- The place of the running instruction. -/
def location : Exec Location := fun s =>
  .ok s.location s

/-- Continue at another place. -/
def setLocation (l : Location) : Exec Unit := fun s =>
  .ok () { s with location := l }

/-- Count a call. -/
def countCall : Exec Unit := fun s =>
  .ok () { s with stats.calls := s.stats.calls + 1 }

/-- Print bytes. -/
def print (bytes : List UInt8) : Exec Unit := fun s =>
  .ok () { s with output := s.output ++ bytes }

/-- The bytes of the string at an address, up to its terminating zero. -/
def loadString (addr : Word) : Exec (List UInt8) := fun s =>
  if 0 ≤ addr.toInt && addr.toInt < s.memory.size then
    match s.memory.stringFrom? addr.toInt.toNat with
    | some bytes => .ok bytes s
    | none => fault (.unterminatedString addr) s
  else fault (.stringAt addr) s

end Exec

end TreeCode
