/-
# Programs

A program is a list of chunks with the tables the machine needs: the functions
with their instructions, and the place of every data chunk in memory. Data chunks
lie one after the other from address zero, in the order of the chunks. Bodies need
not be canonical: an instruction may still contain statements.

Chunk names must be distinct. Sizes of data may be negative in hand-written
chunks; such a program exists, but there may be no initial memory for it.
-/

import TreeCode.IR.Basic

namespace TreeCode

open IR (Stmt Chunk)

/-- A flat list of instructions, addressed by position. -/
abbrev Block := Array Stmt

namespace Block

/-- Whether an instruction places the given label. -/
def places (l : Label) : Stmt → Bool
  | .label m => l == m
  | _ => false

/-- The position of a label in a block. If it is placed more than once, the last
place counts. -/
def position? (b : Block) (l : Label) : Option Nat :=
  let rec search : Nat → Option Nat
    | 0 => none
    | i + 1 => if (b[i]?).any (places l) then some i else search i
  search b.size

/-- The block of a statement. -/
def ofStmt (s : Stmt) : Block :=
  s.flatten.toArray

end Block

/-- The executable form of one function. -/
structure Function where
  frame : Frame
  body : Block

/-- A data chunk with its place in memory. -/
structure DataItem where
  label : Label
  offset : Word
  size : Word
  init : List UInt8

/-- Whether a data item lies inside a data area of the given size. -/
def DataItem.fits (d : DataItem) (area : Word) : Bool :=
  0 ≤ d.offset.toInt && d.offset.toInt ≤ (d.offset + d.size).toInt &&
    (d.offset + d.size).toInt ≤ area.toInt

/-- Chunks, indexed for the machine. -/
structure Program where
  chunks : List Chunk
  functions : List Function
  data : List DataItem
  /-- The number of bytes of the data area. -/
  dataSize : Word

namespace Program

/-- Why chunks do not make up a program. -/
inductive IndexError where
  | labelTwice (name : String)
deriving DecidableEq, Repr

/-- The wording of a cause. -/
def IndexError.message : IndexError → String
  | labelTwice name => s!"internal: label '{name}' defined twice"

/-- The first name of a list that occurs earlier in it or among those seen. -/
def repeated? (seen : List String) : List String → Option String
  | [] => none
  | n :: ns => if seen.contains n then some n else repeated? (n :: seen) ns

/-- The functions of a list of chunks. -/
def functionsOf : List Chunk → List Function
  | [] => []
  | .code frame body :: rest => ⟨frame, .ofStmt body⟩ :: functionsOf rest
  | .data .. :: rest => functionsOf rest

/-- The data of a list of chunks, placed from the given address on. -/
def dataFrom (offset : Word) : List Chunk → List DataItem
  | [] => []
  | .code .. :: rest => dataFrom offset rest
  | .data label size init :: rest => ⟨label, offset, size, init⟩ :: dataFrom (offset + size) rest

/-- The number of bytes that the data of a list of chunks takes. -/
def dataSizeOf : List Chunk → Word
  | [] => 0
  | .code .. :: rest => dataSizeOf rest
  | .data _ size _ :: rest => size + dataSizeOf rest

/-- Index a list of chunks. -/
def ofChunks (chunks : List Chunk) : Except IndexError Program :=
  match repeated? [] (chunks.map (·.label.name)) with
  | some name => .error (.labelTwice name)
  | none => .ok ⟨chunks, functionsOf chunks, dataFrom 0 chunks, dataSizeOf chunks⟩

/-- The function whose code starts at a label. -/
def function? (p : Program) (l : Label) : Option Function :=
  p.functions.find? fun f => f.frame.label == l

/-- The address of the data at a label. -/
def address? (p : Program) (l : Label) : Option Word :=
  (p.data.find? fun d => d.label == l).map (·.offset)

/-- The function whose label has the given name. -/
def lookup? (p : Program) (name : String) : Option Function :=
  p.functions.find? fun f => f.frame.label.name == name

/-- The address of the data whose label has the given name. -/
def addressOf? (p : Program) (name : String) : Option Word :=
  (p.data.find? fun d => d.label.name == name).map (·.offset)

/-- The most bytes that can be set aside in one piece. -/
def maxAllocation : Int := 281474976710656

/-- Whether a number of bytes can be set aside. -/
def allocatable (size : Word) : Bool :=
  0 ≤ size.toInt && size.toInt ≤ maxAllocation

/-- Write bytes one after the other, from a position on. -/
def writeBytes (bytes : Array UInt8) (start : Nat) : List UInt8 → Array UInt8
  | [] => bytes
  | b :: bs => writeBytes (bytes.setIfInBounds start b) (start + 1) bs

/-- The initial contents of the data area. There are none when a size is negative
or too large, so that a data item would reach outside the area. -/
def image? (p : Program) : Option (Array UInt8) :=
  if allocatable p.dataSize && p.data.all (·.fits p.dataSize) then
    some (p.data.foldl
      (fun image d => writeBytes image d.offset.toInt.toNat (d.init.take d.size.toInt.toNat))
      (Array.replicate p.dataSize.toInt.toNat 0))
  else
    none

end Program

end TreeCode
