/-
# Memory

Memory is a sequence of bytes addressed from zero. A word is stored in eight
consecutive bytes, the least significant first, at any address where all eight
exist. Addresses are words, so they may be negative or far outside; reading and
writing words is defined only where `holdsWord` says so.
-/

import TreeCode.Word

namespace TreeCode

/-- A byte memory. -/
structure Memory where
  bytes : Array UInt8

namespace Memory

/-- The number of bytes of a memory. -/
def size (m : Memory) : Nat :=
  m.bytes.size

/-- Whether all bytes of the word at an address exist. -/
def holdsWord (m : Memory) (addr : Word) : Bool :=
  0 ≤ addr.toInt && addr.toInt + Word.byteSize ≤ m.size

/-- The byte at a position, zero outside the memory. -/
def byte (m : Memory) (i : Nat) : UInt8 :=
  m.bytes.getD i 0

/-- The value of consecutive bytes, the least significant first. -/
def readBytes (m : Memory) (start : Nat) : Nat → UInt64
  | 0 => 0
  | count + 1 => (m.byte start).toUInt64 ||| (m.readBytes (start + 1) count <<< 8)

/-- The word at an address that holds one. -/
def readWord (m : Memory) (addr : Word) : Word :=
  (m.readBytes addr.toInt.toNat Word.byteSize).toInt64

/-- Bytes with a value written over some of them, the least significant first. -/
def storeBytes (bytes : Array UInt8) (start : Nat) (value : UInt64) : Nat → Array UInt8
  | 0 => bytes
  | count + 1 =>
    storeBytes (bytes.setIfInBounds start value.toUInt8) (start + 1) (value >>> 8) count

/-- The memory after a word is written at an address that holds one. -/
def writeWord (m : Memory) (addr : Word) (value : Word) : Memory :=
  ⟨storeBytes m.bytes addr.toInt.toNat value.toUInt64 Word.byteSize⟩

/-- The first position of a zero byte among the given number of bytes from a
position on. -/
def firstZero (m : Memory) (start : Nat) : Nat → Option Nat
  | 0 => none
  | count + 1 => if m.byte start == 0 then some start else m.firstZero (start + 1) count

/-- The bytes from a position up to the next zero byte, or nothing if there is no
zero byte from there on. -/
def stringFrom? (m : Memory) (start : Nat) : Option (List UInt8) :=
  (m.firstZero start (m.size - start)).map fun stop => (m.bytes.extract start stop).toList

/-- The bytes of a range that lies inside the memory. -/
def slice? (m : Memory) (first last : Word) : Option (List UInt8) :=
  if 0 ≤ first.toInt && first.toInt ≤ last.toInt && last.toInt ≤ m.size then
    some (m.bytes.extract first.toInt.toNat last.toInt.toNat).toList
  else
    none

end Memory

end TreeCode
