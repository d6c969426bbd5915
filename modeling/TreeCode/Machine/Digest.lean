/-
# Digest of memory

The digest of a byte sequence is its 64-bit xxHash with seed zero. Bytes are
consumed in stripes of 32, four lanes of eight bytes each; what remains is mixed
in by words of eight, then four, then single bytes, and the result is scrambled
once more.
-/

namespace TreeCode.Digest

/-- The five primes of the mixing steps. -/
def prime1 : UInt64 := 11400714785074694791

@[inherit_doc prime1]
def prime2 : UInt64 := 14029467366897019727

@[inherit_doc prime1]
def prime3 : UInt64 := 1609587929392839161

@[inherit_doc prime1]
def prime4 : UInt64 := 9650029242287828579

@[inherit_doc prime1]
def prime5 : UInt64 := 2870177450012600261

/-- Rotate the bits of a word to the left. -/
def rotateLeft (x : UInt64) (count : UInt64) : UInt64 :=
  (x <<< count) ||| (x >>> (64 - count))

/-- The value of consecutive bytes, the least significant first. -/
def little (bytes : Array UInt8) (start : Nat) : Nat → UInt64
  | 0 => 0
  | count + 1 =>
    (bytes.getD start 0).toUInt64 ||| (little bytes (start + 1) count <<< 8)

/-- Mix eight bytes into a lane. -/
def round (lane input : UInt64) : UInt64 :=
  rotateLeft (lane + input * prime2) 31 * prime1

/-- Mix a finished lane into the digest. -/
def mergeLane (digest lane : UInt64) : UInt64 :=
  (digest ^^^ round 0 lane) * prime1 + prime4

/-- The four lanes of the stripes. -/
structure Lanes where
  a : UInt64
  b : UInt64
  c : UInt64
  d : UInt64

/-- The lanes before the first stripe. -/
def Lanes.start : Lanes :=
  ⟨prime1 + prime2, prime2, 0, 0 - prime1⟩

/-- Mix one stripe into the lanes. -/
def Lanes.stripe (l : Lanes) (bytes : Array UInt8) (start : Nat) : Lanes :=
  ⟨round l.a (little bytes start 8), round l.b (little bytes (start + 8) 8),
    round l.c (little bytes (start + 16) 8), round l.d (little bytes (start + 24) 8)⟩

/-- Mix consecutive stripes into the lanes. -/
def Lanes.stripes (l : Lanes) (bytes : Array UInt8) (start : Nat) : Nat → Lanes
  | 0 => l
  | count + 1 => (l.stripe bytes start).stripes bytes (start + 32) count

/-- The digest after all stripes. -/
def Lanes.merge (l : Lanes) : UInt64 :=
  let h := rotateLeft l.a 1 + rotateLeft l.b 7 + rotateLeft l.c 12 + rotateLeft l.d 18
  mergeLane (mergeLane (mergeLane (mergeLane h l.a) l.b) l.c) l.d

/-- Mix in words of eight bytes. -/
def mixWords (h : UInt64) (bytes : Array UInt8) (start : Nat) : Nat → UInt64
  | 0 => h
  | count + 1 =>
    let h := h ^^^ round 0 (little bytes start 8)
    mixWords (rotateLeft h 27 * prime1 + prime4) bytes (start + 8) count

/-- Mix in single bytes. -/
def mixBytes (h : UInt64) (bytes : Array UInt8) (start : Nat) : Nat → UInt64
  | 0 => h
  | count + 1 =>
    let h := h ^^^ (little bytes start 1 * prime5)
    mixBytes (rotateLeft h 11 * prime1) bytes (start + 1) count

/-- Mix in what the stripes left over: fewer than 32 bytes. -/
def mixTail (h : UInt64) (bytes : Array UInt8) (start : Nat) : UInt64 :=
  let rest := bytes.size - start
  let h := mixWords h bytes start (rest / 8)
  let start := start + rest / 8 * 8
  let rest := bytes.size - start
  if rest < 4 then
    mixBytes h bytes start rest
  else
    let h := h ^^^ (little bytes start 4 * prime1)
    mixBytes (rotateLeft h 23 * prime2 + prime3) bytes (start + 4) (rest - 4)

/-- Spread every bit of a digest over the whole word. -/
def scramble (h : UInt64) : UInt64 :=
  let h := (h ^^^ (h >>> 33)) * prime2
  let h := (h ^^^ (h >>> 29)) * prime3
  h ^^^ (h >>> 32)

/-- The digest of a byte sequence. -/
def ofBytes (bytes : Array UInt8) : UInt64 :=
  let stripes := bytes.size / 32
  let h := if stripes == 0 then prime5 else (Lanes.start.stripes bytes 0 stripes).merge
  scramble (mixTail (h + bytes.size.toUInt64) bytes (stripes * 32))

/-- A digest as sixteen lower-case hexadecimal digits. -/
def text (h : UInt64) : String :=
  let digits := Nat.toDigits 16 h.toNat
  String.ofList (List.replicate (16 - digits.length) '0' ++ digits)

end TreeCode.Digest
