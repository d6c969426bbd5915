/-
# Bytes as text

Bytes need not be the encoding of any text. Reading them as text nevertheless
takes the longest valid prefix of character encodings and stands the replacement
character in for every byte that starts none. An encoding is valid in its shortest
form only, and never denotes a surrogate.
-/

namespace TreeCode.Text

/-- What stands in for a byte that starts no character. -/
def replacement : Char :=
  Char.ofNat 0xFFFD

/-- Whether a byte may continue the encoding of a character. -/
def isContinuation (b : UInt8) : Bool :=
  0x80 ≤ b && b ≤ 0xBF

/-- The least and greatest second byte after a first byte that starts an encoding
of two or more bytes. -/
def secondByte (first : UInt8) : UInt8 × UInt8 :=
  if first == 0xE0 then (0xA0, 0xBF)
  else if first == 0xED then (0x80, 0x9F)
  else if first == 0xF0 then (0x90, 0xBF)
  else if first == 0xF4 then (0x80, 0x8F)
  else (0x80, 0xBF)

/-- Whether a second byte may follow a first byte. -/
def follows (first second : UInt8) : Bool :=
  (secondByte first).1 ≤ second && second ≤ (secondByte first).2

/-- The number of bytes of the encoding that a first byte starts; zero if it starts
none. -/
def encodingLength (first : UInt8) : Nat :=
  if first < 0x80 then 1
  else if first < 0xC2 then 0
  else if first < 0xE0 then 2
  else if first < 0xF0 then 3
  else if first < 0xF5 then 4
  else 0

/-- The low six bits of a continuation byte. -/
def payload (b : UInt8) : Nat :=
  b.toNat % 64

/-- Read bytes as text. -/
def decode : List UInt8 → List Char
  | [] => []
  | a :: rest =>
    match encodingLength a, rest with
    | 1, rest => Char.ofNat a.toNat :: decode rest
    | 2, b :: tail =>
      if follows a b then
        Char.ofNat (a.toNat % 32 * 64 + payload b) :: decode tail
      else replacement :: decode (b :: tail)
    | 3, b :: c :: tail =>
      if follows a b && isContinuation c then
        Char.ofNat ((a.toNat % 16 * 64 + payload b) * 64 + payload c) :: decode tail
      else replacement :: decode (b :: c :: tail)
    | 4, b :: c :: d :: tail =>
      if follows a b && isContinuation c && isContinuation d then
        Char.ofNat (((a.toNat % 8 * 64 + payload b) * 64 + payload c) * 64 + payload d) ::
          decode tail
      else replacement :: decode (b :: c :: d :: tail)
    | _, rest => replacement :: decode rest

/-- The bytes of a text. -/
def encode (s : String) : List UInt8 :=
  s.toUTF8.toList

end TreeCode.Text
