/-
# Words in memory

A word that was written is read back, and words apart from it are not touched. Memory
is compared byte by byte: two memories have the same word at an address if they have the
same bytes there.

Addresses are words and wrap around. Near the bottom of the address range they do not,
so sums of addresses and offsets are those of integers.
-/

import Mathlib.Algebra.Group.Nat.Defs
import TreeCode.Machine.Memory

namespace TreeCode

namespace Word

/-- Whether the words at two addresses have no byte in common. -/
def Apart (a b : Word) : Prop :=
  a.toInt + byteSize ≤ b.toInt ∨ b.toInt + byteSize ≤ a.toInt

instance (a b : Word) : Decidable (Apart a b) :=
  inferInstanceAs (Decidable (_ ∨ _))

theorem Apart.symm {a b : Word} (h : Apart a b) : Apart b a :=
  Or.symm h

/-- A sum that is a word does not wrap around. -/
theorem toInt_add_of_lt {a b : Word} (h : -limit ≤ a.toInt + b.toInt)
    (h' : a.toInt + b.toInt < limit) : (a + b).toInt = a.toInt + b.toInt := by
  rw [Int64.toInt_add]
  apply Int.bmod_eq_of_le <;> simp only [limit] at h h' <;> omega

/-- A difference that is a word does not wrap around. -/
theorem toInt_sub_of_lt {a b : Word} (h : -limit ≤ a.toInt - b.toInt)
    (h' : a.toInt - b.toInt < limit) : (a - b).toInt = a.toInt - b.toInt := by
  rw [Int64.toInt_sub]
  apply Int.bmod_eq_of_le <;> simp only [limit] at h h' <;> omega

end Word

namespace Memory

variable {m m' : Memory}

variable {low : Int} {bytes : Array UInt8} {addr : Word} {high : Int} {start : Nat} {value : Word}
  {i count : Nat}

theorem holdsWord_iff :
    m.holdsWord addr = true ↔ 0 ≤ addr.toInt ∧ addr.toInt + Word.byteSize ≤ m.size := by
  simp [holdsWord]

theorem size_storeBytes (bytes : Array UInt8) (start : Nat) (value : UInt64) (count : Nat) :
    (storeBytes bytes start value count).size = bytes.size := by
  induction count generalizing bytes start value with
  | zero => rfl
  | succ count ih => rw [storeBytes, ih, Array.size_setIfInBounds]

@[simp]
theorem size_writeWord (m : Memory) (addr value : Word) :
    (m.writeWord addr value).size = m.size := by
  simp only [writeWord, size, size_storeBytes]

/-- The byte at a position after one byte is set. -/
theorem byte_setIfInBounds (bytes : Array UInt8) (i j : Nat) (b : UInt8) :
    byte ⟨bytes.setIfInBounds i b⟩ j =
      if i = j then if i < bytes.size then b else 0 else byte ⟨bytes⟩ j := by
  simp only [byte, Array.getD_eq_getD_getElem?, Array.getElem?_setIfInBounds]
  by_cases hij : i = j
  · by_cases hi : i < bytes.size <;> simp [hij, hij ▸ hi]
  · simp [hij]

theorem byte_storeBytes_of_outside {value : UInt64} (h : i < start ∨ start + count ≤ i) :
    byte ⟨storeBytes bytes start value count⟩ i = byte ⟨bytes⟩ i := by
  induction count generalizing bytes start value with
  | zero => rfl
  | succ count ih =>
    have hne : start ≠ i := by omega
    rw [storeBytes, ih (by omega), byte_setIfInBounds, if_neg hne]

/-- Bytes outside a written word stay as they are. -/
theorem byte_writeWord_of_outside (haddr : 0 ≤ addr.toInt)
    (h : (i : Int) < addr.toInt ∨ addr.toInt + Word.byteSize ≤ i) :
    (m.writeWord addr value).byte i = m.byte i := by
  apply byte_storeBytes_of_outside
  simp only [Word.byteSize] at h ⊢
  omega

theorem byte_storeBytes_congr {bytes' : Array UInt8} {value : UInt64}
    (hsize : bytes.size = bytes'.size) (h : byte ⟨bytes⟩ i = byte ⟨bytes'⟩ i) :
    byte ⟨storeBytes bytes start value count⟩ i =
      byte ⟨storeBytes bytes' start value count⟩ i := by
  induction count generalizing bytes bytes' start value with
  | zero => exact h
  | succ count ih =>
    rw [storeBytes, storeBytes]
    apply ih
    · simp only [Array.size_setIfInBounds, hsize]
    · rw [byte_setIfInBounds, byte_setIfInBounds, hsize, h]

/-- Writing the same word into two memories leaves them in agreement where they agree. -/
theorem byte_writeWord_congr (hsize : m.size = m'.size) (h : m.byte i = m'.byte i)
    (addr value : Word) : (m.writeWord addr value).byte i = (m'.writeWord addr value).byte i :=
  byte_storeBytes_congr hsize h

theorem readBytes_congr (h : ∀ i, start ≤ i → i < start + count → m.byte i = m'.byte i) :
    m.readBytes start count = m'.readBytes start count := by
  induction count generalizing start with
  | zero => rfl
  | succ count ih =>
    rw [readBytes, readBytes, h start (Nat.le_refl _) (by omega),
      ih fun i hi hlt => h i (by omega) (by omega)]

/-- A word is determined by its bytes. -/
theorem readWord_congr (haddr : 0 ≤ addr.toInt)
    (h : ∀ i : Nat, addr.toInt ≤ i → i < addr.toInt + Word.byteSize → m.byte i = m'.byte i) :
    m.readWord addr = m'.readWord addr := by
  apply congrArg UInt64.toInt64
  apply readBytes_congr
  intro i hi hlt
  apply h i <;> omega

/-- Writing a word leaves the words apart from it alone. -/
theorem readWord_writeWord_of_apart {a b : Word} (ha : 0 ≤ a.toInt) (hb : 0 ≤ b.toInt)
    (h : Word.Apart a b) : (m.writeWord a value).readWord b = m.readWord b := by
  apply readWord_congr hb
  intro i hi hlt
  apply byte_writeWord_of_outside ha
  rcases h with h | h <;> omega

/-- One more byte below the bytes of a value. -/
theorem toNat_byte_or_shiftLeft {low rest : UInt64} (count : Nat) (hcount : count < 8)
    (hlow : low.toNat < 256) (hrest : rest.toNat < 256 ^ count) :
    (low ||| rest <<< 8).toNat = low.toNat + 256 * rest.toNat := by
  have hpow : 256 ^ count ≤ 256 ^ 7 := Nat.pow_le_pow_right (by decide) (by omega)
  have hmod : rest.toNat <<< 8 % 2 ^ 64 = rest.toNat <<< 8 := by
    rw [Nat.shiftLeft_eq]
    apply Nat.mod_eq_of_lt
    omega
  have h8 : (8 : UInt64).toNat % 64 = 8 := by decide
  rw [UInt64.toNat_or, UInt64.toNat_shiftLeft, h8, hmod, Nat.or_comm,
    ← Nat.shiftLeft_add_eq_or_of_lt hlow, Nat.shiftLeft_eq]
  omega

/-- Bytes that were written are read back, as far as they go. -/
theorem toNat_readBytes_storeBytes {value : UInt64} (hcount : count ≤ 8)
    (h : start + count ≤ bytes.size) :
    (readBytes ⟨storeBytes bytes start value count⟩ start count).toNat =
      value.toNat % 256 ^ count := by
  induction count generalizing bytes start value with
  | zero => simp [readBytes, Nat.mod_one]
  | succ count ih =>
    have hfirst : byte ⟨storeBytes bytes start value (count + 1)⟩ start = value.toUInt8 := by
      rw [storeBytes, byte_storeBytes_of_outside (Or.inl (Nat.lt_succ_self _)),
        byte_setIfInBounds, if_pos rfl, if_pos (by omega)]
    have h8 : (8 : UInt64).toNat % 64 = 8 := by decide
    have hrest : (readBytes ⟨storeBytes bytes start value (count + 1)⟩ (start + 1) count).toNat =
        value.toNat / 256 % 256 ^ count := by
      rw [storeBytes, ih (by omega) (by rw [Array.size_setIfInBounds]; omega),
        UInt64.toNat_shiftRight, h8, Nat.shiftRight_eq_div_pow]
    have hlow : value.toUInt8.toUInt64.toNat = value.toNat % 256 := by
      rw [UInt8.toNat_toUInt64, UInt64.toNat_toUInt8]
    rw [readBytes, hfirst, toNat_byte_or_shiftLeft count (by omega)
      (by rw [hlow]; omega) (by rw [hrest]; exact Nat.mod_lt _ (Nat.pow_pos (by decide))),
      hlow, hrest, Nat.pow_succ, Nat.mul_comm (256 ^ count), Nat.mod_mul]

/-- A word that was written is read back. -/
theorem readWord_writeWord (h : m.holdsWord addr = true) :
    (m.writeWord addr value).readWord addr = value := by
  obtain ⟨h0, hle⟩ := holdsWord_iff.1 h
  have hbytes : readBytes (m.writeWord addr value) addr.toInt.toNat Word.byteSize =
      value.toUInt64 := by
    apply UInt64.toNat_inj.1
    rw [writeWord, toNat_readBytes_storeBytes (by decide)]
    · exact Nat.mod_eq_of_lt value.toUInt64.toNat_lt
    · simp only [Word.byteSize, size] at hle ⊢
      omega
  rw [readWord, hbytes, Int64.toInt64_toUInt64]

/-- The only bytes that differ lie between two positions. -/
structure Within (low high : Int) (m m' : Memory) : Prop where
  size : m'.size = m.size
  byte : ∀ i : Nat, (i : Int) < low ∨ high ≤ i → m'.byte i = m.byte i

theorem Within.refl (low high : Int) (m : Memory) : Within low high m m :=
  ⟨rfl, fun _ _ => rfl⟩

theorem Within.trans {m m' m'' : Memory} (h : Within low high m m') (h' : Within low high m' m'')
    : Within low high m m'' :=
  ⟨h'.size.trans h.size, fun i hi => (h'.byte i hi).trans (h.byte i hi)⟩

theorem Within.writeWord (haddr : 0 ≤ addr.toInt) (hlow : low ≤ addr.toInt)
    (hhigh : addr.toInt + Word.byteSize ≤ high) : Within low high m (m.writeWord addr value) :=
  ⟨size_writeWord m addr value,
    fun _ hi => byte_writeWord_of_outside haddr (by omega)⟩

/-- A word that lies outside has not changed. -/
theorem Within.readWord (h : Within low high m m') (haddr : 0 ≤ addr.toInt)
    (hout : addr.toInt + Word.byteSize ≤ low ∨ high ≤ addr.toInt) :
    m'.readWord addr = m.readWord addr := by
  apply readWord_congr haddr
  intro i hi hlt
  apply h.byte
  omega

/-- Write words in order. -/
def writeAll (m : Memory) (words : List (Word × Word)) : Memory :=
  words.foldl (fun m w => m.writeWord w.1 w.2) m

theorem writeAll_cons (m : Memory) (w : Word × Word) (words : List (Word × Word)) :
    m.writeAll (w :: words) = (m.writeWord w.1 w.2).writeAll words :=
  List.foldl_cons

theorem writeAll_append (m : Memory) (a b : List (Word × Word)) :
    m.writeAll (a ++ b) = (m.writeAll a).writeAll b :=
  List.foldl_append

@[simp]
theorem size_writeAll (m : Memory) (words : List (Word × Word)) :
    (m.writeAll words).size = m.size := by
  induction words generalizing m with
  | nil => rfl
  | cons w words ih => rw [writeAll_cons, ih, size_writeWord]

theorem byte_writeAll_congr (hsize : m.size = m'.size) (h : m.byte i = m'.byte i)
    (words : List (Word × Word)) : (m.writeAll words).byte i = (m'.writeAll words).byte i := by
  induction words generalizing m m' with
  | nil => exact h
  | cons w words ih =>
    rw [writeAll_cons, writeAll_cons]
    apply ih
    · simp only [size_writeWord, hsize]
    · exact byte_writeWord_congr hsize h w.1 w.2

/-- A byte that differs after words are written belongs to one of them. -/
theorem exists_of_byte_writeAll_ne {words : List (Word × Word)}
    (hwords : ∀ w ∈ words, 0 ≤ w.1.toInt) (h : (m.writeAll words).byte i ≠ m.byte i) :
    ∃ w ∈ words, w.1.toInt ≤ i ∧ i < w.1.toInt + Word.byteSize := by
  induction words generalizing m with
  | nil => exact absurd rfl h
  | cons w words ih =>
    by_cases hw : w.1.toInt ≤ i ∧ i < w.1.toInt + Word.byteSize
    · exact ⟨w, List.mem_cons_self, hw⟩
    · have hsame : (m.writeWord w.1 w.2).byte i = m.byte i :=
        byte_writeWord_of_outside (hwords w List.mem_cons_self) (by omega)
      rw [writeAll_cons, ← hsame] at h
      obtain ⟨u, hu, hin⟩ := ih (fun u hu => hwords u (List.mem_cons_of_mem _ hu)) h
      exact ⟨u, List.mem_cons_of_mem _ hu, hin⟩

end Memory

end TreeCode
