/-
# Operations and accesses

The machine is put together from operations on its registers and counters and from accesses
to memory. The former have nothing to do with memory: they leave it alone, and go the same
way whatever it holds. An access has to do with some bytes from an address on. It changes no
others, and it goes the same way whatever the others are. Either it succeeds and these bytes
are inside memory, or it stops with a fault that tells the address.
-/

import TreeCode.Proofs.Machine.Accord
import TreeCode.Proofs.Machine.Stack

namespace TreeCode

open IR (Op Stmt)

/-- The address that a fault complains of. -/
def FaultCause.address? : FaultCause → Option Word
  | .load addr | .store addr | .stringAt addr | .unterminatedString addr => some addr
  | _ => none

theorem FaultCause.kind_of_address? {c : FaultCause} {addr : Word} (h : c.address? = some addr) :
    c.kind = .badAddress := by
  cases c <;> first | rfl | cases h

/-- A position among so many from an address on. -/
def Word.Reaches (addr : Word) (count i : Nat) : Prop :=
  addr.toInt ≤ i ∧ (i : Int) < addr.toInt + count

namespace Memory

variable {m m' : Memory} {count start : Nat}

theorem holdsWord_congr (hsize : m'.size = m.size) (addr : Word) :
    m'.holdsWord addr = m.holdsWord addr := by
  rw [holdsWord, holdsWord, hsize]

/-- The number of bytes that a search for a zero byte looks at, out of some bytes from a
position on. -/
def searched (m : Memory) (start count : Nat) : Nat :=
  match m.firstZero start count with
  | some stop => stop + 1 - start
  | none => count

/-- The number of bytes that are looked at to read a string. -/
def stringReach (addr : Word) (m : Memory) : Nat :=
  m.searched addr.toInt.toNat (m.size - addr.toInt.toNat)

/-- A zero byte is found among the bytes that are searched. -/
theorem firstZero_lt {stop : Nat} (h : m.firstZero start count = some stop)
    : start ≤ stop ∧ stop < start + count := by
  induction count generalizing start with
  | zero => cases h
  | succ count ih =>
    rw [firstZero] at h
    split at h
    · cases h
      omega
    · have hnext := ih h
      omega

theorem searched_le (m : Memory) (start count : Nat) : m.searched start count ≤ count := by
  unfold searched
  cases h : m.firstZero start count with
  | some stop =>
    have hinside := firstZero_lt h
    simp only
    omega
  | none => exact Nat.le_refl count

/-- A search that does not end with its first byte goes on behind it. -/
theorem searched_succ (h : ¬(m.byte start == 0) = true) (count : Nat)
    : m.searched start (count + 1) = m.searched (start + 1) count + 1 := by
  rw [searched, searched, firstZero, if_neg h]
  cases hnext : m.firstZero (start + 1) count with
  | some stop =>
    have hinside := firstZero_lt hnext
    simp only
    omega
  | none => rfl

/-- A search depends on the bytes that it looks at. -/
theorem firstZero_congr
    (h : ∀ i, start ≤ i → i < start + m.searched start count → m'.byte i = m.byte i) :
    m'.firstZero start count = m.firstZero start count := by
  induction count generalizing start with
  | zero => rfl
  | succ count ih =>
    by_cases hzero : (m.byte start == 0) = true
    · have hfirst : m.searched start (count + 1) = 1 := by
        rw [searched, firstZero, if_pos hzero]
        simp only
        omega
      rw [hfirst] at h
      rw [firstZero, firstZero, h start (Nat.le_refl _) (by omega), if_pos hzero, if_pos hzero]
    · rw [searched_succ hzero] at h
      rw [firstZero, firstZero, h start (Nat.le_refl _) (by omega), if_neg hzero, if_neg hzero]
      exact ih fun i hi hlt => h i (by omega) (by omega)

/-- A string depends on the bytes that are looked at to read it. -/
theorem stringFrom?_congr (hsize : m'.size = m.size)
    (h : ∀ i, start ≤ i → i < start + m.searched start (m.size - start) →
      m'.byte i = m.byte i) : m'.stringFrom? start = m.stringFrom? start := by
  rw [stringFrom?, stringFrom?, hsize, firstZero_congr h]
  cases hstop : m.firstZero start (m.size - start) with
  | none => rfl
  | some stop =>
    have hinside := firstZero_lt hstop
    have hsearched : m.searched start (m.size - start) = stop + 1 - start := by
      rw [searched, hstop]
    rw [hsearched] at h
    apply congrArg (fun bytes : Array UInt8 => some bytes.toList)
    simp only [size] at hsize hinside
    apply Array.ext
    · rw [Array.size_extract, Array.size_extract, hsize]
    · intro i hi hi'
      rw [Array.size_extract] at hi hi'
      have hbyte := h (start + i) (by omega) (by omega)
      have hlt : start + i < m.bytes.size := by omega
      have hlt' : start + i < m'.bytes.size := by omega
      simp only [byte, Array.getD, hlt, hlt', dite_true] at hbyte
      rw [Array.getElem_extract, Array.getElem_extract]
      exact hbyte

end Memory

/-- States that differ at most in bytes of memory outside `B`. -/
inductive State.AgreeOn (B : Nat → Prop) (s : State) : State → Prop
  | intro (memory : Memory) (size : memory.size = s.memory.size)
      (bytes : ∀ i, B i → memory.byte i = s.memory.byte i) :
      State.AgreeOn B s { s with memory := memory }

namespace Exec

variable {α β : Type}

/-- Outcomes that differ at most in bytes of memory outside `B`. -/
inductive SameEnd (B : Nat → Prop) :
    EStateM.Result Stop State α → EStateM.Result Stop State α → Prop
  | ok (a : α) {s t : State} : s.AgreeOn B t → SameEnd B (.ok a s) (.ok a t)
  | error (e : Stop) {s t : State} : s.AgreeOn B t → SameEnd B (.error e s) (.error e t)

theorem SameEnd.fault {B : Nat → Prop} {s t : State} (h : s.AgreeOn B t) (c : FaultCause) :
    SameEnd B (fault c s : EStateM.Result Stop State α) (fault c t) := by
  cases h with
  | intro memory hsize hbytes => exact .error _ (.intro memory hsize hbytes)

/-- An outcome with another memory. -/
def withMemory (memory : Memory) : EStateM.Result Stop State α → EStateM.Result Stop State α
  | .ok a s => .ok a { s with memory := memory }
  | .error e s => .error e { s with memory := memory }

/-- A computation that has nothing to do with memory. -/
def Blind (x : Exec α) : Prop :=
  ∀ s memory, x { s with memory := memory } = withMemory memory (x s)

namespace Blind

theorem bind {x : Exec α} {f : α → Exec β} (hx : Blind x) (hf : ∀ a, Blind (f a)) :
    Blind (x >>= f) := by
  intro s memory
  have hmemory := hx s memory
  cases h : x s with
  | ok a t =>
    rw [h] at hmemory
    rw [bind_of_ok h, bind_of_ok hmemory]
    exact hf a t memory
  | error e t =>
    rw [h] at hmemory
    rw [bind_of_error h, bind_of_error hmemory]
    rfl

theorem memory_final {x : Exec α} (hx : Blind x) (s : State) :
    (final (x s)).memory = s.memory := by
  have hsame : x s = withMemory s.memory (x s) := hx s s.memory
  rw [hsame]
  cases x s <;> rfl

theorem sameEnd {x : Exec α} (hx : Blind x) {B : Nat → Prop} {s t : State}
    (h : s.AgreeOn B t) : SameEnd B (x s) (x t) := by
  cases h with
  | intro memory hsize hbytes =>
    have hkept := hx.memory_final s
    rw [hx s memory]
    rw [← hkept] at hsize hbytes
    cases hs : x s with
    | ok a s' =>
      rw [hs] at hsize hbytes
      exact .ok a (.intro memory hsize hbytes)
    | error e s' =>
      rw [hs] at hsize hbytes
      exact .error e (.intro memory hsize hbytes)

theorem enter (setup : Setup) (frame : Frame) (base : Word) : Blind (enter setup frame base) :=
  fun _ _ => rfl

theorem resume (frame : Frame) (caller : Activation) (location : Location) (fp : Word) :
    Blind (resume frame caller location fp) :=
  fun _ _ => rfl

end Blind

/-- A part of the state of the machine. -/
def read (g : State → β) : Exec β := fun s =>
  .ok (g s) s

theorem Quiescent.read (g : State → β) : Quiescent (read g) :=
  fun s => Calm.refl s

/-- A calm operation that has nothing to do with memory. -/
structure Internal (x : Exec α) : Prop where
  calm : Quiescent x
  blind : Blind x

namespace Internal

theorem pure (a : α) : Internal (Pure.pure a : Exec α) :=
  ⟨.pure a, fun _ _ => rfl⟩

theorem bind {x : Exec α} {f : α → Exec β} (hx : Internal x) (hf : ∀ a, Internal (f a)) :
    Internal (x >>= f) :=
  ⟨hx.calm.bind fun a => (hf a).calm, hx.blind.bind fun a => (hf a).blind⟩

theorem fault (c : FaultCause) : Internal (fault c : Exec α) :=
  ⟨.fault c, fun _ _ => rfl⟩

theorem defect (d : Defect) : Internal (defect d : Exec α) :=
  ⟨.defect d, fun _ _ => rfl⟩

theorem outOfFuel : Internal (throw .outOfFuel : Exec α) :=
  ⟨.outOfFuel, fun _ _ => rfl⟩

/-- Reading a part of the state, unless it is memory. -/
theorem read {g : State → β} (hg : ∀ s memory, g { s with memory := memory } = g s) :
    Internal (read g) := by
  refine ⟨.read g, fun s memory => ?_⟩
  rw [Exec.read, hg]
  rfl

variable (op : Op) (setup : Setup) (t : Temp)

theorem readTemp : Internal (readTemp t) := by
  refine ⟨.readTemp t, fun s memory => ?_⟩
  unfold Exec.readTemp
  split <;> rfl

theorem writeTemp (w : Word) : Internal (writeTemp t w) :=
  ⟨.writeTemp t w, fun _ _ => rfl⟩

theorem location : Internal location :=
  ⟨.location, fun _ _ => rfl⟩

theorem setLocation (l : Location) : Internal (setLocation l) :=
  ⟨.setLocation l, fun _ _ => rfl⟩

theorem countCall : Internal countCall :=
  ⟨.of_plain .countCall, fun _ _ => rfl⟩

theorem print (bytes : List UInt8) : Internal (print bytes) :=
  ⟨.of_plain (.print bytes), fun _ _ => rfl⟩

theorem unary (x : Word) : Internal (unary op x) := by
  cases op <;> first | exact pure _ | exact defect _

theorem binary (x y : Word) : Internal (binary op x y) := by
  cases op with
  | div | mod =>
    simp only [Exec.binary]
    split
    · exact fault _
    · exact pure _
  | neg | not | other _ => exact defect _
  | _ => exact pure _

theorem target (b : Block) (l : Label) : Internal (target b l) := by
  unfold Exec.target
  split
  · exact pure _
  · exact fault _

theorem reserve (frame : Frame) (count : Nat) : Internal (reserve setup frame count) := by
  refine ⟨.of_plain (.reserve setup frame count), fun s memory => ?_⟩
  unfold Exec.reserve
  dsimp only
  split
  · rfl
  split
  · rfl
  split <;> rfl

theorem start (pc : Nat) (stmt : Stmt) : Internal (start setup pc stmt) := by
  refine ⟨.start setup pc stmt, fun s memory => ?_⟩
  unfold Exec.start
  dsimp only
  split <;> rfl

end Internal

/-- A computation that has to do with so many bytes of memory from an address on. -/
structure Access (addr : Word) (count : Memory → Nat) (x : Exec α) : Prop where
  calm : Quiescent x
  /-- If it succeeds, these bytes are inside memory. -/
  inside : ∀ {s a s'}, x s = .ok a s' →
    0 ≤ addr.toInt ∧ addr.toInt + count s.memory ≤ s.memory.size
  /-- If it does not, it stops with a fault that tells the address. -/
  faults : ∀ {s e s'}, x s = .error e s' → ∃ f, e = .fault f ∧ f.cause.address? = some addr
  /-- Other bytes are left as they are. -/
  writes : ∀ {s i}, ¬addr.Reaches (count s.memory) i →
    (final (x s)).memory.byte i = s.memory.byte i
  /-- It goes the same way whatever the other bytes are. -/
  reads : ∀ {B s t}, (∀ i, addr.Reaches (count s.memory) i → B i) → s.AgreeOn B t →
    SameEnd B (x s) (x t)

namespace Access

theorem load (addr : Word) : Access addr (fun _ => Word.byteSize) (load addr) where
  calm := .of_plain (.load addr)
  inside {s a s'} h := by
    unfold Exec.load at h
    split at h
    next hholds => exact Memory.holdsWord_iff.1 hholds
    next => cases h
  faults {s e s'} h := by
    unfold Exec.load at h
    split at h
    · cases h
    · cases h
      exact ⟨_, rfl, rfl⟩
  writes {s i} _ := by
    unfold Exec.load
    split <;> rfl
  reads {B s t} hB h := by
    have hfault := SameEnd.fault (α := Word) h (.load addr)
    cases h with
    | intro memory hsize hbytes =>
      unfold Exec.load
      dsimp only
      rw [Memory.holdsWord_congr hsize]
      split
      next hholds =>
        have haddr := (Memory.holdsWord_iff.1 hholds).1
        rw [Memory.readWord_congr haddr fun i hi hlt => hbytes i (hB i ⟨hi, hlt⟩)]
        exact .ok _ (.intro memory hsize hbytes)
      next => exact hfault

theorem store (addr value : Word) :
    Access addr (fun _ => Word.byteSize) (store addr value) where
  calm := .of_plain (.store addr value)
  inside h := Memory.holdsWord_iff.1 (store_eq_ok h).1
  faults {s e s'} h := by
    unfold Exec.store at h
    split at h
    · cases h
    · cases h
      exact ⟨_, rfl, rfl⟩
  writes {s i} hi := by
    unfold Exec.store
    split
    next hholds =>
      apply Memory.byte_writeWord_of_outside (Memory.holdsWord_iff.1 hholds).1
      simp only [Word.Reaches] at hi
      omega
    next => rfl
  reads {B s t} _ h := by
    have hfault := SameEnd.fault (α := Unit) h (.store addr)
    cases h with
    | intro memory hsize hbytes =>
      unfold Exec.store
      dsimp only
      rw [Memory.holdsWord_congr hsize]
      split
      · apply SameEnd.ok
        apply State.AgreeOn.intro (s := { s with memory := s.memory.writeWord addr value })
        · rw [Memory.size_writeWord, Memory.size_writeWord, hsize]
        · exact fun i hi => Memory.byte_writeWord_congr hsize (hbytes i hi) addr value
      · exact hfault

theorem loadString (addr : Word) :
    Access addr (Memory.stringReach addr) (loadString addr) where
  calm := .of_plain (.loadString addr trivial trivial)
  inside {s a s'} h := by
    unfold Exec.loadString at h
    split at h
    next hinside =>
      simp only [Bool.and_eq_true, decide_eq_true_eq] at hinside
      have hle := Memory.searched_le s.memory addr.toInt.toNat (s.memory.size - addr.toInt.toNat)
      simp only [Memory.stringReach]
      omega
    next => cases h
  faults {s e s'} h := by
    unfold Exec.loadString at h
    split at h
    · split at h
      · cases h
      · cases h
        exact ⟨_, rfl, rfl⟩
    · cases h
      exact ⟨_, rfl, rfl⟩
  writes {s i} _ := by
    unfold Exec.loadString
    split
    · split <;> rfl
    · rfl
  reads {B s t} hB h := by
    have hfault := fun c => SameEnd.fault (α := List UInt8) h c
    cases h with
    | intro memory hsize hbytes =>
      unfold Exec.loadString
      dsimp only
      rw [hsize]
      split
      next hinside =>
        simp only [Bool.and_eq_true, decide_eq_true_eq] at hinside
        have hstring : memory.stringFrom? addr.toInt.toNat =
            s.memory.stringFrom? addr.toInt.toNat := by
          apply Memory.stringFrom?_congr hsize
          intro i hi hlt
          apply hbytes i
          apply hB i
          simp only [Word.Reaches, Memory.stringReach]
          omega
        rw [hstring]
        split
        · exact .ok _ (.intro memory hsize hbytes)
        · exact hfault _
      next => exact hfault _

end Access

end Exec

end TreeCode
