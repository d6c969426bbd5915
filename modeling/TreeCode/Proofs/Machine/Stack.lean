/-
# The stack

The live frames lie one below the other, from the top of memory down, and above the
data. The frame pointer and the stack pointer both hold the lowest address in use, and
every frame saves the address that was the lowest before it.

`Stacked` says this of a list of frames and a state. Setting up a frame and leaving it
again keep it, for frames whose words lie inside them.
-/

import TreeCode.Proofs.Machine.Triple

namespace TreeCode

/-- Whether the word at an offset lies inside a frame. -/
def Frame.Holds (f : Frame) (offset : Word) : Prop :=
  0 ≤ offset.toInt ∧ offset.toInt + Word.byteSize ≤ f.size.toInt

instance (f : Frame) (offset : Word) : Decidable (f.Holds offset) :=
  inferInstanceAs (Decidable (_ ∧ _))

/-- Whether a frame has room for the words that a call writes into it: the static link
at offset zero, the parameters and the saved frame pointer. -/
def Frame.Fits (f : Frame) : Prop :=
  ∀ offset ∈ 0 :: f.linkOffset :: f.params, f.Holds offset

instance (f : Frame) : Decidable f.Fits :=
  List.decidableBAll f.Holds _

/-- Whether the words that a call writes into a frame are apart from each other. -/
def Frame.Spaced (f : Frame) : Prop :=
  (0 :: f.linkOffset :: f.params).Pairwise Word.Apart

/-- The first address above a frame. -/
def Live.top (a : Live) : Int :=
  a.base.toInt + a.frame.size.toInt

/-- The address of the saved frame pointer. -/
def Live.saved (a : Live) : Word :=
  a.base + a.frame.linkOffset

/-- The static link and the parameters of a frame are as given. -/
structure Live.Filled (a : Live) (m : Memory) (link : Word) (args : List Word) : Prop where
  link : m.readWord a.base = link
  params : ∀ w ∈ a.frame.params.zip args, m.readWord (a.base + w.1) = w.2

/-- The lowest address in use: that of the innermost frame, or the end of memory. -/
def Live.lowest (top : Word) : List Live → Word
  | [] => top
  | a :: _ => a.base

@[simp]
theorem Live.lowest_nil (top : Word) : Live.lowest top [] = top := rfl

@[simp]
theorem Live.lowest_cons (top : Word) (a : Live) (rest : List Live) :
    Live.lowest top (a :: rest) = a.base := rfl

/-- The frames lie one below the other, the outermost at the end of memory and all of
them above the data. -/
def Adjacent (low top : Word) : List Live → Prop
  | [] => True
  | a :: rest =>
    a.frame.Fits ∧ low.toInt ≤ a.base.toInt ∧ a.top = (Live.lowest top rest).toInt ∧
      Adjacent low top rest

/-- Every frame saves the address that was the lowest in use before it. -/
def Saves (top : Word) (m : Memory) : List Live → Prop
  | [] => True
  | a :: rest => m.readWord a.saved = Live.lowest top rest ∧ Saves top m rest

/-- The memory of a machine has room for the data and is no larger than can be set
aside. -/
structure Setup.Roomy (setup : Setup) : Prop where
  data_nonneg : 0 ≤ setup.program.dataSize.toInt
  data_le : setup.program.dataSize.toInt ≤ setup.memorySize.toInt
  size_le : setup.memorySize.toInt ≤ Program.maxAllocation

/-- The part of a state that the stack is made of: memory, the registers and the number of
frames. -/
def State.stack (s : State) : Memory × Word × Word × Nat :=
  (s.memory, s.fp, s.sp, s.depth)

/-- The frames that are live, the registers and the saved frame pointers fit together. -/
structure Stacked (setup : Setup) (live : List Live) (s : State) : Prop where
  size : (s.memory.size : Int) = setup.memorySize.toInt
  fp : s.fp = Live.lowest setup.memorySize live
  sp : s.sp = Live.lowest setup.memorySize live
  depth : s.depth = live.length
  adjacent : Adjacent setup.program.dataSize setup.memorySize live
  saves : Saves setup.memorySize s.memory live

namespace Adjacent

variable {low top : Word} {live : List Live}

theorem base_le {a : Live} (h : Adjacent low top (a :: live)) :
    a.base.toInt ≤ (Live.lowest top live).toInt := by
  have hsize := (h.1 0 List.mem_cons_self).2
  have htop := h.2.2.1
  have h0 : (0 : Word).toInt = 0 := rfl
  simp only [Live.top, Word.byteSize] at htop hsize
  omega

/-- Every frame lies between the lowest address in use and the end of memory. -/
theorem inside (h : Adjacent low top live) :
    (Live.lowest top live).toInt ≤ top.toInt ∧ ∀ a ∈ live,
      a.frame.Fits ∧ low.toInt ≤ a.base.toInt ∧ (Live.lowest top live).toInt ≤ a.base.toInt ∧
        a.top ≤ top.toInt := by
  induction live with
  | nil => exact ⟨Int.le_refl _, fun _ ha => absurd ha List.not_mem_nil⟩
  | cons b rest ih =>
    have hbase := h.base_le
    obtain ⟨hfits, hlow, htop, hrest⟩ := h
    obtain ⟨hlowest, hinside⟩ := ih hrest
    rw [Live.lowest_cons]
    refine ⟨Int.le_trans hbase hlowest, ?_⟩
    intro a ha
    rcases List.mem_cons.1 ha with rfl | ha
    · exact ⟨hfits, hlow, Int.le_refl _, htop ▸ hlowest⟩
    · obtain ⟨hf, hl, hb, ht⟩ := hinside a ha
      exact ⟨hf, hl, Int.le_trans hbase hb, ht⟩

/-- Every frame takes at least one word. -/
theorem length_le (h : Adjacent low top live) :
    (Live.lowest top live).toInt + Word.byteSize * live.length ≤ top.toInt := by
  induction live with
  | nil => simp
  | cons a rest ih =>
    obtain ⟨hfits, -, htop, hrest⟩ := h
    have hsize := (hfits 0 List.mem_cons_self).2
    have h0 : (0 : Word).toInt = 0 := rfl
    have hlength := ih hrest
    simp only [Live.top, Word.byteSize, Live.lowest_cons, List.length_cons] at *
    omega

/-- Frames that lie one below the other have no byte in common. -/
theorem pairwise (h : Adjacent low top live) :
    live.Pairwise fun a b => a.top ≤ b.base.toInt := by
  induction live with
  | nil => exact List.Pairwise.nil
  | cons b rest ih =>
    obtain ⟨-, -, htop, hrest⟩ := h
    refine List.Pairwise.cons ?_ (ih hrest)
    intro a ha
    rw [htop]
    exact (hrest.inside.2 a ha).2.2.1

end Adjacent

/-- An address inside a frame that lies inside the memory is that of integers. -/
theorem Live.toInt_add {setup : Setup} (hroomy : setup.Roomy) {a : Live} {offset : Word}
    (hbase : 0 ≤ a.base.toInt) (htop : a.top ≤ setup.memorySize.toInt)
    (h : a.frame.Holds offset) : (a.base + offset).toInt = a.base.toInt + offset.toInt := by
  have hsize := hroomy.size_le
  obtain ⟨h0, hle⟩ := h
  simp only [Live.top, Program.maxAllocation, Word.byteSize] at htop hsize hle
  apply Word.toInt_add_of_lt <;> simp only [Word.limit] <;> omega

namespace Exec

variable {frame : Frame} {base : Word} {s s' : State}

theorem load_eq_ok {addr w : Word} (h : load addr s = .ok w s') :
    s' = s ∧ w = s.memory.readWord addr := by
  unfold load at h
  split at h
  · injection h with hw hs
    exact ⟨hs.symm, hw.symm⟩
  · cases h

theorem store_eq_ok {addr value : Word} (h : store addr value s = .ok () s') :
    s.memory.holdsWord addr = true ∧
      s' = { s with memory := s.memory.writeWord addr value } := by
  unfold store at h
  split at h
  · injection h with _ hs
    exact ⟨‹_›, hs.symm⟩
  · cases h

/-- What writing words at offsets does to memory. -/
structure WritesAll (base : Word) (slots : List (Word × Word)) (m m' : Memory) : Prop where
  within : ∀ low high : Int,
    (∀ w ∈ slots, low ≤ (base + w.1).toInt ∧ (base + w.1).toInt + Word.byteSize ≤ high) →
      Memory.Within low high m m'
  apart : ∀ addr : Word, 0 ≤ addr.toInt → (∀ w ∈ slots, Word.Apart (base + w.1) addr) →
    m'.readWord addr = m.readWord addr
  read : slots.Pairwise (fun w u => Word.Apart (base + w.1) (base + u.1)) →
    ∀ w ∈ slots, m'.readWord (base + w.1) = w.2

theorem WritesAll.nil (base : Word) (m : Memory) : WritesAll base [] m m where
  within _ _ _ := Memory.Within.refl _ _ _
  apart _ _ _ := rfl
  read _ _ hw := absurd hw List.not_mem_nil

theorem WritesAll.cons {w : Word × Word} {rest : List (Word × Word)} {m m' : Memory}
    (hholds : m.holdsWord (base + w.1) = true)
    (h : WritesAll base rest (m.writeWord (base + w.1) w.2) m') :
    WritesAll base (w :: rest) m m' where
  within low high hslots := by
    obtain ⟨hlow, hhigh⟩ := hslots w List.mem_cons_self
    exact (Memory.Within.writeWord (Memory.holdsWord_iff.1 hholds).1 hlow hhigh).trans
      (h.within low high fun u hu => hslots u (List.mem_cons_of_mem _ hu))
  apart addr haddr hslots := by
    rw [h.apart addr haddr fun u hu => hslots u (List.mem_cons_of_mem _ hu)]
    exact Memory.readWord_writeWord_of_apart (Memory.holdsWord_iff.1 hholds).1 haddr
      (hslots w List.mem_cons_self)
  read hpairwise u hu := by
    obtain ⟨hfirst, hrest⟩ := List.pairwise_cons.1 hpairwise
    rcases List.mem_cons.1 hu with rfl | hu
    · rw [h.apart _ (Memory.holdsWord_iff.1 hholds).1 fun v hv => (hfirst v hv).symm]
      exact Memory.readWord_writeWord hholds
    · exact h.read hrest u hu

theorem storeAll_eq_ok {slots : List (Word × Word)} (h : storeAll base slots s = .ok () s') :
    ∃ m, s' = { s with memory := m } ∧ WritesAll base slots s.memory m := by
  induction slots generalizing s with
  | nil =>
    injection h with _ hs
    exact ⟨s.memory, hs.symm, .nil base s.memory⟩
  | cons w rest ih =>
    obtain ⟨_, t, hstore, hrest⟩ := bind_eq_ok h
    obtain ⟨hholds, rfl⟩ := store_eq_ok hstore
    obtain ⟨m, rfl, hm⟩ := ih hrest
    exact ⟨m, rfl, .cons hholds hm⟩

theorem reserve_eq_ok {setup : Setup} {count : Nat}
    (h : reserve setup frame count s = .ok base s') :
    s' = s ∧ base = s.sp - frame.size ∧ setup.program.dataSize.toInt ≤ base.toInt ∧
      count = frame.params.length := by
  simp only [reserve] at h
  by_cases hdepth : (s.depth : Int) ≥ setup.maxDepth
  · rw [if_pos hdepth] at h
    cases h
  by_cases hlt : s.sp - frame.size < setup.program.dataSize
  · rw [if_neg hdepth, if_pos hlt] at h
    cases h
  by_cases hcount : count ≠ frame.params.length
  · rw [if_neg hdepth, if_neg hlt, if_pos hcount] at h
    cases h
  rw [if_neg hdepth, if_neg hlt, if_neg hcount] at h
  injection h with hbase hs
  rw [Int64.lt_iff_toInt_lt, Int.not_lt] at hlt
  exact ⟨hs.symm, hbase.symm, hbase ▸ hlt, Decidable.not_not.1 hcount⟩

theorem leave_eq_ok {caller : Activation} {location : Location} {v : Word}
    (h : leave frame caller location s = .ok v s') :
    s' = { s with
      fp := s.memory.readWord (s.fp + frame.linkOffset)
      sp := s.fp + frame.size
      depth := s.depth - 1
      location := location
      activation := caller } := by
  obtain ⟨_, t, hget, h⟩ := bind_eq_ok h
  injection hget with hval hstate
  subst hval hstate
  obtain ⟨saved, t, hload, h⟩ := bind_eq_ok h
  obtain ⟨rfl, rfl⟩ := load_eq_ok hload
  injection h with _ hs
  exact hs.symm

end Exec

section Calls

variable {setup : Setup} {live : List Live} {a : Live} {s s' : State} {m m' : Memory}

/-- What changes below the lowest address in use does not change the frames. -/
theorem Adjacent.readWord_of_below {low : Int} {offset : Word} (hroomy : setup.Roomy)
    (h : Adjacent setup.program.dataSize setup.memorySize live)
    (hm : Memory.Within low (Live.lowest setup.memorySize live).toInt m m') (ha : a ∈ live)
    (ho : a.frame.Holds offset) : m'.readWord (a.base + offset) = m.readWord (a.base + offset) := by
  obtain ⟨-, hdata, hlowest, htop⟩ := h.inside.2 a ha
  have hbase := Int.le_trans hroomy.data_nonneg hdata
  have haddr := Live.toInt_add hroomy hbase htop ho
  have ho0 := ho.1
  apply hm.readWord <;> omega

theorem Frame.Fits.saved {f : Frame} (h : f.Fits) : f.Holds f.linkOffset :=
  h _ (List.mem_cons_of_mem _ List.mem_cons_self)

theorem Saves.congr {top : Word} (h : Saves top m live)
    (hm : ∀ a ∈ live, m'.readWord a.saved = m.readWord a.saved) : Saves top m' live := by
  induction live with
  | nil => trivial
  | cons b rest ih =>
    obtain ⟨hb, hrest⟩ := h
    exact ⟨(hm b List.mem_cons_self).trans hb,
      ih hrest fun a ha => hm a (List.mem_cons_of_mem _ ha)⟩

namespace Stacked

/-- Nothing else of the state matters. -/
theorem of_stack_eq (h : Stacked setup live s) (hs : s'.stack = s.stack) :
    Stacked setup live s' := by
  simp only [State.stack, Prod.mk.injEq] at hs
  obtain ⟨hm, hfp, hsp, hdepth⟩ := hs
  exact ⟨hm ▸ h.size, hfp.trans h.fp, hsp.trans h.sp, hdepth.trans h.depth, h.adjacent,
    hm ▸ h.saves⟩

variable (hroomy : setup.Roomy)
include hroomy

/-- The lowest address in use is inside the memory. -/
theorem lowest_nonneg (h : Adjacent setup.program.dataSize setup.memorySize live) :
    0 ≤ (Live.lowest setup.memorySize live).toInt := by
  have hdata := hroomy.data_nonneg
  cases live with
  | nil => exact Int.le_trans hdata hroomy.data_le
  | cons a rest => exact Int.le_trans hdata h.2.1

/-- Words inside live frames can be read and written. -/
theorem holdsWord (h : Stacked setup live s) (ha : a ∈ live) {offset : Word}
    (ho : a.frame.Holds offset) : s.memory.holdsWord (a.base + offset) = true := by
  obtain ⟨-, hdata, -, htop⟩ := h.adjacent.inside.2 a ha
  have hbase := Int.le_trans hroomy.data_nonneg hdata
  have haddr := Live.toInt_add hroomy hbase htop ho
  have hsize := h.size
  obtain ⟨ho0, hole⟩ := ho
  rw [Memory.holdsWord_iff]
  simp only [Live.top] at htop
  omega

/-- Room that could be reserved for a frame is right below the others. -/
theorem reserve (h : Stacked setup live s) {f : Frame} (hfits : f.Fits) {count : Nat} {base : Word}
    (hok : Exec.reserve setup f count s = .ok base s') :
    s' = s ∧ count = f.params.length ∧
      Adjacent setup.program.dataSize setup.memorySize (⟨f, base⟩ :: live) := by
  obtain ⟨rfl, hbase, hdata, hcount⟩ := Exec.reserve_eq_ok hok
  have hlow := lowest_nonneg hroomy h.adjacent
  have hhigh := h.adjacent.inside.1
  have hroom := hroomy.size_le
  have hsize := (hfits 0 List.mem_cons_self).2
  have hmax := f.size.toInt_lt
  have h0 : (0 : Word).toInt = 0 := rfl
  rw [h.sp] at hbase
  simp only [Program.maxAllocation, Word.byteSize] at hroom hsize
  have hsub : base.toInt = (Live.lowest setup.memorySize live).toInt - f.size.toInt := by
    rw [hbase]
    apply Word.toInt_sub_of_lt <;> simp only [Word.limit] <;> omega
  refine ⟨rfl, hcount, hfits, hdata, ?_, h.adjacent⟩
  simp only [Live.top]
  omega

/-- The words of a frame that a call writes lie where integers say. -/
theorem toInt_slot (hadj : Adjacent setup.program.dataSize setup.memorySize (a :: live))
    {offset : Word} (ho : offset ∈ 0 :: a.frame.linkOffset :: a.frame.params) :
    (a.base + offset).toInt = a.base.toInt + offset.toInt ∧ 0 ≤ a.base.toInt ∧
      0 ≤ offset.toInt ∧ a.base.toInt + offset.toInt + Word.byteSize ≤ a.top := by
  obtain ⟨hfits, hdata, -, htop⟩ := hadj.inside.2 a List.mem_cons_self
  have hbase := Int.le_trans hroomy.data_nonneg hdata
  have hholds := hfits offset ho
  have hadd := Live.toInt_add hroomy hbase htop hholds
  obtain ⟨h0, hle⟩ := hholds
  simp only [Live.top]
  omega

/-- Words of a frame that are apart are apart in memory. -/
theorem apart_slots (hadj : Adjacent setup.program.dataSize setup.memorySize (a :: live))
    {o o' : Word} (ho : o ∈ 0 :: a.frame.linkOffset :: a.frame.params)
    (ho' : o' ∈ 0 :: a.frame.linkOffset :: a.frame.params) (h : Word.Apart o o') :
    Word.Apart (a.base + o) (a.base + o') := by
  have hslot := (toInt_slot hroomy hadj ho).1
  have hslot' := (toInt_slot hroomy hadj ho').1
  unfold Word.Apart at h ⊢
  omega

/-- A call writes into the new frame only. Afterwards the caller's frame pointer is in its
place, and so are the static link and the parameters if they are apart. -/
theorem fill (hadj : Adjacent setup.program.dataSize setup.memorySize (a :: live)) {link : Word}
    {args : List Word} (hargs : args.length = a.frame.params.length)
    (hok : Exec.fill a.frame a.base link args s = .ok () s') :
    ∃ m, s' = { s with memory := m } ∧ Memory.Within a.base.toInt a.top s.memory m ∧
      m.readWord a.saved = s.fp ∧ (a.frame.Spaced → a.Filled m link args) := by
  obtain ⟨hsaved, hbase, hsaved0, hsavedTop⟩ :=
    toInt_slot hroomy hadj (List.mem_cons_of_mem _ List.mem_cons_self)
  obtain ⟨_, _, hstore, hok⟩ := Exec.bind_eq_ok hok
  obtain ⟨hholds, rfl⟩ := Exec.store_eq_ok hstore
  obtain ⟨_, _, hslots, hok⟩ := Exec.bind_eq_ok hok
  obtain ⟨m, rfl, hm⟩ := Exec.storeAll_eq_ok hslots
  obtain ⟨_, _, hget, hok⟩ := Exec.bind_eq_ok hok
  injection hget with hval hstate
  subst hval hstate
  obtain ⟨hheld, rfl⟩ := Exec.store_eq_ok hok
  have hparam : ∀ w ∈ a.frame.params.zip args, w.1 ∈ 0 :: a.frame.linkOffset :: a.frame.params :=
    fun w hw => List.mem_cons_of_mem _ (List.mem_cons_of_mem _ (List.of_mem_zip hw).1)
  refine ⟨_, rfl, ?_, Memory.readWord_writeWord hheld, ?_⟩
  · have hlink : Memory.Within a.base.toInt a.top s.memory (s.memory.writeWord a.base link) :=
      Memory.Within.writeWord hbase (Int.le_refl _) (by omega)
    have hwrites := hm.within a.base.toInt a.top fun w hw => by
      have hslot := toInt_slot hroomy hadj (hparam w hw)
      omega
    have hsave : Memory.Within a.base.toInt a.top m (m.writeWord a.saved s.fp) :=
      Memory.Within.writeWord (by rw [Live.saved]; omega) (by rw [Live.saved]; omega)
        (by rw [Live.saved]; omega)
    exact (hlink.trans hwrites).trans hsave
  · intro hspaced
    -- the static link is written first, then the parameters, then the saved frame pointer
    obtain ⟨hzero, hspaced⟩ := List.pairwise_cons.1 hspaced
    obtain ⟨hlast, hspaced⟩ := List.pairwise_cons.1 hspaced
    have hbelow : ∀ o ∈ 0 :: a.frame.params,
        (m.writeWord a.saved s.fp).readWord (a.base + o) = m.readWord (a.base + o) := by
      intro o ho
      have hmem : o ∈ 0 :: a.frame.linkOffset :: a.frame.params := by
        rcases List.mem_cons.1 ho with rfl | ho
        · exact List.mem_cons_self
        · exact List.mem_cons_of_mem _ (List.mem_cons_of_mem _ ho)
      have hslot := toInt_slot hroomy hadj hmem
      refine Memory.readWord_writeWord_of_apart (by rw [Live.saved]; omega) (by omega) ?_
      refine apart_slots hroomy hadj (List.mem_cons_of_mem _ List.mem_cons_self) hmem ?_
      rcases List.mem_cons.1 ho with rfl | ho
      · exact (hzero _ List.mem_cons_self).symm
      · exact hlast o ho
    constructor
    · have hfirst := hm.apart (a.base + 0) (by rw [Int64.add_zero]; exact hbase) fun w hw =>
        (apart_slots hroomy hadj List.mem_cons_self (hparam w hw)
          (hzero _ (List.mem_cons_of_mem _ (List.of_mem_zip hw).1))).symm
      have hzeroth := (hbelow 0 List.mem_cons_self).trans hfirst
      rw [Int64.add_zero] at hzeroth
      exact hzeroth.trans (Memory.readWord_writeWord hholds)
    · intro w hw
      refine (hbelow _ (List.mem_cons_of_mem _ (List.of_mem_zip hw).1)).trans (hm.read ?_ w hw)
      have hoffsets : (a.frame.params.zip args).Pairwise fun w u => Word.Apart w.1 u.1 := by
        rw [← List.pairwise_map, List.map_fst_zip (Nat.le_of_eq hargs.symm)]
        exact hspaced
      exact hoffsets.imp_of_mem fun hw hu h => apart_slots hroomy hadj (hparam _ hw) (hparam _ hu) h

/-- A frame that has been set up is the innermost one. -/
theorem enter (h : Stacked setup live s)
    (hadj : Adjacent setup.program.dataSize setup.memorySize (a :: live))
    (hm : Memory.Within a.base.toInt a.top s.memory s'.memory)
    (hsaved : s'.memory.readWord a.saved = s.fp) (hfp : s'.fp = a.base) (hsp : s'.sp = a.base)
    (hdepth : s'.depth = s.depth + 1) : Stacked setup (a :: live) s' where
  size := by rw [hm.size]; exact h.size
  fp := hfp
  sp := hsp
  depth := by rw [hdepth, h.depth, List.length_cons]
  adjacent := hadj
  saves := by
    refine ⟨hsaved.trans h.fp, h.saves.congr ?_⟩
    intro b hb
    have hbelow : Memory.Within a.base.toInt (Live.lowest setup.memorySize live).toInt
        s.memory s'.memory := hadj.2.2.1 ▸ hm
    exact h.adjacent.readWord_of_below hroomy hbelow hb (h.adjacent.inside.2 b hb).1.saved

/-- Leaving the innermost frame brings back the registers of the caller. -/
theorem leave (h : Stacked setup (a :: live) s) {caller : Activation} {location : Location}
    {v : Word} (hok : Exec.leave a.frame caller location s = .ok v s') :
    Stacked setup live s' ∧ s'.memory = s.memory ∧ s'.location = location := by
  obtain ⟨hfits, hdata, htop, hadj⟩ := h.adjacent
  obtain ⟨hsaved, hsaves⟩ := h.saves
  have hfp : s.fp = a.base := h.fp
  have hsize := (hfits 0 List.mem_cons_self).2
  have hroom := hroomy.size_le
  have hdata0 := hroomy.data_nonneg
  have hhigh := hadj.inside.1
  have h0 : (0 : Word).toInt = 0 := rfl
  simp only [Live.top, Program.maxAllocation, Word.byteSize] at htop hroom hsize
  obtain rfl := Exec.leave_eq_ok hok
  refine ⟨⟨h.size, ?_, ?_, ?_, hadj, hsaves⟩, rfl, rfl⟩
  · change s.memory.readWord (s.fp + a.frame.linkOffset) = _
    rw [hfp]
    exact hsaved
  · change s.fp + a.frame.size = _
    rw [hfp, ← Int64.toInt_inj, ← htop]
    apply Word.toInt_add_of_lt <;> simp only [Word.limit] <;> omega
  · change s.depth - 1 = _
    rw [h.depth, List.length_cons, Nat.add_sub_cancel]

/-- A word that is written apart from the saved frame pointers leaves the stack in order. -/
theorem store (h : Stacked setup live s) {addr value : Word}
    (hholds : s.memory.holdsWord addr = true) (hapart : ∀ a ∈ live, Word.Apart addr a.saved) :
    Stacked setup live { s with memory := s.memory.writeWord addr value } where
  size := by rw [Memory.size_writeWord]; exact h.size
  fp := h.fp
  sp := h.sp
  depth := h.depth
  adjacent := h.adjacent
  saves := by
    apply h.saves.congr
    intro a ha
    obtain ⟨hfits, hdata, -, htop⟩ := h.adjacent.inside.2 a ha
    have hbase := Int.le_trans hroomy.data_nonneg hdata
    have hsaved := Live.toInt_add hroomy hbase htop hfits.saved
    have hoffset := hfits.saved.1
    apply Memory.readWord_writeWord_of_apart (Memory.holdsWord_iff.1 hholds).1 _ (hapart a ha)
    rw [Live.saved]
    omega

end Stacked

end Calls

section New

theorem Program.size_writeBytes (bytes : Array UInt8) (start : Nat) (init : List UInt8) :
    (Program.writeBytes bytes start init).size = bytes.size := by
  induction init generalizing bytes start with
  | nil => rfl
  | cons b rest ih => rw [writeBytes, ih, Array.size_setIfInBounds]

theorem Program.size_image {p : Program} {image : Array UInt8} (h : p.image? = some image) :
    Program.allocatable p.dataSize = true ∧ image.size = p.dataSize.toInt.toNat := by
  have hfold : ∀ (items : List DataItem) (bytes : Array UInt8),
      (items.foldl (fun image d =>
        writeBytes image d.offset.toInt.toNat (d.init.take d.size.toInt.toNat)) bytes).size =
        bytes.size := by
    intro items
    induction items with
    | nil => exact fun _ => rfl
    | cons d items ih =>
      intro bytes
      rw [List.foldl_cons, ih, size_writeBytes]
  unfold image? at h
  split at h
  next hcond =>
    rw [Bool.and_eq_true] at hcond
    injection h with himage
    rw [← himage, hfold, Array.size_replicate]
    exact ⟨hcond.1, rfl⟩
  next => cases h

/-- On a new machine no frame is live. -/
theorem Machine.stacked_of_new {p : Program} {o : Options} {m : Machine}
    (h : Machine.new p o = .ok m) : m.setup.Roomy ∧ Stacked m.setup [] m.startState := by
  simp only [Machine.new] at h
  by_cases hsmall : (o.setup p).memorySize < p.dataSize
  · rw [if_pos hsmall] at h
    cases h
  by_cases halloc : (!Program.allocatable (o.setup p).memorySize) = true
  · rw [if_neg hsmall, if_pos halloc] at h
    cases h
  rw [if_neg hsmall, if_neg halloc] at h
  cases himage : p.image? with
  | none =>
    rw [himage] at h
    cases h
  | some image =>
    rw [himage] at h
    injection h with hm
    subst hm
    obtain ⟨hdata, hsize⟩ := Program.size_image himage
    rw [Int64.lt_iff_toInt_lt, Int.not_lt] at hsmall
    simp only [Program.allocatable, Bool.and_eq_true, decide_eq_true_eq, Bool.not_eq_true,
      Bool.not_eq_false'] at hdata halloc
    refine ⟨⟨hdata.1, hsmall, halloc.2⟩, ?_, rfl, rfl, rfl, trivial, trivial⟩
    change ((initialMemory (o.setup p).memorySize.toInt.toNat image).bytes.size : Int) = _
    simp only [initialMemory, Array.size_append, Array.size_replicate, hsize]
    omega

end New

end TreeCode
