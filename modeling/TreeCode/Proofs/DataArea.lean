/-
# The data area

The data of a program lie at the bottom of memory, one item after the other in the order of
the chunks. Every address below the size of the area belongs to exactly one item, apart from
items without bytes. The image of the area holds the initial bytes of each item, as many of
them as the item has room for, and zeros behind them.

Offsets are running sums of words. They are the sums of the sizes as long as no size is
negative and the total is a word. An image exists only if the area can be set aside in one
piece, which is a stricter bound on the total.
-/

import Mathlib.Algebra.Order.BigOperators.Group.List
import Mathlib.Algebra.Order.Group.Int
import Mathlib.Algebra.Ring.Int.Defs
import TreeCode.Proofs.Index
import TreeCode.Proofs.Machine.Stack

namespace TreeCode

open IR (Chunk)

/-- The first address behind a data item. -/
def DataItem.stop (d : DataItem) : Int :=
  d.offset.toInt + d.size.toInt

/-- The chunk of a data item. -/
def DataItem.chunk (d : DataItem) : Chunk :=
  .data d.label d.size d.init

/-- A data item that lies inside the data area is as long as it says. -/
theorem DataItem.inside_of_fits {d : DataItem} {area : Word} (h : d.fits area = true) :
    0 ≤ d.offset.toInt ∧ 0 ≤ d.size.toInt ∧
      (d.offset + d.size).toInt = d.offset.toInt + d.size.toInt ∧
      (d.offset + d.size).toInt ≤ area.toInt := by
  simp only [fits, Bool.and_eq_true, decide_eq_true_eq] at h
  obtain ⟨⟨hoffset, hlength⟩, harea⟩ := h
  have hlow := d.size.le_toInt
  have hhigh := d.size.toInt_lt
  have hoffset' := d.offset.toInt_lt
  have hsum : (d.offset + d.size).toInt = d.offset.toInt + d.size.toInt := by
    rw [Int64.toInt_add] at hlength ⊢
    simp only [Int.bmod] at hlength ⊢
    omega
  exact ⟨hoffset, by omega, hsum, harea⟩

namespace IR.Chunk

/-- Whether a chunk is data. -/
def isData : Chunk → Bool
  | .code .. => false
  | .data .. => true

/-- The number of bytes of data that a chunk asks for. -/
def dataLength : Chunk → Int
  | .code .. => 0
  | .data _ size _ => size.toInt

/-- The number of bytes of data that a list of chunks asks for. -/
def dataTotal (chunks : List Chunk) : Int :=
  (chunks.map dataLength).sum

@[simp]
theorem dataTotal_nil : dataTotal [] = 0 := rfl

@[simp]
theorem dataTotal_cons (c : Chunk) (rest : List Chunk) :
    dataTotal (c :: rest) = c.dataLength + dataTotal rest :=
  List.sum_cons

/-- No size of data is negative, and the sizes add up to a word. -/
structure Sizable (chunks : List Chunk) : Prop where
  nonneg : ∀ c ∈ chunks, 0 ≤ c.dataLength
  total : dataTotal chunks < Word.limit

theorem dataTotal_nonneg {chunks : List Chunk} (h : ∀ c ∈ chunks, 0 ≤ c.dataLength) :
    0 ≤ dataTotal chunks := by
  apply List.sum_nonneg
  intro length hlength
  obtain ⟨c, hc, rfl⟩ := List.mem_map.1 hlength
  exact h c hc

end IR.Chunk

namespace Program

section Order

/-- The data of a program lie one after the other at the bottom of memory. -/
structure DataInOrder (p : Program) : Prop where
  labels : (p.data.map (·.label)).Nodup
  apart : p.data.Pairwise fun d e => d.offset.toInt + d.size.toInt ≤ e.offset.toInt
  inside : ∀ d ∈ p.data, 0 ≤ d.offset.toInt ∧ 0 ≤ d.size.toInt ∧
    d.offset.toInt + d.size.toInt ≤ p.dataSize.toInt

/-- Data that lie inside the data area lie one after the other. -/
theorem dataFrom_inOrder {area : Word} : ∀ (chunks : List Chunk) (offset : Word),
    (∀ d ∈ dataFrom offset chunks, d.fits area = true) →
      (dataFrom offset chunks).Pairwise
          (fun d e => d.offset.toInt + d.size.toInt ≤ e.offset.toInt) ∧
        ∀ d ∈ dataFrom offset chunks, offset.toInt ≤ d.offset.toInt
  | [], _, _ => ⟨.nil, fun _ hd => absurd hd List.not_mem_nil⟩
  | .code _ _ :: rest, offset, h => dataFrom_inOrder rest offset h
  | .data l size init :: rest, offset, h => by
    obtain ⟨-, hsize, hsum, -⟩ := DataItem.inside_of_fits (h _ List.mem_cons_self)
    obtain ⟨hapart, hlater⟩ := dataFrom_inOrder rest (offset + size)
      fun d hd => h d (List.mem_cons_of_mem _ hd)
    simp only at hsize hsum
    refine ⟨List.pairwise_cons.2 ⟨fun d hd => ?_, hapart⟩, fun d hd => ?_⟩
    · exact hsum ▸ hlater d hd
    · rcases List.mem_cons.1 hd with rfl | hd
      · exact Int.le_refl _
      · have hle := hlater d hd
        omega

theorem mem_dataFrom {l : Label} {size : Word} {init : List UInt8} : ∀ (chunks : List Chunk)
    (offset : Word), .data l size init ∈ chunks →
    ∃ d ∈ dataFrom offset chunks, d.label = l ∧ d.size = size ∧ d.init = init
  | .code _ _ :: rest, offset, h => by
    rcases List.mem_cons.1 h with heq | h
    · cases heq
    · exact mem_dataFrom rest offset h
  | .data l' size' init' :: rest, offset, h => by
    rcases List.mem_cons.1 h with heq | h
    · cases heq
      exact ⟨_, List.mem_cons_self, rfl, rfl, rfl⟩
    · obtain ⟨d, hd, hlabel⟩ := mem_dataFrom rest (offset + size') h
      exact ⟨d, List.mem_cons_of_mem _ hd, hlabel⟩

variable {chunks : List Chunk} {p : Program} (h : ofChunks chunks = .ok p)
include h

/-- Data that all lie inside the data area lie in order. -/
theorem dataInOrder_of_fits (hfits : ∀ d ∈ p.data, d.fits p.dataSize = true) : p.DataInOrder := by
  have hnames := names_nodup h
  cases ofChunks_eq_ok h
  refine ⟨nodup_of_names ((sublist_dataFrom chunks 0).nodup hnames),
    (dataFrom_inOrder chunks 0 hfits).1, fun d hd => ?_⟩
  obtain ⟨hoffset, hsize, hsum, harea⟩ := DataItem.inside_of_fits (hfits d hd)
  exact ⟨hoffset, hsize, hsum ▸ harea⟩

/-- If there is an initial memory, the data lie in order. -/
theorem dataInOrder {image : Array UInt8} (himage : p.image? = some image) : p.DataInOrder := by
  apply dataInOrder_of_fits h
  unfold image? at himage
  split at himage
  next hcond => exact List.all_eq_true.1 (Bool.and_eq_true_iff.1 hcond).2
  next => cases himage

end Order

section Sizes

/-- The size of the data area is the sum of the sizes. -/
theorem toInt_dataSizeOf : ∀ {chunks : List Chunk}, Chunk.Sizable chunks →
    (dataSizeOf chunks).toInt = Chunk.dataTotal chunks
  | [], _ => rfl
  | .code _ _ :: rest, h => by
    have hrest : Chunk.Sizable rest :=
      ⟨fun c hc => h.nonneg c (.tail _ hc), by simpa [Chunk.dataLength] using h.total⟩
    rw [dataSizeOf, toInt_dataSizeOf hrest, Chunk.dataTotal_cons, Chunk.dataLength, Int.zero_add]
  | .data l size init :: rest, h => by
    have hsize : 0 ≤ size.toInt := h.nonneg (.data l size init) List.mem_cons_self
    have hnonneg : ∀ c ∈ rest, 0 ≤ c.dataLength := fun c hc => h.nonneg c (.tail _ hc)
    have htotal : size.toInt + Chunk.dataTotal rest < Word.limit := h.total
    have hrest := toInt_dataSizeOf ⟨hnonneg, by omega⟩
    have hrest_nonneg := Chunk.dataTotal_nonneg hnonneg
    rw [dataSizeOf, Word.toInt_add_of_lt, hrest, Chunk.dataTotal_cons, Chunk.dataLength]
    · rw [hrest]
      simp only [Word.limit]
      omega
    · rw [hrest]
      exact htotal

/-- Data whose sizes add up to no more than the area lie inside it. -/
theorem fits_dataFrom {area : Word} : ∀ {chunks : List Chunk} {offset : Word},
    (∀ c ∈ chunks, 0 ≤ c.dataLength) → 0 ≤ offset.toInt →
      offset.toInt + Chunk.dataTotal chunks ≤ area.toInt →
      ∀ d ∈ dataFrom offset chunks, d.fits area = true
  | [], _, _, _, _, _, hd => absurd hd List.not_mem_nil
  | .code _ _ :: rest, offset, hnonneg, hoffset, harea, d, hd => by
    rw [Chunk.dataTotal_cons, Chunk.dataLength, Int.zero_add] at harea
    exact fits_dataFrom (fun c hc => hnonneg c (.tail _ hc)) hoffset harea d hd
  | .data l size init :: rest, offset, hnonneg, hoffset, harea, d, hd => by
    have hsize : 0 ≤ size.toInt := hnonneg (.data l size init) List.mem_cons_self
    have hrest : ∀ c ∈ rest, 0 ≤ c.dataLength := fun c hc => hnonneg c (.tail _ hc)
    have htotal := Chunk.dataTotal_nonneg hrest
    have hlimit := area.toInt_lt
    rw [Chunk.dataTotal_cons, Chunk.dataLength] at harea
    have hsum : (offset + size).toInt = offset.toInt + size.toInt := by
      apply Word.toInt_add_of_lt <;> simp only [Word.limit] <;> omega
    rcases List.mem_cons.1 hd with rfl | hd
    · simp only [DataItem.fits, hsum, Bool.and_eq_true, decide_eq_true_eq]
      omega
    · exact fits_dataFrom hrest (by omega) (by omega) d hd

/-- Every address of the area belongs to an item. -/
theorem exists_mem_dataFrom {a : Int} : ∀ {chunks : List Chunk} {offset : Word},
    (∀ c ∈ chunks, 0 ≤ c.dataLength) → 0 ≤ offset.toInt →
      offset.toInt + Chunk.dataTotal chunks < Word.limit → offset.toInt ≤ a →
      a < offset.toInt + Chunk.dataTotal chunks →
      ∃ d ∈ dataFrom offset chunks, d.offset.toInt ≤ a ∧ a < d.stop
  | [], offset, _, _, _, hlow, hhigh => by
    simp only [Chunk.dataTotal_nil] at hhigh
    omega
  | .code _ _ :: rest, offset, hnonneg, hoffset, hlimit, hlow, hhigh => by
    rw [Chunk.dataTotal_cons, Chunk.dataLength, Int.zero_add] at hlimit hhigh
    have hrest : ∀ c ∈ rest, 0 ≤ c.dataLength := fun c hc => hnonneg c (.tail _ hc)
    show ∃ d ∈ dataFrom offset rest, d.offset.toInt ≤ a ∧ a < d.stop
    exact exists_mem_dataFrom hrest hoffset hlimit hlow hhigh
  | .data l size init :: rest, offset, hnonneg, hoffset, hlimit, hlow, hhigh => by
    have hsize : 0 ≤ size.toInt := hnonneg (.data l size init) List.mem_cons_self
    have hrest : ∀ c ∈ rest, 0 ≤ c.dataLength := fun c hc => hnonneg c (.tail _ hc)
    have htotal := Chunk.dataTotal_nonneg hrest
    rw [Chunk.dataTotal_cons, Chunk.dataLength] at hlimit hhigh
    -- the address is in the first item, or behind it
    by_cases hfirst : a < offset.toInt + size.toInt
    · exact ⟨_, List.mem_cons_self, hlow, hfirst⟩
    · have hsum : (offset + size).toInt = offset.toInt + size.toInt := by
        apply Word.toInt_add_of_lt <;> simp only [Word.limit] at hlimit ⊢ <;> omega
      have hnext : ∃ d ∈ dataFrom (offset + size) rest, d.offset.toInt ≤ a ∧ a < d.stop :=
        exists_mem_dataFrom hrest (by omega) (by omega) (by omega) (by omega)
      obtain ⟨d, hd, hholds⟩ := hnext
      exact ⟨d, List.mem_cons_of_mem _ hd, hholds⟩

/-- There is one item for every data chunk, in the order of the chunks. -/
theorem map_chunk_dataFrom (chunks : List Chunk) : ∀ offset : Word,
    (dataFrom offset chunks).map DataItem.chunk = chunks.filter Chunk.isData := by
  induction chunks with
  | nil => exact fun _ => rfl
  | cons c rest ih =>
    intro offset
    cases c with
    | code frame body => exact ih offset
    | data l size init => exact congrArg (Chunk.data l size init :: ·) (ih (offset + size))

end Sizes

section Image

/-- Bytes that are written stand where they were written, and the others stay. -/
theorem getElem?_writeBytes (bytes : Array UInt8) (start : Nat) (init : List UInt8) (i : Nat) :
    (writeBytes bytes start init)[i]? =
      if start ≤ i ∧ i < start + init.length ∧ i < bytes.size then init[i - start]?
      else bytes[i]? := by
  induction init generalizing bytes start with
  | nil =>
    rw [writeBytes, if_neg]
    simp only [List.length_nil]
    omega
  | cons b rest ih =>
    rw [writeBytes, ih, Array.size_setIfInBounds, Array.getElem?_setIfInBounds]
    by_cases hi : start = i
    · subst hi
      simp only [List.length_cons]
      grind
    · grind

/-- Write the initial bytes of an item into an image, as many as the item has room for. -/
def placeItem (image : Array UInt8) (d : DataItem) : Array UInt8 :=
  writeBytes image d.offset.toInt.toNat (d.init.take d.size.toInt.toNat)

variable {p : Program} {items : List DataItem} {image : Array UInt8} {d : DataItem} {i : Nat}

/-- Placing an item leaves the bytes outside of it alone. -/
theorem getElem?_placeItem_of_outside (hoffset : 0 ≤ d.offset.toInt)
    (hi : (i : Int) < d.offset.toInt ∨ d.stop ≤ i) : (placeItem image d)[i]? = image[i]? := by
  rw [placeItem, getElem?_writeBytes, if_neg]
  simp only [DataItem.stop, List.length_take] at hi ⊢
  omega

/-- An item that is placed among zeros has its initial bytes, and zeros behind them. -/
theorem getElem?_placeItem (hi : (i : Int) < d.size.toInt)
    (hzero : image[d.offset.toInt.toNat + i]? = some 0) :
    (placeItem image d)[d.offset.toInt.toNat + i]? = some (d.init.getD i 0) := by
  obtain ⟨hbound, -⟩ := Array.getElem?_eq_some_iff.1 hzero
  have htake : (d.init.take d.size.toInt.toNat)[i]? = d.init[i]? :=
    List.getElem?_take_of_lt (by omega)
  rw [placeItem, getElem?_writeBytes, hzero, Nat.add_sub_cancel_left, htake,
    List.getD_eq_getElem?_getD, List.length_take]
  by_cases hlength : i < d.init.length
  · rw [if_pos (by omega), List.getElem?_eq_getElem hlength, Option.getD_some]
  · rw [if_neg (by omega), List.getElem?_eq_none (by omega), Option.getD_none]

/-- Placing items that start behind a byte leaves the byte alone. -/
theorem getElem?_foldl_placeItem_of_lt (h : ∀ d ∈ items, (i : Int) < d.offset.toInt) :
    (items.foldl placeItem image)[i]? = image[i]? := by
  induction items generalizing image with
  | nil => rfl
  | cons d rest ih =>
    have hd := h d List.mem_cons_self
    rw [List.foldl_cons, ih fun e he => h e (List.mem_cons_of_mem _ he)]
    exact getElem?_placeItem_of_outside (by omega) (.inl hd)

/-- Items that lie one after the other among zeros all have their bytes once they are
placed. -/
theorem getElem?_foldl_placeItem
    (hapart : items.Pairwise fun d e => d.offset.toInt + d.size.toInt ≤ e.offset.toInt)
    (hnonneg : ∀ d ∈ items, 0 ≤ d.offset.toInt)
    (hzero : ∀ d ∈ items, ∀ i : Nat, (i : Int) < d.size.toInt →
      image[d.offset.toInt.toNat + i]? = some 0) :
    ∀ d ∈ items, ∀ i : Nat, (i : Int) < d.size.toInt →
      (items.foldl placeItem image)[d.offset.toInt.toNat + i]? = some (d.init.getD i 0) := by
  induction items generalizing image with
  | nil => exact fun d hd => absurd hd List.not_mem_nil
  | cons e rest ih =>
    obtain ⟨hfirst, hapart⟩ := List.pairwise_cons.1 hapart
    have hoffset := hnonneg e List.mem_cons_self
    intro d hd i hi
    rw [List.foldl_cons]
    rcases List.mem_cons.1 hd with rfl | hd
    · -- the items behind the first one do not reach back into it
      rw [getElem?_foldl_placeItem_of_lt]
      · exact getElem?_placeItem hi (hzero d List.mem_cons_self i hi)
      · intro c hc
        have hbehind := hfirst c hc
        omega
    · -- the first item leaves zeros where the others go
      apply ih hapart (fun c hc => hnonneg c (List.mem_cons_of_mem _ hc)) _ d hd i hi
      intro c hc j hj
      have hbehind := hfirst c hc
      have hnonneg' := hnonneg c (List.mem_cons_of_mem _ hc)
      rw [getElem?_placeItem_of_outside hoffset (.inr (by simp only [DataItem.stop]; omega))]
      exact hzero c (List.mem_cons_of_mem _ hc) j hj

/-- The image of a program holds the initial bytes of every item, and zeros behind them. -/
theorem getElem?_image (hdata : p.DataInOrder) (himage : p.image? = some image) (hd : d ∈ p.data)
    (hi : (i : Int) < d.size.toInt) :
    image[d.offset.toInt.toNat + i]? = some (d.init.getD i 0) := by
  have hfold : image = p.data.foldl placeItem (Array.replicate p.dataSize.toInt.toNat 0) := by
    unfold image? at himage
    split at himage
    · exact (Option.some.inj himage).symm
    · cases himage
  rw [hfold]
  apply getElem?_foldl_placeItem hdata.apart (fun e he => (hdata.inside e he).1) _ d hd i hi
  intro e he j hj
  obtain ⟨hoffset, -, harea⟩ := hdata.inside e he
  rw [Array.getElem?_replicate, if_pos (by omega)]

/-- Data that lie inside the area have an image if the area can be set aside. -/
theorem exists_image_iff (hfits : ∀ d ∈ p.data, d.fits p.dataSize = true)
    (hsize : 0 ≤ p.dataSize.toInt) :
    (∃ image, p.image? = some image) ↔ p.dataSize.toInt ≤ maxAllocation := by
  have hall : p.data.all (·.fits p.dataSize) = true := List.all_eq_true.2 hfits
  rw [image?, hall, Bool.and_true]
  by_cases h : p.dataSize.toInt ≤ maxAllocation
  · rw [if_pos (by simp [allocatable, h, hsize])]
    exact ⟨fun _ => h, fun _ => ⟨_, rfl⟩⟩
  · rw [if_neg (by simp [allocatable, h])]
    constructor
    · rintro ⟨_, ⟨⟩⟩
    · exact fun hle => absurd hle h

end Image

/-- The data of a program are those of some chunks, one after the other and without gaps. -/
structure LaysOut (p : Program) (chunks : List Chunk) : Prop where
  /-- There is one item for every data chunk, in the order of the chunks. -/
  items : p.data.map DataItem.chunk = chunks.filter Chunk.isData
  /-- Items are found by their labels. -/
  address : ∀ d ∈ p.data, p.address? d.label = some d.offset
  /-- Every item ends before the next one begins. -/
  apart : p.data.Pairwise fun d e => d.stop ≤ e.offset.toInt
  inside : ∀ d ∈ p.data, 0 ≤ d.offset.toInt ∧ d.stop ≤ p.dataSize.toInt
  /-- The items fill the area. -/
  covered : ∀ a : Int, 0 ≤ a ∧ a < p.dataSize.toInt ↔
    ∃ d ∈ p.data, d.offset.toInt ≤ a ∧ a < d.stop
  total : p.dataSize.toInt = Chunk.dataTotal chunks

section Area

variable {chunks : List Chunk} {p : Program} (hp : ofChunks chunks = .ok p)
  (hsizes : Chunk.Sizable chunks)

include hp hsizes

theorem fits_of_sizable : ∀ d ∈ p.data, d.fits p.dataSize = true := by
  cases ofChunks_eq_ok hp
  show ∀ d ∈ dataFrom 0 chunks, d.fits (dataSizeOf chunks) = true
  apply fits_dataFrom hsizes.nonneg (show 0 ≤ (0 : Word).toInt from Int.le_refl 0)
  rw [toInt_dataSizeOf hsizes, Int64.toInt_zero, Int.zero_add]

/-- Chunks with data of proper sizes are laid out. -/
theorem laysOut_of_sizable : p.LaysOut chunks := by
  have hdata := dataInOrder_of_fits hp (fits_of_sizable hp hsizes)
  have htotal : p.dataSize.toInt = Chunk.dataTotal chunks := by
    cases ofChunks_eq_ok hp
    exact toInt_dataSizeOf hsizes
  have hlimit := hsizes.total
  refine ⟨?_, fun d hd => ?_, hdata.apart, fun d hd => ?_, fun a => ⟨?_, ?_⟩, htotal⟩
  · cases ofChunks_eq_ok hp
    exact map_chunk_dataFrom chunks 0
  · rw [address?, find?_of_nodup hdata.labels hd]
    rfl
  · exact ⟨(hdata.inside d hd).1, (hdata.inside d hd).2.2⟩
  · rintro ⟨hlow, hhigh⟩
    rw [htotal] at hhigh
    cases ofChunks_eq_ok hp
    have hzero : (0 : Word).toInt = 0 := rfl
    exact exists_mem_dataFrom hsizes.nonneg (Int.le_refl 0) (by omega) hlow (by omega)
  · rintro ⟨d, hd, hlow, hhigh⟩
    obtain ⟨hoffset, -, hstop⟩ := hdata.inside d hd
    exact ⟨Int.le_trans hoffset hlow, Int.lt_of_lt_of_le hhigh hstop⟩

theorem exists_image_iff_of_sizable :
    (∃ image, p.image? = some image) ↔ Chunk.dataTotal chunks ≤ maxAllocation := by
  have htotal := (laysOut_of_sizable hp hsizes).total
  rw [exists_image_iff (fits_of_sizable hp hsizes), htotal]
  rw [htotal]
  exact Chunk.dataTotal_nonneg hsizes.nonneg

end Area

/-- Linear code has the data of the chunks it was made from. -/
theorem exists_linear {chunks : List Chunk} {p : Program} (hp : ofChunks chunks = .ok p)
    (n : Nat) : ∃ q, ofChunks (Chunk.canonicalAll chunks n).1 = .ok q ∧ q.data = p.data ∧
      q.dataSize = p.dataSize ∧ q.image? = p.image? := by
  have hnames := names_nodup hp
  rw [← Chunk.names_canonicalAll chunks n] at hnames
  obtain ⟨q, hq⟩ := exists_ofChunks_of_nodup hnames
  have hdata : q.data = p.data := by
    rw [ofChunks_eq_ok hq, ofChunks_eq_ok hp]
    exact dataFrom_canonicalAll chunks n 0
  have hsize : q.dataSize = p.dataSize := by
    rw [ofChunks_eq_ok hq, ofChunks_eq_ok hp]
    exact dataSizeOf_canonicalAll chunks n
  refine ⟨q, hq, hdata, hsize, ?_⟩
  rw [image?, image?, hdata, hsize]

end Program

/-- A machine can be made if its memory can be set aside and has room for the image of the
data, which it begins with. -/
theorem Machine.new_eq_ok_iff {p : Program} {o : Options} {m : Machine} :
    Machine.new p o = .ok m ↔
      p.dataSize.toInt ≤ (o.setup p).memorySize.toInt ∧
        Program.allocatable (o.setup p).memorySize = true ∧
        ∃ image, p.image? = some image ∧ m = ⟨o.setup p, initialState (o.setup p).memorySize
          (initialMemory (o.setup p).memorySize.toInt.toNat image)⟩ := by
  simp only [Machine.new]
  by_cases hsmall : (o.setup p).memorySize < p.dataSize
  · rw [if_pos hsmall]
    rw [Int64.lt_iff_toInt_lt, ← Int.not_le] at hsmall
    simp [hsmall]
  · rw [if_neg hsmall]
    rw [Int64.lt_iff_toInt_lt, Int.not_lt] at hsmall
    cases halloc : Program.allocatable (o.setup p).memorySize with
    | false => simp
    | true => cases himage : p.image? <;> simp [hsmall, eq_comm]

/-- The memory of a new machine is the image of the data, followed by zeros. -/
def Machine.StartsFrom (m : Machine) (image : Array UInt8) : Prop :=
  m.state.memory.bytes =
    image ++ Array.replicate (m.setup.memorySize.toInt.toNat - image.size) 0

namespace Program

/-- Data layout and initial memory. Chunks make up a program if their names are distinct. If
the sizes of their data are proper, the data fill the data area in the order of the chunks,
and linear code has the same data. There is an image if the area can be set aside in one
piece. The image holds the initial bytes of every item as far as the item reaches, and zeros
behind them; it is what the memory of every machine for the program begins with. -/
theorem data_laid_out (chunks : List Chunk) :
    ((∃ p, ofChunks chunks = .ok p) ↔ (chunks.map (·.label.name)).Nodup) ∧
      ∀ p, ofChunks chunks = .ok p → Chunk.Sizable chunks →
        p.LaysOut chunks ∧
        (∀ n, ∃ q, ofChunks (Chunk.canonicalAll chunks n).1 = .ok q ∧ q.data = p.data ∧
          q.dataSize = p.dataSize ∧ q.image? = p.image?) ∧
        ((∃ image, p.image? = some image) ↔ Chunk.dataTotal chunks ≤ maxAllocation) ∧
        (∀ image, p.image? = some image → (image.size : Int) = p.dataSize.toInt ∧
          ∀ d ∈ p.data, ∀ i : Nat, (i : Int) < d.size.toInt →
            image[d.offset.toInt.toNat + i]? = some (d.init.getD i 0)) ∧
        ∀ o : Options, ((∃ m, Machine.new p o = .ok m) ↔
            p.dataSize.toInt ≤ (o.setup p).memorySize.toInt ∧
              (o.setup p).memorySize.toInt ≤ maxAllocation) ∧
          ∀ m, Machine.new p o = .ok m → ∃ image, p.image? = some image ∧ m.StartsFrom image := by
  refine ⟨⟨fun ⟨p, hp⟩ => names_nodup hp, exists_ofChunks_of_nodup⟩, fun p hp hsizes => ?_⟩
  have hlaid := laysOut_of_sizable hp hsizes
  have hexists := exists_image_iff_of_sizable hp hsizes
  have hnonneg : 0 ≤ p.dataSize.toInt := hlaid.total ▸ Chunk.dataTotal_nonneg hsizes.nonneg
  refine ⟨hlaid, exists_linear hp, hexists, fun image himage => ⟨?_, ?_⟩, fun o => ⟨⟨?_, ?_⟩, ?_⟩⟩
  · rw [(size_image himage).2, Int.toNat_of_nonneg hnonneg]
  · intro d hd i hi
    exact getElem?_image (dataInOrder hp himage) himage hd hi
  · rintro ⟨m, hm⟩
    obtain ⟨hroom, halloc, -⟩ := Machine.new_eq_ok_iff.1 hm
    simp only [allocatable, Bool.and_eq_true, decide_eq_true_eq] at halloc
    exact ⟨hroom, halloc.2⟩
  · rintro ⟨hroom, halloc⟩
    obtain ⟨image, himage⟩ := hexists.2 (by rw [← hlaid.total]; omega)
    refine ⟨_, Machine.new_eq_ok_iff.2 ⟨hroom, ?_, image, himage, rfl⟩⟩
    simp only [allocatable, Bool.and_eq_true, decide_eq_true_eq]
    exact ⟨Int.le_trans hnonneg hroom, halloc⟩
  · intro m hm
    obtain ⟨-, -, image, himage, rfl⟩ := Machine.new_eq_ok_iff.1 hm
    exact ⟨image, himage, rfl⟩

/-- Data between code: two items with bytes, one with more initial bytes than room, and one
without bytes. -/
def mixed : List Chunk :=
  [.data (.ofName "a") 3 [1, 2, 3, 4, 5],
    .code ⟨.ofName "f", 1, [8], 24, 16⟩ (.move (.temp Temp.rv) (.const 0)),
    .data (.ofName "e") 0 [6], .data (.ofName "b") 4 [7]]

theorem mixed_laid_out :
    ∃ p, ofChunks mixed = .ok p ∧ Chunk.Sizable mixed ∧ p.LaysOut mixed ∧
      (p.data.map fun d => d.offset) = [0, 3, 3] ∧ p.image? = some #[1, 2, 3, 7, 0, 0, 0] ∧
      ∃ m, Machine.new p ⟨9, 0, false⟩ = .ok m ∧ m.StartsFrom #[1, 2, 3, 7, 0, 0, 0] := by
  obtain ⟨p, hp⟩ : ∃ p, ofChunks mixed = .ok p := ⟨_, rfl⟩
  have hsizes : Chunk.Sizable mixed := ⟨by decide, by decide⟩
  have hlayout : (p.data.map fun d => d.offset) = [0, 3, 3] ∧
      p.image? = some #[1, 2, 3, 7, 0, 0, 0] ∧ p.dataSize = 7 := by
    cases ofChunks_eq_ok hp
    decide +kernel
  obtain ⟨hoffsets, himage, hsize⟩ := hlayout
  obtain ⟨hlaid, -, -, -, hnew⟩ := (data_laid_out mixed).2 p hp hsizes
  have hmemory : (Options.setup ⟨9, 0, false⟩ p).memorySize = 9 := rfl
  obtain ⟨m, hm⟩ := (hnew ⟨9, 0, false⟩).1.2 (by rw [hsize, hmemory]; decide)
  obtain ⟨image, himage', hstarts⟩ := (hnew ⟨9, 0, false⟩).2 m hm
  obtain rfl : image = _ := Option.some.inj (himage'.symm.trans himage)
  exact ⟨p, hp, hsizes, hlaid, hoffsets, himage, m, hm, hstarts⟩

/-- An area that is larger than what can be set aside in one piece. -/
def oversized : List Chunk :=
  [.data (.ofName "d") 562949953421312 []]

/-- A total that is a word is not enough for an image: the data of this program have their
places, but there is no image of them, and no machine. -/
theorem oversized_has_no_image :
    Chunk.Sizable oversized ∧ ∃ p, ofChunks oversized = .ok p ∧ p.image? = none ∧
      ∀ o m, Machine.new p o ≠ .ok m := by
  obtain ⟨p, hp⟩ : ∃ p, ofChunks oversized = .ok p := ⟨_, rfl⟩
  have himage : p.image? = none := by
    cases ofChunks_eq_ok hp
    decide +kernel
  refine ⟨⟨by decide, by decide⟩, p, hp, himage, fun o m hm => ?_⟩
  obtain ⟨-, -, image, himage', -⟩ := Machine.new_eq_ok_iff.1 hm
  cases himage.symm.trans himage'

end Program

end TreeCode
