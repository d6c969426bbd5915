/-
# String literals in memory

A string literal is a text that a program carries with it. Lowering makes data of its bytes
and a zero behind them, the data are laid out among those of the static variables, and the
image of the data area is what the memory of a machine begins with. So the name of a literal
stands for an address from which the machine reads the text: all bytes up to the first zero.

Every mention of a literal has bytes of its own, in whole words, apart from those of all other
literals and static variables. Offsets are sums of words: this holds if the sizes of the static
variables are not negative and all sizes together are a word.
-/

import TreeCode.Proofs.Compilation
import TreeCode.Proofs.DataArea
import TreeCode.Proofs.Isolation.Regions
import TreeCode.Proofs.Lowering.Mentions

namespace TreeCode

open IR (Chunk Expr)
open Source (Symbol)

/-- The text of a literal: its bytes up to the first zero. -/
def Literal.text (bytes : List UInt8) : List UInt8 :=
  bytes.takeWhile (· != 0)

namespace Memory

variable {m : Memory}

/-- The first zero of some bytes with a zero behind them. -/
theorem firstZero_eq {bytes : List UInt8} : ∀ {start count : Nat}, bytes.length < count →
    (∀ i ≤ bytes.length, m.byte (start + i) = (bytes ++ [0]).getD i 0) →
    m.firstZero start count = some (start + (Literal.text bytes).length) := by
  induction bytes with
  | nil =>
    intro start count hcount h
    obtain ⟨count, rfl⟩ := Nat.exists_eq_add_one.2 hcount
    have hzero : m.byte start = 0 := h 0 (Nat.le_refl _)
    rw [firstZero, hzero]
    rfl
  | cons b bytes ih =>
    intro start count hcount h
    obtain ⟨count, rfl⟩ := Nat.exists_eq_add_one.2 (Nat.zero_lt_of_lt hcount)
    have hfirst : m.byte start = b := h 0 (Nat.zero_le _)
    rw [firstZero, hfirst]
    by_cases hb : b = 0
    · rw [if_pos (by simp [hb]), Literal.text, List.takeWhile_cons_of_neg (by simp [hb])]
      rfl
    · have hrest : ∀ i ≤ bytes.length, m.byte (start + 1 + i) = (bytes ++ [0]).getD i 0 := by
        intro i hi
        rw [Nat.add_assoc, Nat.add_comm 1]
        exact h (i + 1) (Nat.succ_le_succ hi)
      rw [if_neg (by simpa using hb), ih (Nat.lt_of_succ_lt_succ hcount) hrest, Literal.text,
        Literal.text, List.takeWhile_cons_of_pos (by simpa using hb), List.length_cons]
      congr 1
      omega

/-- Bytes with a zero behind them are read up to their first zero. -/
theorem stringFrom?_eq {bytes : List UInt8} {start : Nat}
    (h : ∀ i ≤ bytes.length, m.bytes[start + i]? = some ((bytes ++ [0]).getD i 0)) :
    m.stringFrom? start = some (Literal.text bytes) := by
  have hbyte : ∀ i ≤ bytes.length, m.byte (start + i) = (bytes ++ [0]).getD i 0 := by
    intro i hi
    rw [byte, Array.getD_eq_getD_getElem?, h i hi, Option.getD_some]
  obtain ⟨hsize, -⟩ := Array.getElem?_eq_some_iff.1 (h bytes.length (Nat.le_refl _))
  have hlength : bytes.length < m.size - start := by
    rw [size]
    omega
  rw [stringFrom?, firstZero_eq hlength hbyte, Option.map_some]
  congr 1
  obtain ⟨rest, hrest⟩ : Literal.text bytes <+: bytes := List.takeWhile_prefix _
  have hle : (Literal.text bytes).length + rest.length = bytes.length := by
    rw [← List.length_append, hrest]
  refine List.ext_getElem? fun i => ?_
  rw [Array.getElem?_toList, Array.getElem?_extract]
  by_cases hi : i < (Literal.text bytes).length
  · have hsame : (bytes ++ [0])[i]? = (Literal.text bytes)[i]? := by
      rw [List.getElem?_append_left (by omega)]
      conv_lhs => rw [← hrest, List.getElem?_append_left hi]
    rw [if_pos (by omega), h i (by omega), List.getD_eq_getElem?_getD, hsame,
      List.getElem?_eq_getElem hi, Option.getD_some]
  · rw [if_neg (by omega), List.getElem?_eq_none (by omega)]

end Memory

section Sizes

theorem Word.le_roundUp (n : Nat) : n ≤ Word.roundUp n := by
  simp only [roundUp, byteSize]
  omega

theorem Word.dvd_roundUp (n : Nat) : Word.byteSize ∣ Word.roundUp n :=
  Nat.dvd_mul_left _ _

namespace IR.Chunk

/-- The number of bytes of a chunk of data: those of a static variable, or the whole words that
the bytes of a literal take. -/
def extent : Chunk → Int
  | .code .. => 0
  | .data _ size init => if init.isEmpty then size.toInt else Word.roundUp init.length

theorem extent_literal (l : Label) (size : Word) (bytes : List UInt8) :
    extent (.data l size (bytes ++ [0])) = Word.roundUp (bytes ++ [0]).length :=
  if_neg (by simp)

/-- Whether the size of a chunk is that of a literal, as a word. -/
def IsPadded : Chunk → Prop
  | .code .. => True
  | .data _ size init => init ≠ [] → size = Int64.ofNat (Word.roundUp init.length)

theorem dataLength_eq_extent {c : Chunk} (hpadded : c.IsPadded) (hlimit : c.extent < Word.limit) :
    c.dataLength = c.extent := by
  cases c with
  | code frame body => rfl
  | data l size init =>
    cases init with
    | nil => rfl
    | cons b bytes =>
      obtain rfl := hpadded (List.cons_ne_nil _ _)
      change ((Word.roundUp (b :: bytes).length : Nat) : Int) < _ at hlimit
      change (Int64.ofNat (Word.roundUp (b :: bytes).length)).toInt =
        ((Word.roundUp (b :: bytes).length : Nat) : Int)
      simp only [Word.limit] at hlimit
      rw [Int64.toInt_ofNat', show Int64.size = 2 ^ 64 from rfl]
      apply Int.bmod_eq_of_le <;> omega

section Extents

variable {chunks : List Chunk} (hpadded : ∀ c ∈ chunks, c.IsPadded)
  (hstatics : ∀ l size, .data l size [] ∈ chunks → 0 ≤ size.toInt)
  (htotal : (chunks.map extent).sum < Word.limit)

include hstatics

theorem extent_nonneg : ∀ c ∈ chunks, 0 ≤ c.extent := by
  intro c hc
  cases c with
  | code frame body => exact Int.le_refl 0
  | data l size init =>
    cases init with
    | nil => exact hstatics l size hc
    | cons b bytes => exact Int.natCast_nonneg _

include hpadded htotal

theorem dataLength_eq_of_mem : ∀ c ∈ chunks, c.dataLength = c.extent := by
  intro c hc
  have hle : c.extent ≤ (chunks.map extent).sum :=
    List.single_le_sum (List.forall_mem_map.2 (extent_nonneg hstatics)) _ (List.mem_map_of_mem hc)
  exact dataLength_eq_extent (hpadded c hc) (Int.lt_of_le_of_lt hle htotal)

/-- Sizes of static variables that are not negative and add up to a word together with the
words of the literals are proper. -/
theorem sizable_of_extent : Sizable chunks := by
  have heq := dataLength_eq_of_mem hpadded hstatics htotal
  constructor
  · intro c hc
    rw [heq c hc]
    exact extent_nonneg hstatics c hc
  · rw [dataTotal, List.map_congr_left heq]
    exact htotal

end Extents

end IR.Chunk

end Sizes

namespace Program

/-- The bytes that the data at a label take. -/
def region? (p : Program) (l : Label) : Option Stretch :=
  (p.data.find? fun d => d.label == l).map fun d => ⟨d.offset.toInt, d.size.toInt⟩

/-- A program keeps a literal in some bytes: whole words inside the data area, at the address
that the name of the literal stands for. A machine that has just been made reads the text of
the literal there and prints it. -/
structure Keeps (p : Program) (l : Label) (bytes : List UInt8) (region : Stretch) : Prop where
  found : p.region? l = some region
  inside : 0 ≤ region.start ∧ region.stop ≤ p.dataSize.toInt
  words : (Word.byteSize : Int) ∣ region.length ∧ bytes.length < region.length
  reads : ∀ o m, Machine.new p o = .ok m → ∃ a : Word, a.toInt = region.start ∧
    (∀ run, Exec.eval m.setup run (.name l) m.state = .ok a m.state) ∧
    Exec.loadString a m.state = .ok (Literal.text bytes) m.state ∧
    Builtin.putStr.apply [a] m.state =
      .ok 0 { m.state with output := m.state.output ++ Literal.text bytes }

namespace DataInOrder

variable {p : Program} (h : p.DataInOrder) {d e : DataItem} (hd : d ∈ p.data)

include h hd

theorem region?_eq : p.region? d.label = some ⟨d.offset.toInt, d.size.toInt⟩ := by
  rw [region?, find?_of_nodup h.labels hd]
  rfl

theorem address?_eq : p.address? d.label = some d.offset := by
  rw [address?, find?_of_nodup h.labels hd]
  rfl

theorem region_apart (he : e ∈ p.data) (hne : d.label ≠ e.label) :
    Stretch.Apart ⟨d.offset.toInt, d.size.toInt⟩ ⟨e.offset.toInt, e.size.toInt⟩ :=
  either_of_pairwise h.apart hd he fun heq => hne (heq ▸ rfl)

/-- The memory of a new machine holds the initial bytes of every item. -/
theorem getElem?_memory {o : Options} {m : Machine} (hm : Machine.new p o = .ok m) {i : Nat}
    (hi : (i : Int) < d.size.toInt) :
    m.state.memory.bytes[d.offset.toInt.toNat + i]? = some (d.init.getD i 0) := by
  obtain ⟨-, -, image, himage, rfl⟩ := Machine.new_eq_ok_iff.1 hm
  have hbyte := getElem?_image h himage hd hi
  obtain ⟨hlt, -⟩ := Array.getElem?_eq_some_iff.1 hbyte
  change (image ++ Array.replicate _ 0)[_]? = _
  rw [Array.getElem?_append_left hlt, hbyte]

/-- An item that holds bytes with a zero behind them, in whole words, keeps a literal. -/
theorem keeps {bytes : List UInt8} (hinit : d.init = bytes ++ [0])
    (hsize : d.size.toInt = Word.roundUp (bytes ++ [0]).length) :
    p.Keeps d.label bytes ⟨d.offset.toInt, d.size.toInt⟩ := by
  obtain ⟨hoffset, -, hstop⟩ := h.inside d hd
  have hroom : (bytes.length : Int) < d.size.toInt := by
    have hle := Word.le_roundUp (bytes ++ [0]).length
    rw [List.length_append, List.length_singleton] at hle
    rw [hsize, List.length_append, List.length_singleton]
    omega
  refine ⟨h.region?_eq hd, ⟨hoffset, hstop⟩, ⟨?_, hroom⟩, fun o m hm => ?_⟩
  · change (Word.byteSize : Int) ∣ d.size.toInt
    rw [hsize]
    exact Int.natCast_dvd_natCast.2 (Word.dvd_roundUp _)
  · have hbytes : ∀ i ≤ bytes.length, m.state.memory.bytes[d.offset.toInt.toNat + i]? =
        some ((bytes ++ [0]).getD i 0) := fun i hi =>
      hinit ▸ h.getElem?_memory hd hm (by omega)
    obtain ⟨hlt, -⟩ := Array.getElem?_eq_some_iff.1 (hbytes 0 (Nat.zero_le _))
    have hload : Exec.loadString d.offset m.state = .ok (Literal.text bytes) m.state := by
      have hcond : (0 ≤ d.offset.toInt && d.offset.toInt < m.state.memory.size) = true := by
        have hend : d.offset.toInt < (m.state.memory.size : Int) := by
          rw [Memory.size]
          omega
        simp [hoffset, hend]
      rw [Exec.loadString, if_pos hcond, Memory.stringFrom?_eq hbytes]
    have heval : ∀ run, Exec.eval m.setup run (.name d.label) m.state = .ok d.offset m.state := by
      intro run
      obtain ⟨-, -, image, -, rfl⟩ := Machine.new_eq_ok_iff.1 hm
      have haddress : (o.setup p).program.address? d.label = some d.offset := h.address?_eq hd
      rw [Exec.eval, haddress]
      rfl
    refine ⟨d.offset, rfl, heval, hload, ?_⟩
    change EStateM.bind (Exec.loadString d.offset) _ m.state = _
    rw [EStateM.bind, hload]
    rfl

end DataInOrder

end Program

/-- A machine can be made for data that lie inside the area if the memory has room for the area
and can be set aside. -/
theorem Machine.exists_new_iff {p : Program} (hfits : ∀ d ∈ p.data, d.fits p.dataSize = true)
    (hsize : 0 ≤ p.dataSize.toInt) (o : Options) :
    (∃ m, Machine.new p o = .ok m) ↔ p.dataSize.toInt ≤ (o.setup p).memorySize.toInt ∧
      (o.setup p).memorySize.toInt ≤ Program.maxAllocation := by
  constructor
  · rintro ⟨m, hm⟩
    obtain ⟨hroom, halloc, -⟩ := Machine.new_eq_ok_iff.1 hm
    simp only [Program.allocatable, Bool.and_eq_true, decide_eq_true_eq] at halloc
    exact ⟨hroom, halloc.2⟩
  · rintro ⟨hroom, halloc⟩
    obtain ⟨image, himage⟩ := (Program.exists_image_iff hfits hsize).2 (Int.le_trans hroom halloc)
    refine ⟨_, Machine.new_eq_ok_iff.2 ⟨hroom, ?_, image, himage, rfl⟩⟩
    simp only [Program.allocatable, Bool.and_eq_true, decide_eq_true_eq]
    exact ⟨Int.le_trans hsize hroom, halloc⟩

namespace Mentioned

variable {layout : Layout} {supply supply' : Supply} {chunks : List Chunk}
  {named : List (Mention × Label)}
  (h : Mentioned layout ⟨supply, []⟩ ⟨supply', chunks⟩ [] named)

include h

theorem mem_chunks_iff {c : Chunk} (hc : c.isLiteral = true) :
    c ∈ chunks ↔ ∃ a ∈ named, Mention.chunk? a = some c := by
  have hperm : c ∈ chunks.filter Chunk.isLiteral ↔ c ∈ named.filterMap Mention.chunk? :=
    h.literals.mem_iff
  rw [List.mem_filter, List.mem_filterMap] at hperm
  exact ⟨fun hmem => hperm.1 ⟨hmem, hc⟩, fun hmem => (hperm.2 hmem).1⟩

/-- The sizes of literals are those of the words that they take. -/
theorem isPadded : ∀ c ∈ chunks, c.IsPadded := by
  intro c hc
  cases c with
  | code frame body => trivial
  | data l size init =>
    intro hne
    obtain ⟨⟨a, l'⟩, -, ha⟩ := (h.mem_chunks_iff (by simpa [Chunk.isLiteral] using hne)).1 hc
    cases a with
    | literal bytes =>
      cases ha
      rfl
    | static x => cases ha

theorem size_nonneg
    (hglobals : ∀ x l size, layout.access? x = some (.global l size) → 0 ≤ size.toInt) :
    ∀ l size, .data l size [] ∈ chunks → 0 ≤ size.toInt := by
  intro l size hmem
  rcases h.globals l size hmem with hmem | ⟨x, hx⟩
  · cases hmem
  · exact hglobals x l size hx

/-- A mention of a literal has its chunk. -/
theorem mem_chunks {i : Nat} {bytes : List UInt8} {l : Label}
    (hi : named[i]? = some (.literal bytes, l)) :
    .data l (Int64.ofNat (Word.roundUp (bytes ++ [0]).length)) (bytes ++ [0]) ∈ chunks :=
  (h.mem_chunks_iff (by simp [Chunk.isLiteral])).2 ⟨_, List.mem_of_getElem? hi, rfl⟩

/-- Every mention of a literal has a label of its own. -/
theorem label_ne (hnodup : (chunks.map (·.label)).Nodup) {i j : Nat} (hne : j ≠ i)
    {bytes bytes' : List UInt8} {l l' : Label} (hi : named[i]? = some (.literal bytes, l))
    (hj : named[j]? = some (.literal bytes', l')) : l ≠ l' := by
  have hliterals : ((chunks.filter Chunk.isLiteral).map (·.label)).Nodup :=
    (List.filter_sublist.map _).nodup hnodup
  have hperm : (chunks.filter Chunk.isLiteral).Perm (named.filterMap Mention.chunk?) := h.literals
  rw [(hperm.map _).nodup_iff, List.Nodup, List.pairwise_map, List.pairwise_filterMap] at hliterals
  have hapart : ∀ {i j : Nat} {a b : List UInt8} {l m : Label},
      named[i]? = some (.literal a, l) → named[j]? = some (.literal b, m) → i < j → l ≠ m := by
    intro i j a b l m hi hj hlt
    obtain ⟨hi', hi⟩ := List.getElem?_eq_some_iff.1 hi
    obtain ⟨hj', hj⟩ := List.getElem?_eq_some_iff.1 hj
    have hboth := List.pairwise_iff_getElem.1 hliterals i j hi' hj' hlt
    rw [hi, hj] at hboth
    exact hboth _ rfl _ rfl
  rcases Nat.lt_or_gt_of_ne hne with hlt | hlt
  · exact (hapart hj hi hlt).symm
  · exact hapart hi hj hlt

end Mentioned

namespace Compilation.Stages

variable {p : Source.Program} {c : Compilation} {laid lowered : Supply}
  (h : Stages p c laid lowered) {q : Program} (hq : q = c.tree ∨ q = c.linear)

include h hq

/-- Both forms of a compiled program have the same data. -/
theorem data_eq : q.data = c.tree.data ∧ q.dataSize = c.tree.dataSize := by
  rcases hq with rfl | rfl
  · exact ⟨rfl, rfl⟩
  · obtain ⟨linear, hlinear, hdata, hsize, -⟩ := Program.exists_linear h.tree lowered.temps
    rw [← h.canonical, h.linear] at hlinear
    cases hlinear
    exact ⟨hdata, hsize⟩

theorem exists_item {l : Label} {size : Word} {init : List UInt8}
    (hmem : .data l size init ∈ c.chunks) :
    ∃ d ∈ q.data, d.label = l ∧ d.size = size ∧ d.init = init := by
  rw [(h.data_eq hq).1, Program.ofChunks_eq_ok h.tree]
  exact Program.mem_dataFrom c.chunks 0 hmem

variable (hsizes : Chunk.Sizable c.chunks)

include hsizes

theorem dataInOrder : q.DataInOrder := by
  obtain ⟨hdata, hsize⟩ := h.data_eq hq
  have htree := Program.dataInOrder_of_fits h.tree (Program.fits_of_sizable h.tree hsizes)
  exact ⟨hdata ▸ htree.labels, hdata ▸ htree.apart, hdata ▸ hsize ▸ htree.inside⟩

theorem exists_new_iff (o : Options) :
    (∃ m, Machine.new q o = .ok m) ↔ q.dataSize.toInt ≤ (o.setup q).memorySize.toInt ∧
      (o.setup q).memorySize.toInt ≤ Program.maxAllocation := by
  obtain ⟨hdata, hsize⟩ := h.data_eq hq
  apply Machine.exists_new_iff
  · rw [hdata, hsize]
    exact Program.fits_of_sizable h.tree hsizes
  · rw [hsize, (Program.laysOut_of_sizable h.tree hsizes).total]
    exact Chunk.dataTotal_nonneg hsizes.nonneg

end Compilation.Stages

/-- String literals survive compilation. Let a program compile, let the sizes of its static
variables not be negative, and let them add up to a word together with the words of the
literals. Then in both forms of the code a machine can be made with any memory that has room
for the data and can be set aside. The names in the code are those of the literals and static
variables that the functions mention, in order. Each mention of a literal has its own bytes,
whole words apart from those of all other literals and of all static variables, and a new
machine reads the text of the literal there. -/
theorem Source.Program.keeps_literals {p : Source.Program} {c : Compilation} (h : p.compile = .ok c)
    (hglobals : ∀ x l size, c.layout.access? x = some (.global l size) → 0 ≤ size.toInt)
    (htotal : (c.chunks.map Chunk.extent).sum < Word.limit) {q : TreeCode.Program}
    (hq : q = c.tree ∨ q = c.linear) :
    (∀ o : Options, (∃ m, Machine.new q o = .ok m) ↔
        q.dataSize.toInt ≤ (o.setup q).memorySize.toInt ∧
          (o.setup q).memorySize.toInt ≤ TreeCode.Program.maxAllocation) ∧
      (Chunk.names c.chunks).length = (p.mentions c.layout).length ∧
      (∀ (i : Nat) (x : Symbol), (p.mentions c.layout)[i]? = some (Mention.static x) →
        ∃ l size, (Chunk.names c.chunks)[i]? = some l ∧
          c.layout.access? x = some (.global l size)) ∧
      ∀ (i : Nat) (bytes : List UInt8),
        (p.mentions c.layout)[i]? = some (Mention.literal bytes) →
        ∃ l region, (Chunk.names c.chunks)[i]? = some l ∧ q.Keeps l bytes region ∧
          (∀ (j : Nat) (bytes' : List UInt8), j ≠ i →
            (p.mentions c.layout)[j]? = some (Mention.literal bytes') →
            ∃ l' region', (Chunk.names c.chunks)[j]? = some l' ∧ q.region? l' = some region' ∧
              region.Apart region') ∧
          ∀ x l' size, c.layout.access? x = some (.global l' size) →
            ∃ region', q.region? l' = some region' ∧ region'.length = size.toInt ∧
              region.Apart region' := by
  obtain ⟨laid, lowered, hstages⟩ := Compilation.stages_of_compile h
  obtain ⟨named, hm, hmentions, hnames⟩ := exists_mentioned hstages.lower
  have hstatics := hm.size_nonneg hglobals
  have hsizes := Chunk.sizable_of_extent hm.isPadded hstatics htotal
  have hdata := hstages.dataInOrder hq hsizes
  have hlabels : (c.chunks.map (·.label)).Nodup :=
    nodup_of_names (TreeCode.Program.names_nodup hstages.tree)
  have hmention : ∀ {i : Nat} {a : Mention}, (p.mentions c.layout)[i]? = some a →
      ∃ l, (Chunk.names c.chunks)[i]? = some l ∧ named[i]? = some (a, l) := by
    intro i a hi
    rw [← hmentions, List.getElem?_map] at hi
    obtain ⟨⟨_, l⟩, hnamed, rfl⟩ := Option.map_eq_some_iff.1 hi
    refine ⟨l, ?_, hnamed⟩
    rw [← hnames, List.getElem?_map, hnamed]
    rfl
  refine ⟨hstages.exists_new_iff hq hsizes, ?_, fun i x hi => ?_, fun i bytes hi => ?_⟩
  · rw [← hnames, ← hmentions, List.length_map, List.length_map]
  · obtain ⟨l, hl, hnamed⟩ := hmention hi
    obtain ⟨size, hx⟩ := hm.statics x l (List.mem_of_getElem? hnamed)
    exact ⟨l, size, hl, hx⟩
  obtain ⟨l, hl, hnamed⟩ := hmention hi
  have hchunk := hm.mem_chunks hnamed
  have hextent := Chunk.dataLength_eq_of_mem hm.isPadded hstatics htotal _ hchunk
  obtain ⟨d, hd, rfl, hsize, hinit⟩ := hstages.exists_item hq hchunk
  rw [← hsize, Chunk.extent_literal] at hextent
  refine ⟨d.label, _, hl, hdata.keeps hd hinit hextent, fun j bytes' hne hj => ?_,
    fun x l' size hx => ?_⟩
  · obtain ⟨l', hl', hnamed'⟩ := hmention hj
    obtain ⟨e, he, rfl, -, -⟩ := hstages.exists_item hq (hm.mem_chunks hnamed')
    exact ⟨e.label, _, hl', hdata.region?_eq he,
      hdata.region_apart hd he (hm.label_ne hlabels hne hnamed hnamed')⟩
  · have hstatic := data_of_global hstages.layout hstages.lower hx
    obtain ⟨e, he, rfl, rfl, -⟩ := hstages.exists_item hq hstatic
    refine ⟨_, hdata.region?_eq he, rfl, hdata.region_apart hd he fun heq => ?_⟩
    have hchunks := List.inj_on_of_nodup_map hlabels hchunk hstatic heq
    simp at hchunks

/-- Whether a place is not that of a static variable with a negative size. -/
def Access.isProper : Access → Bool
  | .global _ size => 0 ≤ size.toInt
  | _ => true

theorem Layout.size_nonneg_of_all {layout : Layout}
    (h : layout.accesses.all (·.2.isProper) = true) (x : Symbol) (l : Label) (size : Word)
    (hx : layout.access? x = some (.global l size)) : 0 ≤ size.toInt := by
  obtain ⟨before, rest, heq, -⟩ := List.lookup_eq_some_iff.1 hx
  have hmem : (x.id, .global l size) ∈ layout.accesses :=
    heq ▸ List.mem_append_right _ List.mem_cons_self
  exact of_decide_eq_true (List.all_eq_true.1 h _ hmem)

/-- The bytes of a literal. -/
def Mention.bytes? : Mention → Option (List UInt8)
  | literal bytes => some bytes
  | static _ => none

theorem Mention.eq_literal {a : Mention} {bytes : List UInt8} (h : a.bytes? = some bytes) :
    a = literal bytes := by
  cases a with
  | literal bytes' => exact congrArg literal (Option.some.inj h)
  | static x => cases h

namespace Sample

/-- Literals beside a static variable: one without bytes, one that fills a word together with
the zero behind it, and one with a zero inside. -/
def texts : Source.Program :=
  let putStr : Symbol := ⟨2, "put_str", .void⟩
  let total := integer 3 "total"
  ofDefs [
    .funDecl putStr [⟨4, "s", .string⟩] none,
    .varDecl total,
    entry (.sequence [
      .call putStr [.string []],
      .call putStr [.string [49, 50, 51, 52, 53, 54, 55]],
      assign (.ident total) (.number (-1)),
      .call putStr [.string [97, 98, 0, 99]],
      .number 0])]

/-- The literal with a zero inside is printed up to the zero. Its data lie behind those of the
variable and the other literals, which it is apart from. -/
theorem texts_kept : ∃ c m l a, texts.compile = .ok c ∧
    (∀ x l size, c.layout.access? x = some (.global l size) → 0 ≤ size.toInt) ∧
    (c.chunks.map Chunk.extent).sum = 32 ∧ Machine.new c.linear ⟨32, 0, false⟩ = .ok m ∧
    (Chunk.names c.chunks)[3]? = some l ∧ c.linear.region? l = some ⟨24, 8⟩ ∧
    (∀ run, Exec.eval m.setup run (.name l) m.state = .ok a m.state) ∧
    Exec.loadString a m.state = .ok [97, 98] m.state := by
  have hmentions : (texts.compile.toOption.map fun c =>
      (texts.mentions c.layout).map Mention.bytes?) =
      some [some [], some [49, 50, 51, 52, 53, 54, 55], none, some [97, 98, 0, 99]] := by
    decide +kernel
  have hsizes : (texts.compile.toOption.map fun c => (c.linear.dataSize.toInt,
      (c.chunks.map Chunk.extent).sum)) = some (32, 32) := by
    decide +kernel
  have hregion : (texts.compile.toOption.map fun c =>
      (Chunk.names c.chunks)[3]?.bind c.linear.region?) = some (some ⟨24, 8⟩) := by
    decide +kernel
  have hproper : (texts.compile.toOption.map fun c => c.layout.accesses.all (·.2.isProper)) =
      some true := by
    decide +kernel
  obtain ⟨c, hcompile, hmentions⟩ := Outcome.of_toOption_map hmentions
  simp only [hcompile, Except.toOption, Option.map_some, Option.some_inj] at hsizes hregion hproper
  obtain ⟨hsize, htotal⟩ := Prod.mk.inj hsizes
  have hglobals := Layout.size_nonneg_of_all hproper
  have hlimit : (c.chunks.map Chunk.extent).sum < Word.limit := by
    rw [htotal]
    decide
  obtain ⟨hnew, -, -, hkeeps⟩ := Source.Program.keeps_literals hcompile hglobals hlimit (.inr rfl)
  have hmemory : (Options.setup ⟨32, 0, false⟩ c.linear).memorySize.toInt = 32 := rfl
  obtain ⟨m, hm⟩ := (hnew ⟨32, 0, false⟩).2 (by rw [hsize, hmemory]; decide)
  have hmention : (texts.mentions c.layout)[3]? = some (.literal [97, 98, 0, 99]) := by
    have hlast := congrArg (fun texts => texts[3]?) hmentions
    simp only [List.getElem?_map] at hlast
    obtain ⟨a, ha, htext⟩ := Option.map_eq_some_iff.1 hlast
    rw [ha, Mention.eq_literal htext]
  obtain ⟨l, region, hl, hkept, -⟩ := hkeeps 3 _ hmention
  rw [hl, Option.bind_some, hkept.found] at hregion
  obtain ⟨a, -, heval, hload, -⟩ := hkept.reads _ m hm
  exact ⟨c, m, l, a, hcompile, hglobals, htotal, hm, hl, hregion ▸ hkept.found, heval, hload⟩

end Sample

end TreeCode
