/-
# Room in frames

Sizes and offsets are words, and sums of words wrap around. In a program whose variables
have sizes that are not negative, and whose frames are smaller than the largest word, they
do not: a frame has the size of its parts, and its parts do not overlap. Of these, the
static link comes first, then the parameters, then the variables one behind the other, and
last the saved frame pointer.
-/

import Mathlib.Algebra.Order.BigOperators.Group.List
import Mathlib.Algebra.Order.Group.Int
import TreeCode.Proofs.Layout.Origin
import TreeCode.Proofs.Machine.Stack

namespace TreeCode

open Source (Declared Routine Symbol)

/-- The sizes of variables are not negative, and the frame of a function, with its
variables, its parameters, the static link and the saved frame pointer, has a size. -/
def Source.Declared.Sized (ds : List Declared) : Declared → Prop
  | ⟨_, .var x⟩ => 0 ≤ x.ty.size.toInt
  | ⟨_, .routine r⟩ =>
    ((Word.byteSize * (r.params.length + 2) : Nat) : Int) + localTotal ds r.decl.id < Word.limit
  | ⟨_, .param _⟩ => True

instance (ds : List Declared) (d : Declared) : Decidable (d.Sized ds) :=
  match d with
  | ⟨_, .var _⟩ => inferInstanceAs (Decidable (_ ≤ _))
  | ⟨_, .routine _⟩ => inferInstanceAs (Decidable (_ < _))
  | ⟨_, .param _⟩ => .isTrue trivial

/-- All variables and frames of a program have a size. -/
def Source.Program.Sized (p : Source.Program) : Prop :=
  ∀ d ∈ p.declares, d.Sized p.declares

instance (p : Source.Program) : Decidable p.Sized :=
  inferInstanceAs (Decidable (∀ d ∈ _, _))

/-- A small multiple of the word size does not wrap around. -/
theorem Word.toInt_size_mul {n : Nat} (h : byteSize * n < limit) :
    (size * Int64.ofNat n).toInt = (byteSize * n : Nat) := by
  simp only [byteSize, limit] at h
  have hn : (Int64.ofNat n).toInt = n := by
    rw [Int64.toInt_ofNat', show Int64.size = 2 ^ 64 from rfl]
    apply Int.bmod_eq_of_le <;> omega
  rw [Int64.toInt_mul, hn]
  change ((8 : Int) * n).bmod (2 ^ 64) = _
  rw [Int.bmod_eq_of_le (by omega) (by omega)]
  simp only [byteSize]
  omega

section Extents

variable {i : Nat} {l : List (Nat × Access)}

/-- Variables of some frames have sizes that are not negative. -/
def Spacious (l : List (Nat × Access)) : Prop :=
  ∀ entry ∈ l, ∀ i, 0 ≤ (entry.2.sizeIn i).toInt

theorem slotExtent_cons (i : Nat) (entry : Nat × Access) (l : List (Nat × Access)) :
    slotExtent i (entry :: l) = (entry.2.sizeIn i).toInt + slotExtent i l := by
  simp [slotExtent]

theorem Spacious.extent_nonneg (h : Spacious l) : 0 ≤ slotExtent i l :=
  List.sum_nonneg fun _ hsize => by
    obtain ⟨entry, hentry, rfl⟩ := List.mem_map.1 hsize
    exact h entry hentry i

/-- What was laid out before takes no more room. -/
theorem Spacious.extent_le {before after : List (Nat × Access)} (h : Spacious (after ++ before)) :
    slotExtent i before ≤ slotExtent i (after ++ before) := by
  have hafter : 0 ≤ slotExtent i after :=
    Spacious.extent_nonneg fun entry hentry => h entry (List.mem_append_left _ hentry)
  have hsum : slotExtent i (after ++ before) = slotExtent i after + slotExtent i before := by
    simp [slotExtent]
  omega

/-- The sum of sizes is that of integers where it is a word. -/
theorem Spacious.toInt_slotTotal (h : Spacious l) (hlimit : slotExtent i l < Word.limit) :
    (slotTotal i l).toInt = slotExtent i l := by
  induction l with
  | nil => rfl
  | cons entry l ih =>
    have hl : Spacious l := fun e he => h e (List.mem_cons_of_mem _ he)
    have hentry := h entry List.mem_cons_self i
    have hrest := hl.extent_nonneg (i := i)
    rw [slotExtent_cons] at hlimit ⊢
    have ih := ih hl (by omega)
    rw [slotTotal, Word.toInt_add_of_lt, ih, Int.add_comm] <;> rw [ih] <;>
      simp only [Word.limit] at hlimit ⊢ <;> omega

theorem Served.spacious {ds : List Declared} {frames : List FrameRecord} (h : Served ds frames l)
    (hds : ∀ d ∈ ds, d.Sized ds) : Spacious l := by
  have hzero : (0 : Int) ≤ (0 : Word).toInt := Int.le_refl 0
  induction h with
  | nil => exact fun _ hentry => nomatch hentry
  | global _ _ ih | paramSlot _ _ _ _ ih =>
    intro entry hentry i
    rcases List.mem_cons.1 hentry with rfl | hentry
    · exact hzero
    · exact ih entry hentry i
  | localSlot hx _ _ ih =>
    intro entry hentry i
    rcases List.mem_cons.1 hentry with rfl | hentry
    · simp only [Access.sizeIn]
      split
      · exact hds _ hx
      · exact hzero
    · exact ih entry hentry i

end Extents

namespace FrameRecord

/-- The variables of a frame take a number of bytes, and the whole frame has a size. -/
structure Measures (f : FrameRecord) (total : Int) : Prop where
  localSize : f.localSize.toInt = total
  nonneg : 0 ≤ total
  limit : ((Word.byteSize * (f.params.length + 2) : Nat) : Int) + total < Word.limit

namespace Measures

variable {f : FrameRecord} {total : Int}

theorem toInt_localBase (h : f.Measures total) :
    f.localBase.toInt = (Word.byteSize * (f.params.length + 1) : Nat) := by
  have hnonneg := h.nonneg
  have hlimit := h.limit
  simp only [Word.byteSize, Word.limit] at hlimit
  exact Word.toInt_size_mul (by simp only [Word.byteSize, Word.limit]; omega)

theorem toInt_paramOffset (h : f.Measures total) {k : Nat} (hk : k < f.params.length) :
    (paramOffset k).toInt = (Word.byteSize * (k + 1) : Nat) := by
  have hnonneg := h.nonneg
  have hlimit := h.limit
  simp only [Word.byteSize, Word.limit] at hlimit
  exact Word.toInt_size_mul (by simp only [Word.byteSize, Word.limit]; omega)

theorem toInt_linkOffset (h : f.Measures total) :
    f.linkOffset.toInt = (Word.byteSize * (f.params.length + 1) : Nat) + total := by
  have hnonneg := h.nonneg
  have hlimit := h.limit
  have hbase := h.toInt_localBase
  have hsize := h.localSize
  simp only [Word.byteSize, Word.limit] at hlimit hbase ⊢
  have hsum : f.linkOffset.toInt = f.localBase.toInt + f.localSize.toInt :=
    Word.toInt_add_of_lt (by simp only [Word.limit]; omega) (by simp only [Word.limit]; omega)
  omega

theorem toInt_size (h : f.Measures total) :
    f.size.toInt = f.linkOffset.toInt + Word.byteSize := by
  have hnonneg := h.nonneg
  have hlimit := h.limit
  have hlink := h.toInt_linkOffset
  have hword : Word.size.toInt = 8 := rfl
  simp only [Word.byteSize, Word.limit] at hlimit hlink ⊢
  have hsum : f.size.toInt = f.linkOffset.toInt + Word.size.toInt :=
    Word.toInt_add_of_lt (by simp only [Word.limit]; omega) (by simp only [Word.limit]; omega)
  omega

theorem mem_params {offset : Word} (h : offset ∈ f.frame.params) :
    ∃ k < f.params.length, offset = paramOffset k := by
  obtain ⟨k, hk, rfl⟩ := List.mem_map.1 h
  exact ⟨k, List.mem_range.1 hk, rfl⟩

/-- A frame that has a size has room for what a call writes into it. -/
theorem fits (h : f.Measures total) : f.frame.Fits := by
  have hnonneg := h.nonneg
  have hlink := h.toInt_linkOffset
  have hsize : f.frame.size.toInt = _ := h.toInt_size
  intro offset ho
  unfold Frame.Holds
  simp only [List.mem_cons] at ho
  rcases ho with rfl | rfl | ho
  · have h0 : (0 : Word).toInt = 0 := rfl
    simp only [Word.byteSize] at *
    omega
  · change 0 ≤ f.linkOffset.toInt ∧ f.linkOffset.toInt + _ ≤ _
    simp only [Word.byteSize] at *
    omega
  · obtain ⟨k, hk, rfl⟩ := mem_params ho
    have hoffset := h.toInt_paramOffset hk
    simp only [Word.byteSize] at *
    omega

/-- What a call writes into a frame that has a size does not overlap. -/
theorem spaced (h : f.Measures total) : f.frame.Spaced := by
  have hnonneg := h.nonneg
  have hlink := h.toInt_linkOffset
  have h0 : (0 : Word).toInt = 0 := rfl
  change (0 :: f.linkOffset :: f.frame.params).Pairwise Word.Apart
  refine List.pairwise_cons.2 ⟨?_, List.pairwise_cons.2 ⟨?_, ?_⟩⟩
  · intro offset ho
    refine .inl ?_
    rcases List.mem_cons.1 ho with rfl | ho
    · simp only [Word.byteSize] at *
      omega
    · obtain ⟨k, hk, rfl⟩ := mem_params ho
      have hoffset := h.toInt_paramOffset hk
      simp only [Word.byteSize] at *
      omega
  · intro offset ho
    obtain ⟨k, hk, rfl⟩ := mem_params ho
    have hoffset := h.toInt_paramOffset hk
    refine .inr ?_
    simp only [Word.byteSize] at *
    omega
  · refine List.pairwise_map.2 (List.pairwise_lt_range.imp_of_mem fun hj hk hlt => .inl ?_)
    have hj := h.toInt_paramOffset (List.mem_range.1 hj)
    have hk := h.toInt_paramOffset (List.mem_range.1 hk)
    simp only [Word.byteSize] at *
    omega

end Measures

end FrameRecord

/-- In a program whose variables and frames have a size, frames measure what the variables
of their functions take. -/
theorem Layout.measures_of_build {supply laid : Supply} {p : Source.Program} {layout : Layout}
    (hbuild : Layout.build supply p = .ok (layout, laid)) (hp : p.Sized) {i : Nat}
    {f : FrameRecord} (hf : layout.frames[i]? = some f) :
    f.Measures (slotExtent i layout.accesses) := by
  have hextended := Layout.extended_of_build hbuild
  have horigin := hextended.originates
  have hbare : (LayoutState.bare ⟨layout, laid⟩)[i]? = some f.bare := by
    rw [LayoutState.getElem?_bare, hf, Option.map_some]
  have hextent : slotExtent i layout.accesses = localTotal p.declares f.decl.id := by
    rw [hextended.extent _ (List.prefix_refl _) horigin.distinct i f.bare hbare]
    exact Int.zero_add _
  obtain ⟨r, outer, hr, hdecl, j, g, hj, hg, -, hdescribes, -⟩ := horigin.frames i f.bare hbare
  cases hj
  cases hbare.symm.trans hg
  have hparams : f.params = r.params := hdescribes.params
  have hdecl : f.decl = r.decl := hdecl
  have hspacious : Spacious layout.accesses := horigin.accesses.spacious hp
  have hnonneg := hspacious.extent_nonneg (i := i)
  have hlimit := hp _ hr
  rw [Source.Declared.Sized, ← hparams, ← hdecl, ← hextent] at hlimit
  refine ⟨?_, hnonneg, hlimit⟩
  rw [horigin.sizes i f hf]
  exact hspacious.toInt_slotTotal (by omega)

end TreeCode
