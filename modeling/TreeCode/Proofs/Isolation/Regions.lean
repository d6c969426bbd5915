/-
# Regions of memory

At every moment of a run, memory is divided into regions: the static data, and the parts of
the live frames. `Spans` says which bytes a region takes. Regions do not overlap, and those
that belong to variables have room for values of their types.

A `Component` is a piece of a variable with a type of its own: the variable itself, or a
field of a component. Components lie inside their regions as long as the sizes of types are
computed without wrapping around.
-/

import Mathlib.Data.List.Pairwise
import TreeCode.Proofs.Compilation
import TreeCode.Proofs.DataArea
import TreeCode.Proofs.Layout.Slots

namespace TreeCode

open IR (Chunk)
open Source (Declared Symbol)

namespace Ty

/-- Whether a value is one word and not handled by address. -/
def isWord (t : Ty) : Bool :=
  !t.isAggregate && t.size == Word.size

variable {t : Ty} {name : String}

theorem size_of_isWord (h : t.isWord = true) : t.size = Word.size := by
  rw [isWord, Bool.and_eq_true, beq_iff_eq] at h
  exact h.2

theorem ne_absent_of_isWord (h : t.isWord = true) : t ≠ absent := by
  rintro rfl
  cases h

theorem ne_absent_of_isAggregate (h : t.isAggregate = true) : t ≠ absent := by
  rintro rfl
  cases h

/-- A value that is not handled by address takes a word or nothing. -/
theorem size_of_not_isAggregate (h : t.isAggregate = false) : t.size = 0 ∨ t.size = Word.size := by
  cases t with
  | array _ _ | record _ _ => cases h
  | absent | void | ref _ => exact .inl rfl
  | _ => exact .inr rfl

mutual

/-- Whether the sizes of a type and of all types in it are not negative and computed without
wrapping around. -/
def isMeasured : Ty → Bool
  | array length elem =>
    elem.isMeasured && decide (0 ≤ length.toInt) &&
      decide ((length * elem.size).toInt = length.toInt * elem.size.toInt)
  | record _ fields => measuredFields fields
  | _ => true

/-- Whether the sizes of the fields of a record add up without wrapping around. -/
def measuredFields : List (String × Ty) → Bool
  | [] => true
  | (_, t) :: rest =>
    t.isMeasured && measuredFields rest &&
      decide ((t.size + fieldsSize rest).toInt = t.size.toInt + (fieldsSize rest).toInt)

end

theorem isMeasured_of_not_isAggregate (h : t.isAggregate = false) : t.isMeasured = true := by
  cases t with
  | array _ _ | record _ _ => cases h
  | _ => rfl

theorem word_nonneg : 0 ≤ Word.size.toInt := by
  decide

mutual

theorem size_nonneg : ∀ {t : Ty}, t.isMeasured = true → 0 ≤ t.size.toInt
  | .absent, _ | .void, _ | .ref _, _ => Int.le_refl 0
  | .integer, _ | .logical, _ | .string, _ | .pointer _, _ => word_nonneg
  | .array length elem, h => by
    simp only [isMeasured, Bool.and_eq_true, decide_eq_true_eq] at h
    obtain ⟨⟨helem, hlength⟩, hsize⟩ := h
    rw [size, hsize]
    exact Int.mul_nonneg hlength (size_nonneg helem)
  | .record _ fields, h => fieldsSize_nonneg (show measuredFields fields = true from h)

theorem fieldsSize_nonneg : ∀ {fields : List (String × Ty)}, measuredFields fields = true →
    0 ≤ (fieldsSize fields).toInt
  | [], _ => Int.le_refl 0
  | (_, t) :: rest, h => by
    simp only [measuredFields, Bool.and_eq_true, decide_eq_true_eq] at h
    obtain ⟨⟨ht, hrest⟩, hsize⟩ := h
    rw [fieldsSize, hsize]
    exact Int.add_nonneg (size_nonneg ht) (fieldsSize_nonneg hrest)

end

/-- A field lies between the offset that fields are counted from and the end of the last
field. -/
theorem fieldFrom?_inside {o : Word} :
    ∀ {fields : List (String × Ty)} {start : Word}, measuredFields fields = true →
      0 ≤ start.toInt → start.toInt + (fieldsSize fields).toInt < Word.limit →
      fieldFrom? start name fields = some (o, t) →
      t.isMeasured = true ∧ start.toInt ≤ o.toInt ∧
        o.toInt + t.size.toInt ≤ start.toInt + (fieldsSize fields).toInt
  | [], _, _, _, _, h => by cases h
  | (n, u) :: rest, start, hfields, hstart, hlimit, h => by
    simp only [measuredFields, Bool.and_eq_true, decide_eq_true_eq] at hfields
    obtain ⟨⟨hu, hrest⟩, hsize⟩ := hfields
    have hsize_u := size_nonneg hu
    have hsize_rest := fieldsSize_nonneg hrest
    rw [fieldsSize, hsize] at hlimit ⊢
    rw [fieldFrom?] at h
    split at h
    · cases h
      exact ⟨hu, Int.le_refl _, by omega⟩
    · have hnext : (start + u.size).toInt = start.toInt + u.size.toInt :=
        Word.toInt_add_of_lt (by simp only [Word.limit]; omega) (by omega)
      obtain ⟨ht, hlow, hhigh⟩ :=
        fieldFrom?_inside hrest (by omega) (by rw [hnext]; omega) h
      exact ⟨ht, by omega, by omega⟩

/-- A field of a record lies inside the record. -/
theorem field?_inside {u : Ty} {offset : Word} (ht : t.isMeasured = true)
    (h : t.field? name = some (offset, u)) : u.isMeasured = true ∧ 0 ≤ offset.toInt ∧
      offset.toInt + u.size.toInt ≤ t.size.toInt := by
  cases t with
  | record n fields =>
    have hlimit : (0 : Word).toInt + (fieldsSize fields).toInt < Word.limit := by
      have hlt := (fieldsSize fields).toInt_lt
      simp only [Word.limit, Int64.toInt_zero]
      omega
    have hstart : 0 ≤ (0 : Word).toInt := Int.le_refl 0
    obtain ⟨hu, hlow, hhigh⟩ := fieldFrom?_inside ht hstart hlimit h
    rw [Int64.toInt_zero, Int.zero_add] at hhigh
    exact ⟨hu, hlow, hhigh⟩
  | _ => cases h

end Ty

/-- What is known of a compiled program and its layout: declarations are in scope, sizes do
not wrap around, and static variables have data of their sizes, without initial bytes. -/
structure Arranged (p : Source.Program) (layout : Layout) (laid : Supply) (program : Program) :
    Prop where
  build : Layout.build .empty p = .ok (layout, laid)
  wellScoped : p.WellScoped
  sized : p.Sized
  measured : ∀ d ∈ p.declares, d.item.isPlaced = true → d.item.decl.ty.isMeasured = true
  data : program.DataInOrder
  statics : ∀ x l size, layout.access? x = some (.global l size) →
    ∃ d ∈ program.data, d.label = l ∧ d.size = size ∧ d.init = []

/-- A piece of memory that serves one purpose: a static variable or a literal, or a part of a
live frame. -/
inductive Region where
  | data (l : Label)
  | part (a : Live) (part : Part)

/-- Whether a region belongs to a variable or to a parameter that is passed by value. Other
regions are static links, saved frame pointers, parameters that hold an address, and
literals, whose data have initial bytes. -/
def Region.IsVariable (program : Program) : Region → Prop
  | .data l => ∃ d ∈ program.data, d.label = l ∧ d.init = []
  | .part _ (.var _) => True
  | .part _ (.param x) => x.ty.isAggregate = false
  | .part _ .link => False
  | .part _ .saved => False

/-- The bytes that a region takes while some frames are live. -/
inductive Region.Spans (p : Source.Program) (layout : Layout) (program : Program)
    (live : List Live) : Region → Stretch → Prop
  | data {d : DataItem} : d ∈ program.data →
      Spans p layout program live (.data d.label) ⟨d.offset.toInt, d.size.toInt⟩
  | part {a : Live} {g : FrameRecord} {part : Part} {s : Stretch} : a ∈ live →
      g ∈ layout.frames → a.frame = g.frame → part ∈ g.parts p.declares →
      part.stretch? layout g = some s →
      Spans p layout program live (.part a part) ⟨a.base.toInt + s.start, s.length⟩

/-- Of two members of a list whose members are related pairwise, one comes first. -/
theorem either_of_pairwise {α : Type} {R : α → α → Prop} {l : List α} (h : l.Pairwise R)
    {a b : α} (ha : a ∈ l) (hb : b ∈ l) (hne : a ≠ b) : R a b ∨ R b a := by
  have hsymm : Std.Symm fun a b => R a b ∨ R b a := ⟨fun _ _ => Or.symm⟩
  have hor : l.Pairwise fun a b => R a b ∨ R b a := h.imp Or.inl
  exact hor.forall ha hb hne

section Regions

variable {p : Source.Program} {layout : Layout} {laid : Supply} {setup : Setup}
  {live live' : List Live} {region region' : Region} {s s' : Stretch}

namespace Arranged

variable (h : Arranged p layout laid setup.program)

include h

variable {g : FrameRecord} {part : Part}

/-- The parts of a live frame lie inside it. -/
theorem part_inside {a : Live} (hg : g ∈ layout.frames) (hframe : a.frame = g.frame)
    (hpart : part ∈ g.parts p.declares) (hs : part.stretch? layout g = some s) :
    0 ≤ s.start ∧ 0 ≤ s.length ∧ a.base.toInt + s.stop ≤ a.top := by
  obtain ⟨i, hi⟩ := Array.getElem?_of_mem hg
  obtain ⟨t, ht, -, hstart, hlength, hstop⟩ :=
    Layout.parts_inside h.build h.wellScoped.once h.sized hi part hpart
  cases hs.symm.trans ht
  have hsize : a.frame.size = g.size := congrArg Frame.size hframe
  simp only [Live.top, hsize]
  exact ⟨hstart, hlength, by omega⟩

/-- Different parts of one frame lie apart. -/
theorem parts_apart {part' : Part} (hg : g ∈ layout.frames) (hpart : part ∈ g.parts p.declares)
    (hpart' : part' ∈ g.parts p.declares) (hne : part ≠ part')
    (hs : part.stretch? layout g = some s) (hs' : part'.stretch? layout g = some s')
    : s.Apart s' := by
  obtain ⟨i, hi⟩ := Array.getElem?_of_mem hg
  have hpairwise := Layout.parts_apart h.build h.wellScoped.once h.sized hi
  rcases either_of_pairwise hpairwise hpart hpart' hne with hapart | hapart
  · exact hapart s s' hs hs'
  · exact (hapart s' s hs' hs).symm

/-- The slot of a parameter holds an address if the parameter is an aggregate. -/
theorem isAggregate_eq {x : Symbol} {i : Nat} {offset : Word} {byRef : Bool}
    (hg : g ∈ layout.frames) (hpart : .param x ∈ g.parts p.declares)
    (haccess : layout.access? x = some (.paramSlot i offset byRef)) : x.ty.isAggregate = byRef := by
  have hx : x ∈ g.params := by
    simpa [FrameRecord.parts] using hpart
  obtain ⟨j, hj⟩ := Array.getElem?_of_mem hg
  obtain ⟨k, hk⟩ := List.getElem?_of_mem hx
  have haccess' := Layout.param_access h.build h.wellScoped.once hj hk
  rw [haccess] at haccess'
  injection haccess' with haccess'
  injection haccess' with _ _ hflag
  exact hflag.symm

end Arranged

namespace Region.Spans

/-- More live frames leave the regions of the others where they are. -/
theorem mono (h : Spans p layout setup.program live region s) (hsub : live ⊆ live') :
    Spans p layout setup.program live' region s := by
  cases h with
  | data hd => exact .data hd
  | part ha hg hframe hpart hs => exact .part (hsub ha) hg hframe hpart hs

variable (harranged : Arranged p layout laid setup.program)
  (hadj : Adjacent setup.program.dataSize setup.memorySize live)

include harranged hadj

/-- Regions lie inside the memory. -/
theorem inside (hroomy : setup.Roomy) (h : Spans p layout setup.program live region s) :
    0 ≤ s.start ∧ 0 ≤ s.length ∧ s.stop ≤ setup.memorySize.toInt := by
  have hnonneg := hroomy.data_nonneg
  have hdata := hroomy.data_le
  cases h with
  | data hd =>
    obtain ⟨hstart, hlength, hstop⟩ := harranged.data.inside _ hd
    exact ⟨hstart, hlength, Int.le_trans hstop hdata⟩
  | part ha hg hframe hpart hs =>
    obtain ⟨-, hlow, -, htop⟩ := hadj.inside.2 _ ha
    obtain ⟨hstart, hlength, hstop⟩ := harranged.part_inside hg hframe hpart hs
    simp only [Stretch.stop] at hstop ⊢
    exact ⟨by omega, hlength, by omega⟩

/-- Different regions do not overlap. -/
theorem apart (h : Spans p layout setup.program live region s)
    (h' : Spans p layout setup.program live region' s') (hne : region ≠ region') : s.Apart s' := by
  -- the data lie below the frames
  have hbelow : ∀ {d : DataItem} {a : Live} {g : FrameRecord} {part : Part} {t : Stretch},
      d ∈ setup.program.data → a ∈ live → g ∈ layout.frames → a.frame = g.frame →
      part ∈ g.parts p.declares → part.stretch? layout g = some t →
      d.offset.toInt + d.size.toInt ≤ a.base.toInt + t.start := by
    intro d a g part t hd ha hg hframe hpart ht
    have hstop := (harranged.data.inside d hd).2.2
    have hlow := (hadj.inside.2 a ha).2.1
    have hstart := (harranged.part_inside hg hframe hpart ht).1
    omega
  cases h with
  | @data d hd =>
    cases h' with
    | @data d' hd' =>
      exact either_of_pairwise harranged.data.apart hd hd' fun heq => hne (heq ▸ rfl)
    | part ha hg hframe hpart hs => exact .inl (hbelow hd ha hg hframe hpart hs)
  | @part a g part t ha hg hframe hpart hs =>
    cases h' with
    | data hd => exact .inr (hbelow hd ha hg hframe hpart hs)
    | @part b g' part' t' hb hg' hframe' hpart' hs' =>
      by_cases heq : a = b
      · subst heq
        obtain rfl := Layout.eq_of_label harranged.build hg hg'
          (congrArg (fun f : Frame => f.label.name) (hframe.symm.trans hframe'))
        have hapart := harranged.parts_apart hg hpart hpart'
          (fun heq => hne (heq ▸ rfl)) hs hs'
        simp only [Stretch.Apart, Stretch.stop] at hapart ⊢
        omega
      · have hapart := either_of_pairwise hadj.pairwise ha hb heq
        obtain ⟨hstart, -, hstop⟩ := harranged.part_inside hg hframe hpart hs
        obtain ⟨hstart', -, hstop'⟩ := harranged.part_inside hg' hframe' hpart' hs'
        simp only [Stretch.Apart, Stretch.stop] at hstop hstop' ⊢
        omega

end Region.Spans

/-- A piece of a variable, or of a parameter that is passed by value: its region, its type and
its address. -/
inductive Component (p : Source.Program) (layout : Layout) (program : Program) :
    Region → Ty → Word → Prop
  | static {x : Symbol} {l : Label} {size w : Word} : ⟨[], .var x⟩ ∈ p.declares →
      layout.access? x = some (.global l size) → program.address? l = some w →
      Component p layout program (.data l) x.ty w
  | localVar {a : Live} {x : Symbol} {i : Nat} {offset size : Word} :
      layout.access? x = some (.localSlot i offset size) →
      Component p layout program (.part a (.var x)) x.ty (a.base + offset)
  | valueParam {a : Live} {x : Symbol} {i : Nat} {offset : Word} :
      layout.access? x = some (.paramSlot i offset false) →
      Component p layout program (.part a (.param x)) x.ty (a.base + offset)
  | field {region : Region} {t u : Ty} {w offset : Word} {name : String} :
      Component p layout program region t w → t.field? name = some (offset, u) →
      Component p layout program region u (w + offset)

namespace Component

variable {t : Ty} {w : Word}

/-- A component lies inside its region, and so do its fields. -/
theorem inside (harranged : Arranged p layout laid setup.program) (hroomy : setup.Roomy)
    (hadj : Adjacent setup.program.dataSize setup.memorySize live)
    (hspans : region.Spans p layout setup.program live s)
    (h : Component p layout setup.program region t w) :
    t.isMeasured = true ∧ s.start ≤ w.toInt ∧ w.toInt + t.size.toInt ≤ s.stop := by
  have hmemory := hroomy.size_le
  obtain ⟨hstart, hlength, hstop⟩ := hspans.inside harranged hadj hroomy
  simp only [Program.maxAllocation, Stretch.stop] at hmemory hstop ⊢
  -- an address in a frame is that of integers if it is where the region starts
  have hslot : ∀ {a : Live} {offset : Word}, s.start = a.base.toInt + offset.toInt →
      (a.base + offset).toInt = s.start := by
    intro a offset heq
    rw [heq]
    apply Word.toInt_add_of_lt <;> simp only [Word.limit] <;> omega
  induction h with
  | @static x l size w hx haccess haddress =>
    cases hspans with
    | @data d hd =>
      obtain ⟨d', hd', hlabel, hsize, -⟩ := harranged.statics x d.label size haccess
      obtain rfl := List.inj_on_of_nodup_map harranged.data.labels hd' hd hlabel
      rw [Program.address?, find?_of_nodup harranged.data.labels hd] at haddress
      cases haddress
      cases Layout.placed_of_once harranged.build harranged.wellScoped.once hx haccess with
      | global => exact ⟨harranged.measured _ hx rfl, Int.le_refl _, by rw [hsize]⟩
  | @localVar a x i offset size haccess =>
    cases hspans with
    | @part _ g _ t ha hg hframe hpart ht =>
      have hx : x ∈ localsOf p.declares g.decl.id := by
        simpa [FrameRecord.parts] using hpart
      obtain ⟨r, outer, hdeclared, -⟩ := mem_localsOf hx
      obtain ⟨j, hj⟩ := Array.getElem?_of_mem hg
      obtain ⟨before, haccess', -⟩ :=
        Layout.local_access harranged.build harranged.wellScoped.once hj hx
      cases haccess.symm.trans haccess'
      simp only [Part.stretch?, haccess] at ht
      split at ht
      · cases ht
        rw [hslot rfl]
        exact ⟨harranged.measured _ hdeclared rfl, Int.le_refl _, Int.le_refl _⟩
      · cases ht
  | @valueParam a x i offset haccess =>
    cases hspans with
    | @part _ g _ t ha hg hframe hpart ht =>
      have hvalue := harranged.isAggregate_eq hg hpart haccess
      simp only [Part.stretch?, haccess] at ht
      split at ht
      · cases ht
        rw [hslot rfl]
        refine ⟨Ty.isMeasured_of_not_isAggregate hvalue, Int.le_refl _, ?_⟩
        rcases Ty.size_of_not_isAggregate hvalue with hsize | hsize <;>
          simp [hsize, Word.size, Word.byteSize]
      · cases ht
  | @field region t u w offset name _ hfield ih =>
    obtain ⟨ht, hlow, hhigh⟩ := ih hspans
    obtain ⟨hu, hoffset, hinside⟩ := Ty.field?_inside ht hfield
    have hsum : (w + offset).toInt = w.toInt + offset.toInt := by
      have hsize := Ty.size_nonneg hu
      apply Word.toInt_add_of_lt <;> simp only [Word.limit] <;> omega
    exact ⟨hu, by omega, by omega⟩

/-- Components belong to variables. -/
theorem isVariable (harranged : Arranged p layout laid setup.program)
    (hspans : region.Spans p layout setup.program live s)
    (h : Component p layout setup.program region t w) : region.IsVariable setup.program := by
  induction h with
  | @static x l size w _ haccess _ =>
    obtain ⟨d, hd, hlabel, -, hinit⟩ := harranged.statics x l size haccess
    exact ⟨d, hd, hlabel, hinit⟩
  | localVar _ => trivial
  | valueParam haccess =>
    cases hspans with
    | part _ hg _ hpart _ => exact harranged.isAggregate_eq hg hpart haccess
  | field _ _ ih => exact ih hspans

end Component

end Regions

end TreeCode
