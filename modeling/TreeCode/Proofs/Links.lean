/-
# Static links

The static link of a frame is the address of another one: of the innermost frame of the
function around. So the links of a frame lead through the innermost frames of all functions
around, from the inside out, and the last of them is zero. `Linked` says so of the running
frame.

Calling a function keeps this. The caller can see the callee, so the functions around the
callee are among those around the caller and the caller itself. Following as many links as
there are functions in between leads to the frame that the new one must be linked to.
-/

import TreeCode.Proofs.Index
import TreeCode.Proofs.Layout.Origin
import TreeCode.Proofs.Lowering.Origin
import TreeCode.Proofs.Lowering.Simulation
import TreeCode.Proofs.Machine.Discipline

namespace TreeCode

open Source (Nested Node Routine Symbol)

/-- A function is declared inside some others, and the layout gives it a frame. -/
structure Assigned (p : Source.Program) (layout : Layout) (outer : List Routine) (r : Routine)
    (g : FrameRecord) : Prop where
  declared : ⟨outer, .routine r⟩ ∈ p.declares
  found : layout.frameOf? r.decl = some g

namespace Assigned

variable {p : Source.Program} {layout : Layout} {supply laid : Supply}
  {outer outer' : List Routine} {r r' : Routine} {g g' : FrameRecord}

theorem mem (h : Assigned p layout outer r g) : g ∈ layout.frames :=
  Array.mem_of_find?_eq_some h.found

/-- The functions around a function are declared. -/
theorem nested (h : Assigned p layout outer r g) : Nested p.declares (r :: outer) :=
  (p.nested _ h.declared).cons h.declared

section

variable (hbuild : Layout.build supply p = .ok (layout, laid)) (hscoped : p.WellScoped)
  (h : Assigned p layout outer r g)
include hbuild hscoped h

/-- The frame of a function records where the function is declared. -/
theorem encloses : ∃ i, layout.frames[i]? = some g ∧
      Encloses (LayoutState.bare ⟨layout, laid⟩) (r :: outer) (some i) := by
  obtain ⟨i, hi⟩ := Array.getElem?_of_mem h.mem
  have hbare : (LayoutState.bare ⟨layout, laid⟩)[i]? = some g.bare := by
    rw [LayoutState.getElem?_bare, hi, Option.map_some]
  obtain ⟨r', outer', hdeclared, hdecl, hin⟩ :=
    (Layout.originates_of_build hbuild).frames i g.bare hbare
  have hdecl : g.decl = r'.decl := hdecl
  have hid : r'.decl.id = r.decl.id := hdecl ▸ Layout.id_of_frameOf? h.found
  cases hscoped.unique hdeclared h.declared hid
  exact ⟨i, hi, hin⟩

theorem describes : g.Describes r outer := by
  obtain ⟨i, hi, j, f, hj, hf, -, hdescribes, -⟩ := h.encloses hbuild hscoped
  cases hj
  rw [LayoutState.getElem?_bare, hi] at hf
  cases hf
  exact ⟨hdescribes.decl, hdescribes.params, hdescribes.body, hdescribes.level⟩

/-- A frame belongs to one function only. -/
theorem unique (h' : Assigned p layout outer' r' g') (hlabel : g.label = g'.label) :
    outer = outer' ∧ r = r' ∧ g = g' := by
  have hdecl := Layout.frame_eq_of_label hbuild h.mem h'.mem (congrArg Label.name hlabel)
  have hid : r.decl.id = r'.decl.id := by
    rw [← Layout.id_of_frameOf? h.found, hdecl, Layout.id_of_frameOf? h'.found]
  cases hscoped.unique h.declared h'.declared hid
  exact ⟨rfl, rfl, Option.some.inj (h.found.symm.trans h'.found)⟩

end

/-- What is laid out in a frame belongs to the function of the frame. -/
theorem of_encloses (hbuild : Layout.build supply p = .ok (layout, laid)) {i : Nat}
    (hin : Encloses (LayoutState.bare ⟨layout, laid⟩) (r :: outer) (some i))
    (hdeclared : ⟨outer, .routine r⟩ ∈ p.declares) :
    ∃ g, Assigned p layout outer r g ∧ layout.frames[i]? = some g := by
  obtain ⟨j, f, hj, hf, -, hdescribes, -⟩ := hin
  cases hj
  rw [LayoutState.getElem?_bare, Option.map_eq_some_iff] at hf
  obtain ⟨g, hg, rfl⟩ := hf
  have hdecl : g.decl = r.decl := hdescribes.decl
  have hfound := find?_of_nodup (Layout.decls_nodup hbuild)
    (Array.mem_def.1 (Array.mem_of_getElem? hg))
  refine ⟨g, ⟨hdeclared, ?_⟩, hg⟩
  rw [Layout.frameOf?, ← Array.find?_toList, ← hdecl]
  exact hfound

end Assigned

/-- The innermost frame of a function among the live ones. -/
def Layout.activation? (layout : Layout) (live : List Live) (x : Symbol) : Option Live :=
  (layout.frameOf? x).bind fun g => live.find? (·.frame == g.frame)

namespace Layout

variable {layout : Layout} {live : List Live} {x : Symbol} {a : Live}

theorem activation?_eq_some (h : layout.activation? live x = some a) :
    a ∈ live ∧ ∃ g, layout.frameOf? x = some g ∧ a.frame = g.frame := by
  obtain ⟨g, hg, hfound⟩ := Option.bind_eq_some_iff.1 h
  have hframe := List.find?_some hfound
  exact ⟨List.mem_of_find?_eq_some hfound, g, hg, beq_iff_eq.1 hframe⟩

theorem activation?_cons_self {g : FrameRecord} (hg : layout.frameOf? x = some g)
    (ha : a.frame = g.frame) : layout.activation? (a :: live) x = some a := by
  rw [activation?, hg, Option.bind_some, List.find?_cons_of_pos]
  exact beq_iff_eq.2 ha

theorem activation?_cons_of_ne (h : ∀ g, layout.frameOf? x = some g → a.frame ≠ g.frame) :
    layout.activation? (a :: live) x = layout.activation? live x := by
  rw [activation?, activation?]
  cases hg : layout.frameOf? x with
  | none => rfl
  | some g =>
    rw [Option.bind_some, Option.bind_some, List.find?_cons_of_neg]
    exact fun ha => h g hg (beq_iff_eq.1 ha)

end Layout

/-- The static links from an address on lead through the innermost frames of some
functions, and then there is no further one. -/
def Reaches (layout : Layout) (m : Memory) (live : List Live) : List Routine → Word → Prop
  | [], w => w = 0
  | r :: outer, w => (∃ a, layout.activation? live r.decl = some a ∧ a.base = w) ∧
      Reaches layout m live outer (m.readWord w)

namespace Reaches

variable {layout : Layout} {m m' : Memory} {live : List Live} {inside front back : List Routine}
  {w : Word} {s : State}

/-- Only the static links of live frames matter. -/
theorem congr (h : Reaches layout m live inside w)
    (hm : ∀ a ∈ live, m'.readWord a.base = m.readWord a.base) :
    Reaches layout m' live inside w := by
  induction inside generalizing w with
  | nil => exact h
  | cons r outer ih =>
    obtain ⟨⟨a, ha, rfl⟩, houter⟩ := h
    refine ⟨⟨a, ha, rfl⟩, ?_⟩
    rw [hm a (Layout.activation?_eq_some ha).1]
    exact ih houter

/-- A frame of another function does not hide those that are reached. -/
theorem push {a : Live} (h : Reaches layout m live inside w)
    (hnew : ∀ q ∈ inside, ∀ g, layout.frameOf? q.decl = some g → a.frame ≠ g.frame) :
    Reaches layout m (a :: live) inside w := by
  induction inside generalizing w with
  | nil => exact h
  | cons r outer ih =>
    obtain ⟨⟨b, hb, hw⟩, houter⟩ := h
    refine ⟨⟨b, ?_, hw⟩, ih houter fun q hq => hnew q (List.mem_cons_of_mem _ hq)⟩
    rw [Layout.activation?_cons_of_ne (hnew r List.mem_cons_self), hb]

/-- Following some of the links goes past as many functions. -/
theorem followLinks (hload : ∀ a ∈ live, s.memory.holdsWord a.base = true)
    (h : Reaches layout s.memory live (front ++ back) w) :
    ∃ w', Exec.followLinks front.length w s = .ok w' s ∧
      Reaches layout s.memory live back w' := by
  induction front generalizing w with
  | nil => exact ⟨w, rfl, h⟩
  | cons r outer ih =>
    obtain ⟨⟨a, ha, rfl⟩, houter⟩ := h
    obtain ⟨w', hfollow, hback⟩ := ih houter
    refine ⟨w', ?_, hback⟩
    have hloaded : Exec.load a.base s = .ok (s.memory.readWord a.base) s :=
      if_pos (hload a (Layout.activation?_eq_some ha).1)
    change (Exec.load a.base >>= Exec.followLinks outer.length) s = _
    exact (Exec.bind_of_ok hloaded).trans hfollow

theorem exists_activation (h : Reaches layout m live inside w) : ∀ q ∈ inside,
    ∃ a, layout.activation? live q.decl = some a := by
  induction inside generalizing w with
  | nil => exact fun _ hq => nomatch hq
  | cons r outer ih =>
    obtain ⟨⟨a, ha, -⟩, houter⟩ := h
    intro q hq
    rcases List.mem_cons.1 hq with rfl | hq
    · exact ⟨a, ha⟩
    · exact ih houter q hq

end Reaches

section Calls

variable {p : Source.Program} {layout : Layout} {supply laid : Supply} {setup : Setup}
  {live rest : List Live} {a : Live} {s s' : State} {m m' : Memory}

/-- Functions inside each other that have live frames are no more than these. -/
theorem Reaches.length_le (hbuild : Layout.build supply p = .ok (layout, laid))
    (hscoped : p.WellScoped) {inside : List Routine} (hnested : Nested p.declares inside)
    {w : Word} (h : Reaches layout m live inside w) : inside.length ≤ live.length := by
  have hassigned : ∀ q ∈ inside, ∃ outer g, Assigned p layout outer q g ∧
      ∃ b ∈ live, b.frame = g.frame := by
    intro q hq
    obtain ⟨before, after, rfl⟩ := List.append_of_mem hq
    obtain ⟨b, hb⟩ := h.exists_activation q hq
    obtain ⟨hmem, g, hg, hframe⟩ := Layout.activation?_eq_some hb
    exact ⟨after, g, ⟨hnested q after (List.suffix_append _ _), hg⟩, b, hmem, hframe⟩
  let label (q : Routine) : Option Label := (layout.frameOf? q.decl).map (·.label)
  have hnodup : (inside.map label).Nodup := by
    refine (hscoped.nodup_of_nested hnested).map_on fun q hq q' hq' heq => ?_
    obtain ⟨_, g, hg, -⟩ := hassigned q hq
    obtain ⟨_, g', hg', -⟩ := hassigned q' hq'
    simp only [label, hg.found, hg'.found, Option.map_some, Option.some.injEq] at heq
    exact (hg.unique hbuild hscoped hg' heq).2.1
  have hsub : inside.map label ⊆ live.map fun b => some b.frame.label := by
    intro l hl
    obtain ⟨q, hq, rfl⟩ := List.mem_map.1 hl
    obtain ⟨_, g, hg, b, hb, hframe⟩ := hassigned q hq
    refine List.mem_map.2 ⟨b, hb, ?_⟩
    simp only [label, hg.found, Option.map_some, hframe, FrameRecord.frame]
  simpa using hnodup.length_le_of_subset hsub

/-- The running frame is that of a declared function with a body, and its links lead
through the innermost frames of the functions around. -/
def Linked (p : Source.Program) (layout : Layout) (m : Memory) : List Live → Prop
  | [] => True
  | a :: rest => ∃ outer r g body, Assigned p layout outer r g ∧ r.body = some body ∧
      a.frame = g.frame ∧ Reaches layout m (a :: rest) (r :: outer) a.base

theorem Linked.congr (h : Linked p layout m live)
    (hm : ∀ a ∈ live, m'.readWord a.base = m.readWord a.base) : Linked p layout m' live := by
  cases live with
  | nil => trivial
  | cons a rest =>
    obtain ⟨outer, r, g, body, hr, hbody, ha, hreaches⟩ := h
    exact ⟨outer, r, g, body, hr, hbody, ha, hreaches.congr hm⟩

/-- Whether a function with a frame may call the function at a label over a number of
links: the caller can see the callee, and the links lead to the function around it. -/
def Visits (p : Source.Program) (layout : Layout) (frame : Frame) (l : Label) (hops : Word) :
    Prop :=
  ∃ outer r g around q h, Assigned p layout outer r g ∧ frame = g.frame ∧
    Assigned p layout around q h ∧ l = h.label ∧ around <:+ r :: outer ∧
    hops = Int64.ofInt (hopCount g h)

variable {front around outer : List Routine} {q r : Routine} {h g : FrameRecord} {i : Nat}

section

variable (hbuild : Layout.build supply p = .ok (layout, laid)) (hscoped : p.WellScoped)
  (hr : Assigned p layout outer r g) (hq : Assigned p layout around q h)
include hbuild hscoped hr hq

/-- The number of links to follow is that of the functions that are left. -/
theorem hopCount_eq (hfront : front ++ around = r :: outer) : hopCount g h = front.length := by
  have hlevel := (hr.describes hbuild hscoped).level
  have hlevel' := (hq.describes hbuild hscoped).level
  have hlength := congrArg List.length hfront
  simp only [List.length_append, List.length_cons] at hlength
  simp only [hopCount]
  omega

/-- The levels of a function and of one around it differ by the number of functions in
between. -/
theorem Assigned.level_sub_frameLevel (hfront : front ++ q :: around = r :: outer)
    (hi : layout.frames[i]? = some h) : g.level - layout.frameLevel i = front.length := by
  have hlevel := (hr.describes hbuild hscoped).level
  have hlevel' := (hq.describes hbuild hscoped).level
  have hlength := congrArg List.length hfront
  simp only [List.length_append, List.length_cons] at hlength
  rw [Layout.frameLevel, hi, Option.map_some, Option.getD_some]
  omega

/-- A slot of one of the functions around the running one, or of itself, is found in the
innermost frame of that function. -/
theorem Reaches.eval_slotAddress (haround : q :: around <:+ r :: outer)
    (hi : layout.frames[i]? = some h) (hload : ∀ a ∈ live, s.memory.holdsWord a.base = true)
    (hreaches : Reaches layout s.memory live (r :: outer) s.fp) :
    ∃ b, layout.activation? live q.decl = some b ∧ ∀ run offset,
      Exec.eval setup run (slotAddress layout g i offset) s = .ok (b.base + offset) s := by
  obtain ⟨front, hfront⟩ := haround
  rw [← hfront] at hreaches
  obtain ⟨w, hfollow, ⟨b, hb, rfl⟩, -⟩ := hreaches.followLinks hload
  refine ⟨b, hb, fun run offset => ?_⟩
  rw [Exec.eval_slotAddress, slotPlace, hr.level_sub_frameLevel hbuild hscoped hq hfront hi]
  exact Exec.bind_of_ok hfollow

end

/-- The words at the start of live frames can be read. -/
theorem Stacked.holdsWord_base (hroomy : setup.Roomy) (h : Stacked setup live s) :
    ∀ b ∈ live, s.memory.holdsWord b.base = true := by
  intro b hb
  have hfits := (h.adjacent.inside.2 b hb).1
  simpa using h.holdsWord hroomy hb (hfits 0 List.mem_cons_self)

/-- A function that is called over the right number of links is linked to the innermost
frame of the function around it. -/
theorem Linked.entered (hbuild : Layout.build supply p = .ok (layout, laid))
    (hscoped : p.WellScoped) (hroomy : setup.Roomy) (hs : Stacked setup (a :: rest) s)
    (hlinked : Linked p layout s.memory (a :: rest)) {l : Label} {hops w : Word}
    (hvisits : Visits p layout a.frame l hops)
    (hfollow : Exec.followLinks hops.toInt.toNat s.fp s = .ok w s') {b : Live} {body : Node}
    (hr : Assigned p layout outer r g) (hbody : r.body = some body) (hb : b.frame = g.frame)
    (hl : b.frame.label = l) (hm : ∀ c ∈ a :: rest, m.readWord c.base = s.memory.readWord c.base)
    (hlink : m.readWord b.base = w) : Linked p layout m (b :: a :: rest) := by
  obtain ⟨outer₁, r₁, g₁, -, hr₁, -, ha₁, hreaches⟩ := hlinked
  obtain ⟨outer₂, r₂, g₂, around, q, h, hr₂, ha₂, hq, rfl, ⟨front, hfront⟩, rfl⟩ := hvisits
  -- the caller and the callee are the functions that the call was made for
  obtain ⟨rfl, rfl, rfl⟩ := hr₁.unique hbuild hscoped hr₂
    (congrArg Frame.label (ha₁.symm.trans ha₂))
  obtain ⟨rfl, rfl, rfl⟩ := hr.unique hbuild hscoped hq ((congrArg Frame.label hb).symm.trans hl)
  have hlength := hreaches.length_le hbuild hscoped hr₁.nested
  have hroom := hs.adjacent.length_le
  have hlow := Stacked.lowest_nonneg hroomy hs.adjacent
  have hsize := hroomy.size_le
  have hshort := congrArg List.length hfront
  have hhops : (Int64.ofInt (hopCount g₁ g)).toInt.toNat = front.length := by
    simp only [List.length_append, Program.maxAllocation, Word.byteSize] at *
    rw [hopCount_eq hbuild hscoped hr₁ hr hfront, Int64.toInt_ofInt_of_le (by omega) (by omega),
      Int.toNat_natCast]
  rw [← hfront] at hreaches
  obtain ⟨w', hfollow', houter⟩ := hreaches.followLinks (hs.holdsWord_base hroomy)
  have hw : w' = w := by
    have hfp : s.fp = a.base := hs.fp
    rw [hhops, hfp, hfollow'] at hfollow
    cases hfollow
    rfl
  refine ⟨outer, r, g, body, hr, hbody, hb, ⟨b, Layout.activation?_cons_self hr.found hb, rfl⟩, ?_⟩
  rw [hlink, ← hw]
  refine (houter.congr hm).push fun q' hq' g' hg' hframe => ?_
  obtain ⟨before, after, rfl⟩ := List.append_of_mem hq'
  have hassigned : Assigned p layout after q' g' :=
    ⟨hr.nested q' after ((List.suffix_append _ _).trans (List.suffix_cons _ _)), hg'⟩
  obtain ⟨-, rfl, -⟩ := hr.unique hbuild hscoped hassigned
    (congrArg Frame.label (hb.symm.trans hframe))
  exact hscoped.notMem_outer hr.nested r hq' rfl

end Calls

end TreeCode
