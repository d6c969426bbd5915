/-
# The slots of a frame

A frame is made of the static link, one word for every parameter, the variables of the
function and the saved frame pointer. The variables of a function are those of every
`where` in its body, but not those of the functions defined inside it.

`FrameRecord.Tiled` says that these parts lie apart from each other inside the frame, and
that the frame is as large as its parts together. Parts are looked up in the layout by
their declarations, so a part that the layout had forgotten, or had put into another
frame, would have no stretch here.
-/

import TreeCode.Proofs.Layout.Room
import TreeCode.Sample

namespace TreeCode

open Source (Declared Node Routine Symbol)

/-- A stretch of the bytes of a frame. -/
structure Stretch where
  start : Int
  length : Int
deriving DecidableEq

namespace Stretch

/-- The first byte behind a stretch. -/
def stop (a : Stretch) : Int :=
  a.start + a.length

/-- One of two stretches ends before the other begins. -/
def Apart (a b : Stretch) : Prop :=
  a.stop ≤ b.start ∨ b.stop ≤ a.start

end Stretch

/-- A variable that is declared in a function itself. -/
def Source.Declared.local? (function : Nat) : Declared → Option Symbol
  | ⟨r :: _, .var x⟩ => if r.decl.id = function then some x else none
  | _ => none

/-- The variables of a function, those of functions inside it left out. -/
def localsOf (ds : List Declared) (function : Nat) : List Symbol :=
  ds.filterMap (·.local? function)

theorem mem_localsOf {ds : List Declared} {function : Nat} {x : Symbol}
    (hx : x ∈ localsOf ds function) :
    ∃ r outer, ⟨r :: outer, .var x⟩ ∈ ds ∧ r.decl.id = function := by
  obtain ⟨⟨_ | ⟨r, outer⟩, y | y | r'⟩, hd, hlocal⟩ := List.mem_filterMap.1 hx <;> try cases hlocal
  rw [Declared.local?] at hlocal
  split at hlocal
  next hid =>
    cases hlocal
    exact ⟨r, outer, hd, hid⟩
  next => cases hlocal

/-- What a frame is made of. -/
inductive Part where
  | link
  | param (x : Symbol)
  | var (x : Symbol)
  | saved

namespace Part

/-- The number of bytes of a part. -/
def length : Part → Int
  | var x => x.ty.size.toInt
  | _ => Word.byteSize

/-- Where a part lies in a frame, if the layout has put it there. -/
def stretch? (layout : Layout) (f : FrameRecord) : Part → Option Stretch
  | link => some ⟨0, Word.byteSize⟩
  | param x =>
    match layout.access? x with
    | some (.paramSlot frame offset _) =>
      if frame = f.id then some ⟨offset.toInt, Word.byteSize⟩ else none
    | _ => none
  | var x =>
    match layout.access? x with
    | some (.localSlot frame offset size) =>
      if frame = f.id then some ⟨offset.toInt, size.toInt⟩ else none
    | _ => none
  | saved => some ⟨f.linkOffset.toInt, Word.byteSize⟩

end Part

namespace FrameRecord

/-- The parts of the frame of a function. -/
def parts (f : FrameRecord) (ds : List Declared) : List Part :=
  .link :: .saved :: (f.params.map .param ++ (localsOf ds f.decl.id).map .var)

/-- The parts of a frame lie apart from each other inside it, and fill it. -/
structure Tiled (f : FrameRecord) (layout : Layout) (ds : List Declared) : Prop where
  inside : ∀ part ∈ f.parts ds, ∃ a, part.stretch? layout f = some a ∧
    a.length = part.length ∧ 0 ≤ a.start ∧ 0 ≤ a.length ∧ a.stop ≤ f.size.toInt
  apart : (f.parts ds).Pairwise fun part part' => ∀ a b, part.stretch? layout f = some a →
    part'.stretch? layout f = some b → a.Apart b
  /-- The parameters take the words behind the static link, in their order. -/
  params : ∀ k x, f.params[k]? = some x → (Part.param x).stretch? layout f =
    some ⟨((Word.byteSize * (k + 1) : Nat) : Int), Word.byteSize⟩
  /-- The static link, the parameters, the variables and the saved frame pointer take all
  bytes there are. -/
  filled : f.size.toInt = Word.byteSize + Word.byteSize * f.params.length +
    ((localsOf ds f.decl.id).map (·.ty.size.toInt)).sum + Word.byteSize

end FrameRecord

theorem localTotal_eq (ds : List Declared) (function : Nat) :
    localTotal ds function = ((localsOf ds function).map (·.ty.size.toInt)).sum := by
  induction ds with
  | nil => rfl
  | cons d ds ih =>
    rw [localTotal_cons, ih, localsOf, localsOf, List.filterMap_cons]
    obtain ⟨_ | ⟨r, outer⟩, x | x | r'⟩ := d
    case cons.var =>
      by_cases hr : r.decl.id = function <;>
        simp [Declared.sizeIn, Declared.local?, hr]
    all_goals simp [Declared.sizeIn, Declared.local?]

/-- The definitions whose functions have their frames before some ground is laid out. -/
def Ground.listed : Ground → List Node
  | .definitions _ defs => defs
  | _ => []

namespace Lays

variable {g : Ground} {s s' : LayoutState}

/-- Places are added in front of those there are. -/
theorem accesses_suffix (h : Lays g s s') : s.layout.accesses <:+ s'.layout.accesses :=
  h.preserves (P := fun t => s.layout.accesses <:+ t.layout.accesses)
    (fun _ ht => ht.trans (List.suffix_append _ _)) (fun ht => ht.trans (List.suffix_cons _ _))
    (fun _ ht => ht.trans (List.suffix_cons _ _)) (fun ht => ht.trans (List.suffix_cons _ _))
    (fun ht => ht) (List.suffix_refl _)

variable {outer inner : List Routine} {x : Symbol}

/-- Every variable is given a place. -/
theorem var_mem (h : Lays g s s') (hx : ⟨inner, .var x⟩ ∈ g.added outer)
    : ∃ a, (x.id, a) ∈ s'.layout.accesses := by
  have hheader : ∀ {r : Routine} {around : List Routine},
      ⟨inner, .var x⟩ ∉ Routine.header r around := by
    intro r around hmem
    rcases List.mem_cons.1 hmem with heq | hmem
    · cases heq
    · obtain ⟨y, -, heq⟩ := List.mem_map.1 hmem
      cases heq
  induction h generalizing outer with
  | noHeader | header _ _ _ | noFunction _ _ _ | noDefinition | noNode => cases hx
  | static hrest ih | stacked _ _ hrest ih | stray _ hrest ih =>
    rcases List.mem_cons.1 hx with heq | hx
    · cases heq
      exact ⟨_, hrest.accesses_suffix.subset List.mem_cons_self⟩
    · exact ih hx
  | external _ ih =>
    rcases List.mem_append.1 hx with hx | hx
    · exact absurd hx hheader
    · exact ih hx
  | function _ hrest ihb ih =>
    rcases List.mem_append.1 hx with hx | hx
    · exact absurd hx hheader
    rcases List.mem_append.1 hx with hx | hx
    · obtain ⟨a, ha⟩ := ihb hx
      exact ⟨a, hrest.accesses_suffix.subset ha⟩
    · exact ih hx
  | type _ ih => exact ih hx
  | within _ _ hbody _ ihd ihb | nodes _ hbody ihd ihb =>
    rcases List.mem_append.1 hx with hx | hx
    · obtain ⟨a, ha⟩ := ihd hx
      exact ⟨a, hbody.accesses_suffix.subset ha⟩
    · exact ihb hx
  | inner hn _ ih =>
    refine ih (?_ : _ ∈ Node.declaresAll _ outer)
    rwa [← Node.declares_eq hn]

theorem header_mem {current : Option Nat} {defs : List Node} (h : Lays (.headers current defs) s s')
    {params : List Symbol} {body : Option Node} (hx : .funDecl x params body ∈ defs)
    : ∃ f ∈ s'.bare, f.decl = x := by
  induction defs generalizing s with
  | nil => cases hx
  | cons n ns ih =>
    cases h with
    | header _ hrest =>
      cases hx with
      | head =>
        refine ⟨s.record current x params body, hrest.bare_prefix.subset ?_, rfl⟩
        rw [LayoutState.bare_withFrame]
        exact List.mem_append_right _ (List.mem_singleton.2 rfl)
      | tail _ hx => exact ih hrest hx
    | noFunction hn hrest =>
      cases hx with
      | head => cases hn
      | tail _ hx => exact ih hrest hx

/-- Every function that is declared on some ground has its frame afterwards. -/
theorem frame_mem (h : Lays g s s') {r : Routine}
    (hframed : ∀ x params body, .funDecl x params body ∈ g.listed → ∃ f ∈ s.bare, f.decl = x)
    (hr : ⟨inner, .routine r⟩ ∈ g.added outer) : ∃ f ∈ s'.bare, f.decl = r.decl := by
  have hlater : ∀ {t t' : LayoutState} {x : Symbol}, t.bare <+: t'.bare →
      (∃ f ∈ t.bare, f.decl = x) → ∃ f ∈ t'.bare, f.decl = x := by
    rintro t t' x hgrown ⟨f, hf, hdecl⟩
    exact ⟨f, hgrown.subset hf, hdecl⟩
  have hself : ∀ {q : Routine} {around : List Routine}, ⟨inner, .routine r⟩ ∈ q.header around →
      r = q := by
    intro q around hmem
    rcases List.mem_cons.1 hmem with heq | hmem
    · cases heq
      rfl
    · obtain ⟨y, -, heq⟩ := List.mem_map.1 hmem
      cases heq
  induction h generalizing outer with
  | noHeader | header _ _ _ | noFunction _ _ _ | noDefinition | noNode => cases hr
  | static _ ih | stray _ _ ih =>
    rcases List.mem_cons.1 hr with heq | hr
    · cases heq
    · exact ih (fun x params body hx => hframed x params body (List.mem_cons_of_mem _ hx)) hr
  | stacked hf _ _ ih =>
    rcases List.mem_cons.1 hr with heq | hr
    · cases heq
    · refine ih (fun x params body hx => ?_) hr
      rw [LayoutState.bare_withLocal hf]
      exact hframed x params body (List.mem_cons_of_mem _ hx)
  | external hrest ih =>
    rcases List.mem_append.1 hr with hr | hr
    · obtain rfl := hself hr
      refine hlater hrest.bare_prefix ?_
      rw [LayoutState.bare_withSealed]
      exact hframed _ _ _ List.mem_cons_self
    · refine ih (fun x params body hx => ?_) hr
      rw [LayoutState.bare_withSealed]
      exact hframed x params body (List.mem_cons_of_mem _ hx)
  | function hbody hrest ihb ih =>
    have hgrown := hrest.bare_prefix
    rw [LayoutState.bare_withSealed] at hgrown
    rcases List.mem_append.1 hr with hr | hr
    · obtain rfl := hself hr
      exact hlater (hbody.bare_prefix.trans hgrown) (hframed _ _ _ List.mem_cons_self)
    rcases List.mem_append.1 hr with hr | hr
    · exact hlater hgrown (ihb (fun _ _ _ hx => absurd hx List.not_mem_nil) hr)
    · refine ih (fun x params body hx => ?_) hr
      rw [LayoutState.bare_withSealed]
      exact hlater hbody.bare_prefix (hframed x params body (List.mem_cons_of_mem _ hx))
  | type _ ih =>
    exact ih (fun x params body hx => hframed x params body (List.mem_cons_of_mem _ hx)) hr
  | within hheaders _ hbody _ ihd ihb =>
    rcases List.mem_append.1 hr with hr | hr
    · exact hlater hbody.bare_prefix (ihd (fun x params body hx => hheaders.header_mem hx) hr)
    · exact ihb (fun _ _ _ hx => absurd hx List.not_mem_nil) hr
  | inner hn _ ih =>
    refine ih (fun _ _ _ hx => absurd hx List.not_mem_nil) (?_ : _ ∈ Node.declaresAll _ outer)
    rwa [← Node.declares_eq hn]
  | nodes _ hns ihn ihns =>
    rcases List.mem_append.1 hr with hr | hr
    · exact hlater hns.bare_prefix (ihn (fun _ _ _ hx => absurd hx List.not_mem_nil) hr)
    · exact ihns (fun _ _ _ hx => absurd hx List.not_mem_nil) hr

/-- The parameters of all frames have places. -/
def ParamsPlaced (s : LayoutState) : Prop :=
  ∀ f ∈ s.bare, ∀ x ∈ f.params, ∃ a, (x.id, a) ∈ s.layout.accesses

theorem mem_paramAccesses (frame : Nat) : ∀ (index : Nat) {params : List Symbol},
    x ∈ params → ∃ a, (x.id, a) ∈ LayoutState.paramAccesses frame index params
  | index, y :: rest, hx => by
    rw [LayoutState.paramAccesses]
    rcases List.mem_cons.1 hx with rfl | hx
    · exact ⟨_, List.mem_append_right _ List.mem_cons_self⟩
    · obtain ⟨a, ha⟩ := mem_paramAccesses frame (index + 1) hx
      exact ⟨a, List.mem_append_left _ ha⟩

theorem paramsPlaced (h : Lays g s s') (hs : ParamsPlaced s) : ParamsPlaced s' := by
  have hlater : ∀ {t t' : LayoutState}, t'.bare = t.bare →
      t.layout.accesses ⊆ t'.layout.accesses → ParamsPlaced t → ParamsPlaced t' := by
    intro t t' hbare hsub ht f hf x hx
    obtain ⟨a, ha⟩ := ht f (hbare ▸ hf) x hx
    exact ⟨a, hsub ha⟩
  refine h.preserves (P := ParamsPlaced) (fun {t current y params body} _ ht f hf x hx => ?_)
    (hlater rfl (List.subset_cons_self _ _))
    (fun hf => hlater (LayoutState.bare_withLocal hf _) (List.subset_cons_self _ _))
    (hlater rfl (List.subset_cons_self _ _))
    (hlater (LayoutState.bare_withSealed _ _) (List.Subset.refl _)) hs
  rw [LayoutState.bare_withFrame, List.mem_append, List.mem_singleton] at hf
  rcases hf with hf | rfl
  · obtain ⟨a, ha⟩ := ht f hf x hx
    exact ⟨a, List.mem_append_right _ ha⟩
  · obtain ⟨a, ha⟩ := mem_paramAccesses t.layout.frames.size 0 hx
    exact ⟨a, List.mem_append_left _ ha⟩

end Lays

namespace Layout

variable {supply laid : Supply} {p : Source.Program} {layout : Layout} {i : Nat} {f : FrameRecord}

variable {outer : List Routine} {x : Symbol} {k : Nat}

theorem exists_access {a : Access} (h : (x.id, a) ∈ layout.accesses) :
    ∃ b, layout.access? x = some b := by
  cases hx : layout.access? x with
  | some b => exact ⟨b, rfl⟩
  | none =>
    have hnone := List.lookup_eq_none_iff.1 hx (x.id, a) h
    simp at hnone

section

variable (hbuild : Layout.build supply p = .ok (layout, laid))
include hbuild

/-- A frame belongs to a declared function, and to no other. -/
theorem routine_of_frame (hf : layout.frames[i]? = some f) : f.id = i ∧
      (∃ r outer, ⟨outer, .routine r⟩ ∈ p.declares ∧ f.decl = r.decl ∧ f.params = r.params) ∧
      ∀ q around j, Encloses (LayoutState.bare ⟨layout, laid⟩) (q :: around) (some j) →
        (q.decl.id = f.decl.id ↔ j = i) ∧ (j = i → f.params = q.params) := by
  have horigin := originates_of_build hbuild
  have hbare : (LayoutState.bare ⟨layout, laid⟩)[i]? = some f.bare := by
    rw [LayoutState.getElem?_bare, hf, Option.map_some]
  obtain ⟨r, outer, hr, -, j, g, hj, hg, hid, hdescribes, -⟩ := horigin.frames i f.bare hbare
  cases hj
  cases hbare.symm.trans hg
  refine ⟨hid, ⟨r, outer, hr, hdescribes.decl, hdescribes.params⟩, fun q around j hin => ?_⟩
  obtain ⟨j', g', hj', hg', -, hdescribes', -⟩ := hin
  cases hj'
  refine ⟨⟨fun hq => ?_, ?_⟩, ?_⟩
  · -- frames are told apart by the functions that they belong to
    have hlt : j < ((LayoutState.bare ⟨layout, laid⟩).map (·.decl.id)).length := by
      rw [List.length_map]
      exact (List.getElem?_eq_some_iff.1 hg').1
    refine (List.getElem?_inj hlt horigin.distinct).1 ?_
    rw [List.getElem?_map, List.getElem?_map, hg', hbare, Option.map_some, Option.map_some,
      hdescribes'.decl, hq]
    rfl
  · rintro rfl
    cases hbare.symm.trans hg'
    exact congrArg Symbol.id hdescribes'.decl.symm
  · rintro rfl
    cases hbare.symm.trans hg'
    exact hdescribes'.params

/-- A declared variable has a place. -/
theorem access?_of_declared (hx : ⟨outer, .var x⟩ ∈ p.declares) :
    ∃ a, layout.access? x = some a := by
  obtain ⟨s, -, hdefs⟩ := Lays.of_build hbuild
  have hadded : ⟨outer, .var x⟩ ∈ Ground.added [] (.definitions none p.defs) := hx
  obtain ⟨a, ha⟩ := hdefs.var_mem hadded
  exact exists_access ha

/-- A declared function has a frame. -/
theorem frameOf?_of_declared {r : Routine} (hr : ⟨outer, .routine r⟩ ∈ p.declares) :
    ∃ g, layout.frameOf? r.decl = some g ∧ g.decl = r.decl := by
  obtain ⟨s, hheaders, hdefs⟩ := Lays.of_build hbuild
  have hadded : ⟨outer, .routine r⟩ ∈ Ground.added [] (.definitions none p.defs) := hr
  obtain ⟨f, hf, hdecl⟩ := hdefs.frame_mem (fun _ _ _ hx => hheaders.header_mem hx) hadded
  obtain ⟨g, hg, rfl⟩ := exists_frameOf? hbuild hf
  exact ⟨g, hdecl ▸ hg, hdecl⟩

/-- A variable on top level has a static place of its size. -/
theorem access?_of_static (honce : (p.declares.map (·.item.decl.id)).Nodup)
    (hx : ⟨[], .var x⟩ ∈ p.declares) : ∃ l, layout.access? x = some (.global l x.ty.size) := by
  obtain ⟨b, hb⟩ := access?_of_declared hbuild hx
  cases placed_of_once hbuild honce hx hb with
  | @global _ l => exact ⟨l, hb⟩

/-- A variable of a function lies behind those that were given a place in its frame before
it. -/
theorem local_access (honce : (p.declares.map (·.item.decl.id)).Nodup)
    (hf : layout.frames[i]? = some f) (hx : x ∈ localsOf p.declares f.decl.id) :
    ∃ before, layout.access? x =
        some (.localSlot i (f.localBase + slotTotal i before) x.ty.size) ∧
      (x.id, .localSlot i (f.localBase + slotTotal i before) x.ty.size) :: before <:+
        layout.accesses := by
  obtain ⟨r, outer, hd, hid⟩ := mem_localsOf hx
  obtain ⟨b, hb⟩ := access?_of_declared hbuild hd
  cases placed_of_once hbuild honce hd hb with
  | @localSlot _ _ _ j before hin hsuffix =>
    obtain ⟨-, -, hframe⟩ := routine_of_frame hbuild hf
    obtain rfl := (hframe r outer j hin).1.1 hid
    have hbase : f.localBase = r.localBase := by
      rw [FrameRecord.localBase, (hframe r outer j hin).2 rfl, Routine.localBase]
    exact ⟨before, hbase ▸ hb, hbase ▸ hsuffix⟩

/-- The parameters of a function have the words of its frame behind the static link. -/
theorem param_access (honce : (p.declares.map (·.item.decl.id)).Nodup)
    (hf : layout.frames[i]? = some f) (hx : f.params[k]? = some x) :
    layout.access? x = some (.paramSlot i (FrameRecord.paramOffset k) x.ty.isAggregate) := by
  obtain ⟨s, hheaders, hdefs⟩ := Lays.of_build hbuild
  have hparams := hdefs.paramsPlaced (hheaders.paramsPlaced fun _ hf => absurd hf List.not_mem_nil)
  obtain ⟨a, ha⟩ := hparams f.bare
    (List.mem_map.2 ⟨f, Array.mem_def.1 (Array.mem_of_getElem? hf), rfl⟩) x
    (List.mem_of_getElem? hx)
  obtain ⟨b, hb⟩ : ∃ b, layout.access? x = some b := exists_access ha
  obtain ⟨-, ⟨r, outer, hr, hdecl, hsame⟩, hframe⟩ := routine_of_frame hbuild hf
  rw [hsame] at hx
  have hheader := Source.Program.header_sublist hr
  have hd : ⟨r :: outer, .param x⟩ ∈ p.declares :=
    hheader.subset (List.mem_cons_of_mem _ (List.mem_map.2 ⟨x, List.mem_of_getElem? hx, rfl⟩))
  cases placed_of_once hbuild honce hd hb with
  | @paramSlot _ _ _ j k' hin hk' =>
    obtain rfl := (hframe r outer j hin).1.1 (hdecl ▸ rfl)
    -- a parameter is listed once, so it has one number
    have hnodup : r.params.Nodup := by
      have hids := (hheader.map (·.item.decl.id)).nodup honce
      rw [Routine.header, List.map_cons, List.map_map] at hids
      exact (List.nodup_cons.1 hids).2.of_map
    have hlt : k' < r.params.length := (List.getElem?_eq_some_iff.1 hk').1
    rw [(List.getElem?_inj hlt hnodup).1 (hk'.trans hx.symm)] at hb
    exact hb

end

/-- The variables of a function are all different. -/
theorem locals_distinct (honce : (p.declares.map (·.item.decl.id)).Nodup) (function : Nat) :
    (localsOf p.declares function).Pairwise fun x y => x.id ≠ y.id := by
  have hid : ∀ {d : Declared} {x : Symbol}, d.local? function = some x →
      d.item.decl.id = x.id := by
    rintro ⟨_ | ⟨r, outer⟩, y | y | r'⟩ x hx <;> try cases hx
    rw [Declared.local?] at hx
    split at hx
    · cases hx
      rfl
    · cases hx
  rw [localsOf, List.pairwise_filterMap]
  refine (List.pairwise_map.1 honce).imp fun hne x hx y hy => ?_
  rw [← hid hx, ← hid hy]
  exact hne

variable (hbuild : Layout.build supply p = .ok (layout, laid))
  (honce : (p.declares.map (·.item.decl.id)).Nodup) (hsized : p.Sized)
  (hf : layout.frames[i]? = some f)

include hbuild honce hsized hf

theorem param_stretch (hx : f.params[k]? = some x) :
    (Part.param x).stretch? layout f =
      some ⟨((Word.byteSize * (k + 1) : Nat) : Int), Word.byteSize⟩ := by
  have hmeasures := measures_of_build hbuild hsized hf
  rw [Part.stretch?, param_access hbuild honce hf hx]
  simp only [(routine_of_frame hbuild hf).1, if_true]
  rw [hmeasures.toInt_paramOffset (List.getElem?_eq_some_iff.1 hx).1]

/-- A variable lies behind the parameters and the variables placed before it, and in front
of those placed after it. -/
theorem local_stretch (hx : x ∈ localsOf p.declares f.decl.id) :
    ∃ entry before, (Part.var x).stretch? layout f =
        some ⟨(Word.byteSize * (f.params.length + 1) : Nat) + slotExtent i before,
          x.ty.size.toInt⟩ ∧
      entry.1 = x.id ∧ entry :: before <:+ layout.accesses ∧ 0 ≤ slotExtent i before ∧
      0 ≤ x.ty.size.toInt ∧
      slotExtent i (entry :: before) = slotExtent i before + x.ty.size.toInt ∧
      slotExtent i (entry :: before) ≤ slotExtent i layout.accesses := by
  have hmeasures := measures_of_build hbuild hsized hf
  have hspacious := (originates_of_build hbuild).accesses.spacious hsized
  obtain ⟨before, haccess, hsuffix⟩ := local_access hbuild honce hf hx
  obtain ⟨after, hafter⟩ := hsuffix
  have hle := (hafter ▸ hspacious).extent_le (i := i)
  rw [hafter] at hle
  have hlater : Spacious _ := fun entry hentry =>
    hspacious entry (hafter ▸ List.mem_append_right after hentry)
  have hbefore : Spacious before := fun entry hentry =>
    hlater entry (List.mem_cons_of_mem _ hentry)
  have hextent := hbefore.extent_nonneg (i := i)
  have hsize := hlater _ List.mem_cons_self i
  have hcons := slotExtent_cons i
    (x.id, .localSlot i (f.localBase + slotTotal i before) x.ty.size) before
  simp only [Access.sizeIn, if_true] at hsize hcons
  have hlimit := hmeasures.limit
  simp only [Word.byteSize, Word.limit] at hlimit
  have htotal := hbefore.toInt_slotTotal (i := i) (by simp only [Word.limit]; omega)
  have hbase := hmeasures.toInt_localBase
  simp only [Word.byteSize] at hbase
  have hoffset : (f.localBase + slotTotal i before).toInt =
      f.localBase.toInt + (slotTotal i before).toInt :=
    Word.toInt_add_of_lt (by simp only [Word.limit]; omega) (by simp only [Word.limit]; omega)
  refine ⟨_, before, ?_, rfl, ⟨after, hafter⟩, hextent, hsize, by omega, hle⟩
  rw [Part.stretch?, haccess]
  simp only [(routine_of_frame hbuild hf).1, if_true]
  rw [hoffset, htotal, hmeasures.toInt_localBase]

theorem locals_apart {y : Symbol} (hx : x ∈ localsOf p.declares f.decl.id)
    (hy : y ∈ localsOf p.declares f.decl.id) (hne : x.id ≠ y.id) {a b : Stretch}
    (ha : (Part.var x).stretch? layout f = some a) (hb : (Part.var y).stretch? layout f = some b)
    : a.Apart b := by
  have hspacious := (originates_of_build hbuild).accesses.spacious hsized
  -- of two places of a frame, one was there when the other was taken
  have hearlier : ∀ {e e' : Nat × Access} {l l' : List (Nat × Access)}, e.1 ≠ e'.1 →
      e :: l <:+ e' :: l' → e' :: l' <:+ layout.accesses →
      slotExtent i (e :: l) ≤ slotExtent i l' := by
    intro e e' l l' hid hsuffix hall
    rcases List.suffix_cons_iff.1 hsuffix with heq | ⟨between, hbetween⟩
    · exact absurd (congrArg Prod.fst (List.cons.inj heq).1) hid
    · rw [← hbetween]
      refine Spacious.extent_le fun entry hentry => ?_
      exact hspacious entry (hall.subset (List.mem_cons_of_mem _ (hbetween ▸ hentry)))
  obtain ⟨e, l, hx, he, hsuffix, -, -, hextent, -⟩ :=
    local_stretch hbuild honce hsized hf hx
  obtain ⟨e', l', hy, he', hsuffix', -, -, hextent', -⟩ :=
    local_stretch hbuild honce hsized hf hy
  cases hx.symm.trans ha
  cases hy.symm.trans hb
  have hids : e.1 ≠ e'.1 := by rwa [he, he']
  rcases List.suffix_or_suffix_of_suffix hsuffix hsuffix' with h | h
  · refine .inl ?_
    have hle := hearlier hids h hsuffix'
    simp only [Stretch.stop]
    omega
  · refine .inr ?_
    have hle := hearlier hids.symm h hsuffix
    simp only [Stretch.stop]
    omega

/-- The parts of a frame lie inside it: parameters behind the static link, variables behind
the parameters, and the saved frame pointer behind the variables. -/
theorem parts_inside : ∀ part ∈ f.parts p.declares, ∃ a, part.stretch? layout f = some a ∧
    a.length = part.length ∧ 0 ≤ a.start ∧ 0 ≤ a.length ∧ a.stop ≤ f.size.toInt := by
  have hmeasures := measures_of_build hbuild hsized hf
  have hlink := hmeasures.toInt_linkOffset
  have hsize := hmeasures.toInt_size
  have hnonneg := hmeasures.nonneg
  simp only [FrameRecord.parts, List.mem_cons, List.mem_append, List.mem_map]
  rintro part (rfl | rfl | ⟨x, hx, rfl⟩ | ⟨x, hx, rfl⟩)
  · refine ⟨_, rfl, rfl, ?_⟩
    simp only [Stretch.stop, Word.byteSize] at *
    omega
  · refine ⟨_, rfl, rfl, ?_⟩
    simp only [Stretch.stop, Word.byteSize] at *
    omega
  · obtain ⟨k, hk⟩ := List.getElem?_of_mem hx
    have hlt := (List.getElem?_eq_some_iff.1 hk).1
    refine ⟨_, param_stretch hbuild honce hsized hf hk, rfl, ?_⟩
    simp only [Stretch.stop, Word.byteSize] at *
    omega
  · obtain ⟨e, l, hstretch, -, -, hstart, hlength, hextent, htotal⟩ :=
      local_stretch hbuild honce hsized hf hx
    refine ⟨_, hstretch, rfl, ?_⟩
    simp only [Stretch.stop, Word.byteSize] at *
    omega

/-- The parts of a frame do not overlap. -/
theorem parts_apart : (f.parts p.declares).Pairwise fun part part' => ∀ a b,
    part.stretch? layout f = some a → part'.stretch? layout f = some b → a.Apart b := by
  have hmeasures := measures_of_build hbuild hsized hf
  have hlink := hmeasures.toInt_linkOffset
  have hnonneg := hmeasures.nonneg
  have hparam : ∀ {k x a}, f.params[k]? = some x → (Part.param x).stretch? layout f = some a →
      k < f.params.length ∧ a.start = Word.byteSize * (k + 1) ∧ a.length = Word.byteSize := by
    intro k x a hx ha
    cases (param_stretch hbuild honce hsized hf hx).symm.trans ha
    exact ⟨(List.getElem?_eq_some_iff.1 hx).1, by simp [Word.byteSize], rfl⟩
  have hlocal : ∀ {x a}, x ∈ localsOf p.declares f.decl.id →
      (Part.var x).stretch? layout f = some a →
      Word.byteSize * (f.params.length + 1) ≤ a.start ∧ a.stop ≤ f.linkOffset.toInt := by
    intro x a hx ha
    obtain ⟨e, l, hstretch, -, -, hstart, hlength, hextent, htotal⟩ :=
      local_stretch hbuild honce hsized hf hx
    cases hstretch.symm.trans ha
    simp only [Stretch.stop, Word.byteSize] at *
    omega
  simp only [FrameRecord.parts, List.pairwise_cons, List.mem_cons, List.mem_append, List.mem_map,
    List.pairwise_append]
  refine ⟨?_, ?_, ?_, ?_, ?_⟩
  · rintro part (rfl | ⟨x, hx, rfl⟩ | ⟨x, hx, rfl⟩) a b ⟨⟩ hb
    · cases hb
      refine .inl ?_
      simp only [Stretch.stop, Word.byteSize] at *
      omega
    · obtain ⟨k, hk⟩ := List.getElem?_of_mem hx
      obtain ⟨-, hstart, -⟩ := hparam hk hb
      refine .inl ?_
      simp only [Stretch.stop, Word.byteSize] at *
      omega
    · obtain ⟨hstart, -⟩ := hlocal hx hb
      refine .inl ?_
      simp only [Stretch.stop, Word.byteSize] at *
      omega
  · rintro part (⟨x, hx, rfl⟩ | ⟨x, hx, rfl⟩) a b ⟨⟩ hb
    · obtain ⟨k, hk⟩ := List.getElem?_of_mem hx
      obtain ⟨hlt, hstart, hlength⟩ := hparam hk hb
      refine .inr ?_
      simp only [Stretch.stop, Word.byteSize] at *
      omega
    · exact .inr (hlocal hx hb).2
  · rw [List.pairwise_map, List.pairwise_iff_getElem]
    intro j k hj hk hlt a b ha hb
    obtain ⟨-, hstart, hlength⟩ := hparam (List.getElem?_eq_getElem hj) ha
    obtain ⟨-, hstart', -⟩ := hparam (List.getElem?_eq_getElem hk) hb
    refine .inl ?_
    simp only [Stretch.stop, Word.byteSize] at *
    omega
  · rw [List.pairwise_map]
    refine (locals_distinct honce f.decl.id).imp_of_mem fun hx hy hne a b ha hb => ?_
    exact locals_apart hbuild honce hsized hf hx hy hne ha hb
  · rintro _ ⟨x, hx, rfl⟩ _ ⟨y, hy, rfl⟩ a b ha hb
    obtain ⟨k, hk⟩ := List.getElem?_of_mem hx
    obtain ⟨hlt, hstart, hlength⟩ := hparam hk ha
    obtain ⟨hstart', -⟩ := hlocal hy hb
    refine .inl ?_
    simp only [Stretch.stop, Word.byteSize] at *
    omega

omit honce in
theorem size_eq_sum : f.size.toInt = Word.byteSize + Word.byteSize * f.params.length +
    ((localsOf p.declares f.decl.id).map (·.ty.size.toInt)).sum + Word.byteSize := by
  have hmeasures := measures_of_build hbuild hsized hf
  have hlink := hmeasures.toInt_linkOffset
  have hsize := hmeasures.toInt_size
  have hextended := extended_of_build hbuild
  have hextent : slotExtent i layout.accesses = localTotal p.declares f.decl.id := by
    rw [hextended.extent _ (List.prefix_refl _) hextended.originates.distinct i f.bare
      (by rw [LayoutState.getElem?_bare, hf, Option.map_some])]
    exact Int.zero_add _
  rw [← localTotal_eq, ← hextent]
  simp only [Word.byteSize] at *
  omega

omit hbuild honce hsized hf

/-- Frames are tiled. If every declaration is listed once, the sizes of variables are not
negative and the frames are smaller than the largest word, then the static link, the
parameters, the variables and the saved frame pointer lie apart from each other in every
frame, and the frame is as large as they are together. -/
theorem frames_tiled (hbuild : Layout.build supply p = .ok (layout, laid))
    (honce : (p.declares.map (·.item.decl.id)).Nodup) (hsized : p.Sized)
    (hf : layout.frames[i]? = some f) : f.Tiled layout p.declares where
  inside := parts_inside hbuild honce hsized hf
  apart := parts_apart hbuild honce hsized hf
  params _ _ := param_stretch hbuild honce hsized hf
  filled := size_eq_sum hbuild hsized hf

end Layout

/-- A function with variables in two scopes, one of them inside an assignment, and between
them a function that has a variable of its own. -/
def Sample.chest : Source.Program :=
  let f := integer 2 "f"
  let a := integer 3 "a"
  let b : Symbol := ⟨4, "b", .array 2 .integer⟩
  let x : Symbol := ⟨5, "x", .array 3 .integer⟩
  let y := integer 6 "y"
  let g := integer 7 "g"
  let z := integer 8 "z"
  ofDefs [
    function f [a, b]
      (.within
        (assign (.ident y)
          (.within (.ident a)
            [function g [] (.within (.ident z) [.varDecl z]), .varDecl x]))
        [.varDecl y]),
    entry (.number 0)]

/-- The frame of the function holds both of its variables and not that of the function
inside it. -/
theorem Sample.chest_tiled :
    ∃ layout laid f, Layout.build .empty chest = .ok (layout, laid) ∧
      (chest.declares.map (·.item.decl.id)).Nodup ∧ chest.Sized ∧ layout.frames[0]? = some f ∧
      f.size = 64 ∧ (localsOf chest.declares f.decl.id).map (·.name) = ["y", "x"] ∧
      f.Tiled layout chest.declares := by
  have honce : (chest.declares.map (·.item.decl.id)).Nodup := by decide +kernel
  have hsized : chest.Sized := by decide +kernel
  have hframe : ((Layout.build .empty chest).toOption.bind fun l =>
      (l.1.frames[0]?).map fun f => decide (f.size = 64 ∧
        (localsOf chest.declares f.decl.id).map (·.name) = ["y", "x"])) = some true := by
    decide +kernel
  obtain ⟨⟨layout, laid⟩, hbuild, hframe⟩ := Outcome.of_toOption_bind hframe
  obtain ⟨f, hf, hframe⟩ := Option.map_eq_some_iff.1 hframe
  obtain ⟨hsize, hlocals⟩ := of_decide_eq_true hframe
  exact ⟨layout, laid, f, hbuild, honce, hsized, hf, hsize, hlocals,
    Layout.frames_tiled hbuild honce hsized hf⟩

end TreeCode
