/-
# The frames of a layout

Of the frames that a layout has given out, later steps change the size only; everything
else about them is fixed when they are declared. `LayoutState.bare` is what is fixed, and
the steps of laying out either keep it or add one frame to it.

Every frame has a label of its own, and the name of the label tells functions on top level
from those inside others.
-/

import TreeCode.Proofs.Layout.Derivation
import TreeCode.Proofs.Supply

namespace TreeCode

open Source (Node Symbol)

/-- A frame without what may still change. -/
def FrameRecord.bare (f : FrameRecord) : FrameRecord :=
  { f with localSize := 0, sealed := false }

namespace LayoutState

/-- What is fixed about the frames of a layout. -/
def bare (s : LayoutState) : List FrameRecord :=
  s.layout.frames.toList.map (·.bare)

variable (s : LayoutState)

@[simp]
theorem bare_withFrame (current : Option Nat) (x : Symbol) (params : List Symbol)
    (body : Option Node) :
    (s.withFrame current x params body).bare = s.bare ++ [s.record current x params body] := by
  simp only [bare, withFrame, Array.toList_push, List.map_append, List.map_singleton]
  rfl

theorem bare_withLocal {s : LayoutState} {frame : Nat} {f : FrameRecord}
    (hf : s.layout.frames[frame]? = some f) (x : Symbol) :
    (s.withLocal frame f x).bare = s.bare := by
  refine List.ext_getElem? fun i => ?_
  simp only [bare, withLocal, List.getElem?_map, Array.getElem?_toList,
    Array.getElem?_setIfInBounds]
  split
  next hi =>
    subst hi
    rw [hf]
    split
    · rfl
    next hlt => exact absurd (Array.getElem?_eq_some_iff.1 hf).1 hlt
  next => rfl

@[simp]
theorem bare_withSealed (id : Nat) : (s.withSealed id).bare = s.bare := by
  refine List.ext_getElem? fun i => ?_
  simp only [bare, withSealed, List.getElem?_map, Array.getElem?_toList, Array.getElem?_modify]
  split
  · cases s.layout.frames[i]? <;> rfl
  · rfl

end LayoutState

variable {supply : Supply} {g : Ground} {s : LayoutState} {p : Source.Program} {s' : LayoutState}
  {layout : Layout} {laid : Supply}

/-- Laying out only adds frames. -/
theorem Lays.bare_prefix (h : Lays g s s') : s.bare <+: s'.bare :=
  h.preserves (P := fun t => s.bare <+: t.bare)
    (fun _ ht => ht.trans (LayoutState.bare_withFrame .. ▸ List.prefix_append _ _))
    (fun ht => ht) (fun hf ht => (LayoutState.bare_withLocal hf _).symm ▸ ht) (fun ht => ht)
    (fun ht => (LayoutState.bare_withSealed _ _).symm ▸ ht) (List.prefix_refl _)

namespace LayoutState

/-- Every frame has a label of its own, whose name is not free any more. -/
structure Labelled (s : LayoutState) : Prop where
  nodup : (s.bare.map (·.label.name)).Nodup
  taken : ∀ f ∈ s.bare, f.label.name ∈ s.supply.names

namespace Labelled

variable {s s' : LayoutState}

/-- Names that are drawn for other things do no harm. -/
theorem mono (h : s.Labelled) (hbare : s'.bare = s.bare)
    (hnames : s.supply.names ⊆ s'.supply.names) :
    s'.Labelled :=
  ⟨hbare ▸ h.nodup, fun f hf => hnames (h.taken f (hbare ▸ hf))⟩

theorem withFrame (h : s.Labelled) (current : Option Nat) (x : Symbol) (params : List Symbol)
    (body : Option Node) : (s.withFrame current x params body).Labelled := by
  have hfresh := s.supply.named_notMem (qualified (s.outer current) x)
  constructor
  · rw [bare_withFrame, List.map_append, List.nodup_append]
    refine ⟨h.nodup, List.nodup_singleton _, ?_⟩
    rintro name hname _ hlast rfl
    obtain ⟨f, hf, hname⟩ := List.mem_map.1 hname
    rw [List.map_singleton, List.mem_singleton] at hlast
    exact hfresh (hlast ▸ hname ▸ h.taken f hf)
  · intro f hf
    rw [bare_withFrame, List.mem_append, List.mem_singleton] at hf
    rcases hf with hf | rfl
    · exact Supply.names_subset_named _ _ (h.taken f hf)
    · exact Supply.named_mem _ _

end Labelled

end LayoutState

theorem Lays.labelled (h : Lays g s s') (hs : s.Labelled) : s'.Labelled :=
  h.preserves (P := LayoutState.Labelled) (fun _ hs => hs.withFrame _ _ _ _)
    (fun hs => hs.mono rfl (Supply.names_subset_named _ _))
    (fun hf hs => hs.mono (LayoutState.bare_withLocal hf _) fun _ h => h)
    (fun hs => hs.mono rfl fun _ h => h)
    (fun hs => hs.mono (LayoutState.bare_withSealed _ _) fun _ h => h) hs

/-- Frames of a layout that have the same label are the same. -/
theorem Layout.frame_eq_of_label (h : Layout.build supply p = .ok (layout, laid))
    {f g : FrameRecord} (hf : f ∈ layout.frames) (hg : g ∈ layout.frames)
    (heq : f.label.name = g.label.name) : f.decl = g.decl := by
  obtain ⟨s, hheaders, hdefs⟩ := Lays.of_build h
  have hlabels := hdefs.labelled (hheaders.labelled ⟨List.nodup_nil, fun _ hf => by cases hf⟩)
  have hmem : ∀ {f : FrameRecord}, f ∈ layout.frames →
      f.bare ∈ LayoutState.bare ⟨layout, laid⟩ := fun hf =>
    List.mem_map.2 ⟨_, Array.mem_def.1 hf, rfl⟩
  have hbare : f.bare = g.bare := List.inj_on_of_nodup_map hlabels.nodup (hmem hf) (hmem hg) heq
  change f.bare.decl = g.bare.decl
  rw [hbare]

/-- The label of a function inside another one has a dot in its name. -/
def LayoutState.Dotted (s : LayoutState) : Prop :=
  ∀ f ∈ s.bare, f.level = 1 ∨ '.' ∈ f.label.name.toList

theorem LayoutState.Dotted.withFrame (h : s.Dotted) (current : Option Nat) (x : Symbol)
    (params : List Symbol) (body : Option Node) : (s.withFrame current x params body).Dotted := by
  intro f hf
  rw [bare_withFrame, List.mem_append, List.mem_singleton] at hf
  rcases hf with hf | rfl
  · exact h f hf
  · obtain ⟨rest, hname⟩ := s.supply.named_start (qualified (s.outer current) x)
    simp only [record, hname]
    cases s.outer current with
    | none => exact .inl rfl
    | some g => exact .inr (by simp [qualified])

theorem Lays.dotted (h : Lays g s s') (hs : s.Dotted) : s'.Dotted :=
  h.preserves (P := LayoutState.Dotted) (fun _ hs => hs.withFrame _ _ _ _) (fun hs => hs)
    (fun hf hs _ hmem => hs _ (LayoutState.bare_withLocal hf _ ▸ hmem)) (fun hs => hs)
    (fun hs _ hmem => hs _ (LayoutState.bare_withSealed _ _ ▸ hmem)) hs

/-- A function whose label has no dot in its name is on top level. -/
theorem Layout.level_of_label (h : Layout.build supply p = .ok (layout, laid)) {f : FrameRecord}
    (hf : f ∈ layout.frames) (hname : '.' ∉ f.label.name.toList) : f.level = 1 := by
  obtain ⟨s, hheaders, hdefs⟩ := Lays.of_build h
  have hdotted := hdefs.dotted (hheaders.dotted fun _ hf => by cases hf)
  exact (hdotted f.bare (List.mem_map.2 ⟨f, Array.mem_def.1 hf, rfl⟩)).resolve_right hname

namespace Layout

variable {layout : Layout}

theorem frameOf?_of_id {x y : Symbol} (h : x.id = y.id) :
    layout.frameOf? x = layout.frameOf? y := by
  rw [frameOf?, frameOf?, h]

theorem id_of_frameOf? {x : Symbol} {g : FrameRecord} (h : layout.frameOf? x = some g) :
    g.decl.id = x.id := by
  have hfound := Array.find?_some h
  exact beq_iff_eq.1 hfound

end Layout

end TreeCode
