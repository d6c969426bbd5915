/-
# Where frames and places come from

Every frame of a layout belongs to a declared function, and its chain of parents is the
list of functions around that declaration. Every place belongs to a declared variable or
parameter, in the frame of the function that it is declared in. Variables of one frame lie
one behind the other.

All of this is one invariant of laying out, `LayoutState.Originates`, relative to the
declarations of the program and the functions around the ground that is laid out.
-/

import Mathlib.Algebra.Ring.Int.Defs
import TreeCode.Proofs.Layout.Frames
import TreeCode.Proofs.Scope

namespace TreeCode

open Source (Declared Node Routine Symbol)

/-- A frame is that of a function inside some others. -/
structure FrameRecord.Describes (f : FrameRecord) (r : Routine) (outer : List Routine) : Prop where
  decl : f.decl = r.decl
  params : f.params = r.params
  body : f.body = r.body
  level : f.level = outer.length + 1

/-- The current frame is that of the innermost of some functions, and its parents are
those of the others. Outside all functions there is no current frame. -/
def Encloses (frames : List FrameRecord) : List Routine → Option Nat → Prop
  | [], current => current = none
  | r :: outer, current => ∃ i f, current = some i ∧ frames[i]? = some f ∧ f.id = i ∧
      f.Describes r outer ∧ Encloses frames outer f.parent

namespace Encloses

variable {frames frames' : List FrameRecord}

theorem mono (h : frames <+: frames') {inside : List Routine} {current : Option Nat}
    (hin : Encloses frames inside current) : Encloses frames' inside current := by
  induction inside generalizing current with
  | nil => exact hin
  | cons r outer ih =>
    obtain ⟨i, f, hcurrent, hf, hid, hdescribes, houter⟩ := hin
    refine ⟨i, f, hcurrent, ?_, hid, hdescribes, ih houter⟩
    obtain ⟨more, rfl⟩ := h
    rw [List.getElem?_append_left (List.getElem?_eq_some_iff.1 hf).1, hf]

end Encloses

/-- The offset of the first variable in the frame of a function. -/
def Source.Routine.localBase (r : Routine) : Word :=
  Word.size * Int64.ofNat (r.params.length + 1)

theorem FrameRecord.Describes.localBase {f : FrameRecord} {r : Routine} {outer : List Routine}
    (h : f.Describes r outer) : f.localBase = r.localBase := by
  rw [FrameRecord.localBase, h.params, Routine.localBase]

/-- The size of a variable in a frame; other places take nothing from it. -/
def Access.sizeIn (frame : Nat) : Access → Word
  | .localSlot i _ size => if i = frame then size else 0
  | _ => 0

/-- The bytes that variables take in a frame. -/
def slotTotal (frame : Nat) : List (Nat × Access) → Word
  | [] => 0
  | entry :: rest => slotTotal frame rest + entry.2.sizeIn frame

/-- The bytes that variables take in a frame, as an integer. -/
def slotExtent (frame : Nat) (l : List (Nat × Access)) : Int :=
  (l.map fun entry => (entry.2.sizeIn frame).toInt).sum

/-- The size of a variable that is declared in a function itself, not in one inside it. -/
def Source.Declared.sizeIn (function : Nat) : Declared → Int
  | ⟨r :: _, .var x⟩ => if r.decl.id = function then x.ty.size.toInt else 0
  | _ => 0

/-- The bytes that the variables of a function take. -/
def localTotal (ds : List Declared) (function : Nat) : Int :=
  (ds.map (·.sizeIn function)).sum

@[simp]
theorem localTotal_nil (function : Nat) : localTotal [] function = 0 := rfl

@[simp]
theorem localTotal_cons (d : Declared) (ds : List Declared) (function : Nat) :
    localTotal (d :: ds) function = d.sizeIn function + localTotal ds function := by
  simp [localTotal]

@[simp]
theorem localTotal_append (a b : List Declared) (function : Nat) :
    localTotal (a ++ b) function = localTotal a function + localTotal b function := by
  simp [localTotal]

@[simp]
theorem localTotal_header (r : Routine) (outer : List Routine) (function : Nat) :
    localTotal (r.header outer) function = 0 := by
  rw [localTotal, Routine.header, List.map_cons, List.map_map]
  simp [Declared.sizeIn, Function.comp_def]

/-- Places that belong to declarations. A variable in a frame lies behind those that were
given a place before it. -/
inductive Served (ds : List Declared) (frames : List FrameRecord) :
    List (Nat × Access) → Prop
  | nil : Served ds frames []
  | global {x : Symbol} {l : Label} {rest : List (Nat × Access)} : ⟨[], .var x⟩ ∈ ds →
      Served ds frames rest → Served ds frames ((x.id, .global l x.ty.size) :: rest)
  | localSlot {r : Routine} {outer : List Routine} {x : Symbol} {i : Nat}
      {rest : List (Nat × Access)} : ⟨r :: outer, .var x⟩ ∈ ds →
      Encloses frames (r :: outer) (some i) → Served ds frames rest →
      Served ds frames
        ((x.id, .localSlot i (r.localBase + slotTotal i rest) x.ty.size) :: rest)
  | paramSlot {r : Routine} {outer : List Routine} {x : Symbol} {i k : Nat}
      {rest : List (Nat × Access)} : ⟨r :: outer, .param x⟩ ∈ ds → r.params[k]? = some x →
      Encloses frames (r :: outer) (some i) → Served ds frames rest →
      Served ds frames
        ((x.id, .paramSlot i (FrameRecord.paramOffset k) x.ty.isAggregate) :: rest)

/-- The place of a declaration among all places. -/
inductive Placed (frames : List FrameRecord) (l : List (Nat × Access)) :
    Declared → Access → Prop
  | global {x : Symbol} {label : Label} : Placed frames l ⟨[], .var x⟩ (.global label x.ty.size)
  | localSlot {r : Routine} {outer : List Routine} {x : Symbol} {i : Nat}
      {before : List (Nat × Access)} : Encloses frames (r :: outer) (some i) →
      (x.id, .localSlot i (r.localBase + slotTotal i before) x.ty.size) :: before <:+ l →
      Placed frames l ⟨r :: outer, .var x⟩
        (.localSlot i (r.localBase + slotTotal i before) x.ty.size)
  | paramSlot {r : Routine} {outer : List Routine} {x : Symbol} {i k : Nat} :
      Encloses frames (r :: outer) (some i) → r.params[k]? = some x →
      Placed frames l ⟨r :: outer, .param x⟩
        (.paramSlot i (FrameRecord.paramOffset k) x.ty.isAggregate)

theorem Placed.mono {frames : List FrameRecord} {l l' : List (Nat × Access)} {d : Declared}
    {access : Access} (h : Placed frames l d access) (hl : l <:+ l') :
    Placed frames l' d access := by
  cases h with
  | global => exact .global
  | localSlot hin hbefore => exact .localSlot hin (hbefore.trans hl)
  | paramSlot hin hk => exact .paramSlot hin hk

namespace Served

variable {ds : List Declared} {frames frames' : List FrameRecord} {l : List (Nat × Access)}

theorem mono (h : Served ds frames l) (hframes : frames <+: frames') : Served ds frames' l := by
  induction h with
  | nil => exact .nil
  | global hx _ ih => exact .global hx ih
  | localSlot hx hin _ ih => exact .localSlot hx (hin.mono hframes) ih
  | paramSlot hx hk hin _ ih => exact .paramSlot hx hk (hin.mono hframes) ih

/-- Every place is that of a declaration. -/
theorem placed (h : Served ds frames l) {id : Nat} {access : Access} (hmem : (id, access) ∈ l) :
    ∃ d ∈ ds, d.item.decl.id = id ∧ Placed frames l d access := by
  have hlater : ∀ {entry rest}, (∃ d ∈ ds, d.item.decl.id = id ∧ Placed frames rest d access) →
      ∃ d ∈ ds, d.item.decl.id = id ∧ Placed frames (entry :: rest) d access := by
    rintro entry rest ⟨d, hd, hid, hplaced⟩
    exact ⟨d, hd, hid, hplaced.mono (List.suffix_cons _ _)⟩
  induction h with
  | nil => cases hmem
  | global hx _ ih =>
    rcases List.mem_cons.1 hmem with heq | hmem
    · cases heq
      exact ⟨_, hx, rfl, .global⟩
    · exact hlater (ih hmem)
  | localSlot hx hin _ ih =>
    rcases List.mem_cons.1 hmem with heq | hmem
    · cases heq
      exact ⟨_, hx, rfl, .localSlot hin (List.suffix_refl _)⟩
    · exact hlater (ih hmem)
  | paramSlot hx hk hin _ ih =>
    rcases List.mem_cons.1 hmem with heq | hmem
    · cases heq
      exact ⟨_, hx, rfl, .paramSlot hin hk⟩
    · exact hlater (ih hmem)

/-- Variables take nothing from a frame that does not exist yet. -/
theorem slotTotal_eq_zero (h : Served ds frames l) {i : Nat} (hi : frames.length ≤ i) :
    slotTotal i l = 0 := by
  induction h with
  | nil => rfl
  | global _ _ ih | paramSlot _ _ _ _ ih => simpa [slotTotal, Access.sizeIn] using ih
  | @localSlot _ _ _ j _ _ hin _ ih =>
    obtain ⟨j', f, hj, hf, -⟩ := hin
    cases hj
    have hlt := (List.getElem?_eq_some_iff.1 hf).1
    have hne : j ≠ i := by omega
    simpa [slotTotal, Access.sizeIn, hne] using ih

/-- Parameters are served in the frame of their function. -/
theorem params {r : Routine} {outer : List Routine} {i : Nat}
    (hin : Encloses frames (r :: outer) (some i)) {k : Nat} {params : List Symbol}
    (hget : ∀ j x, params[j]? = some x → r.params[k + j]? = some x)
    (hmem : ∀ x ∈ params, ⟨r :: outer, .param x⟩ ∈ ds) (h : Served ds frames l) :
    Served ds frames (LayoutState.paramAccesses i k params ++ l) := by
  induction params generalizing k l with
  | nil => exact h
  | cons x params ih =>
    rw [LayoutState.paramAccesses, List.append_assoc]
    refine ih (fun j y hy => ?_) (fun y hy => hmem y (List.mem_cons_of_mem _ hy))
      (.paramSlot (hmem x List.mem_cons_self) (hget 0 x rfl) hin h)
    have hy := hget (j + 1) y hy
    rwa [← Nat.add_assoc, Nat.add_right_comm] at hy

end Served

theorem slotExtent_paramAccesses (i frame : Nat) : ∀ (k : Nat) (params : List Symbol)
    (l : List (Nat × Access)),
    slotExtent i (LayoutState.paramAccesses frame k params ++ l) = slotExtent i l
  | _, [], _ => rfl
  | k, x :: params, l => by
    rw [LayoutState.paramAccesses, List.append_assoc, slotExtent_paramAccesses i frame]
    simp [slotExtent, Access.sizeIn]

theorem slotTotal_paramAccesses (i frame : Nat) : ∀ (k : Nat) (params : List Symbol)
    (l : List (Nat × Access)),
    slotTotal i (LayoutState.paramAccesses frame k params ++ l) = slotTotal i l
  | _, [], _ => rfl
  | k, x :: params, l => by
    rw [LayoutState.paramAccesses, List.append_assoc, slotTotal_paramAccesses i frame]
    simp [slotTotal, Access.sizeIn]

/-- Everything that has been laid out belongs to one of some declarations. -/
structure LayoutState.Originates (ds : List Declared) (s : LayoutState) : Prop where
  distinct : (s.bare.map (·.decl.id)).Nodup
  frames : ∀ i f, s.bare[i]? = some f → ∃ r outer, ⟨outer, .routine r⟩ ∈ ds ∧
    f.decl = r.decl ∧ Encloses s.bare (r :: outer) (some i)
  accesses : Served ds s.bare s.layout.accesses
  sizes : ∀ i f, s.layout.frames[i]? = some f → f.localSize = slotTotal i s.layout.accesses

namespace LayoutState

variable {ds : List Declared} {s s' : LayoutState} {inside outer : List Routine}
  {current : Option Nat} {x : Symbol} {params : List Symbol} {body : Option Node}

theorem getElem?_bare (s : LayoutState) (i : Nat) :
    s.bare[i]? = (s.layout.frames[i]?).map (·.bare) := by
  rw [bare, List.getElem?_map, Array.getElem?_toList]

theorem length_bare (s : LayoutState) : s.bare.length = s.layout.frames.size := by
  rw [bare, List.length_map, Array.length_toList]

/-- The record of a new function is that of the function. -/
theorem record_describes (h : Encloses s.bare outer current) :
    (s.record current x params body).Describes ⟨x, params, body⟩ outer ∧
      (s.record current x params body).parent = current := by
  cases outer with
  | nil =>
    obtain rfl : current = none := h
    exact ⟨⟨rfl, rfl, rfl, rfl⟩, rfl⟩
  | cons r outer =>
    obtain ⟨i, f, rfl, hf, hid, hdescribes, -⟩ := h
    rw [getElem?_bare, Option.map_eq_some_iff] at hf
    obtain ⟨g, hg, rfl⟩ := hf
    have hfound : s.outer (some i) = some g := hg
    have hlevel : g.level = outer.length + 1 := hdescribes.level
    have hid : g.id = i := hid
    refine ⟨⟨rfl, rfl, rfl, ?_⟩, ?_⟩
    · simp [record, hfound, hlevel]
    · simp [record, hfound, hid]

/-- A function that has just been given a frame is enclosed by the functions around it. -/
theorem encloses_withFrame (h : Encloses s.bare outer current) :
    Encloses (s.withFrame current x params body).bare (⟨x, params, body⟩ :: outer)
      (some s.layout.frames.size) := by
  obtain ⟨hdescribes, hparent⟩ := @record_describes s outer current x params body h
  refine ⟨_, s.record current x params body, rfl, ?_, rfl, hdescribes, ?_⟩
  · rw [bare_withFrame, ← length_bare, List.getElem?_concat_length]
  · rw [hparent, bare_withFrame]
    exact h.mono (List.prefix_append _ _)

/-- Laying out has only added frames, and places for the variables in a list. -/
structure Extends (ds added : List Declared) (s s' : LayoutState) : Prop where
  originates : s'.Originates ds
  frames : s.bare <+: s'.bare
  extent : ∀ frames, s'.bare <+: frames → (frames.map (·.decl.id)).Nodup →
    ∀ i f, frames[i]? = some f →
      slotExtent i s'.layout.accesses =
        slotExtent i s.layout.accesses + localTotal added f.decl.id

namespace Extends

variable {added more : List Declared} {s₁ : LayoutState}

theorem refl (hs : s.Originates ds) : s.Extends ds [] s where
  originates := hs
  frames := List.prefix_refl _
  extent _ _ _ _ _ _ := (Int.add_zero _).symm

theorem trans (h : s.Extends ds added s₁) (h' : s₁.Extends ds more s') :
    s.Extends ds (added ++ more) s' where
  originates := h'.originates
  frames := h.frames.trans h'.frames
  extent frames hframes hnodup i f hf := by
    rw [h'.extent frames hframes hnodup i f hf,
      h.extent frames (h'.frames.trans hframes) hnodup i f hf, localTotal_append, Int.add_assoc]

theorem congr (h : s.Extends ds added s')
    (heq : ∀ function, localTotal added function = localTotal more function) :
    s.Extends ds more s' :=
  ⟨h.originates, h.frames, fun frames hframes hnodup i f hf => by
    rw [h.extent frames hframes hnodup i f hf, heq]⟩

end Extends

namespace Originates

variable (hs : s.Originates ds)
include hs

theorem withFrame (h : Encloses s.bare outer current) (hnew : s.layout.frameOf? x = none)
    (hsub : Routine.header ⟨x, params, body⟩ outer ⊆ ds) :
    s.Extends ds [] (s.withFrame current x params body) := by
  have hin := @encloses_withFrame s outer current x params body h
  have hgrown : s.bare <+: (s.withFrame current x params body).bare :=
    bare_withFrame .. ▸ List.prefix_append _ _
  refine ⟨⟨?_, ?_, ?_, ?_⟩, hgrown, fun _ _ _ i _ _ => ?_⟩
  · rw [bare_withFrame, List.map_append, List.nodup_append]
    refine ⟨hs.distinct, List.nodup_singleton _, ?_⟩
    rintro id hid _ hlast rfl
    obtain ⟨f, hf, hid⟩ := List.mem_map.1 hid
    obtain ⟨g, hg, rfl⟩ := List.mem_map.1 hf
    rw [List.map_singleton, List.mem_singleton] at hlast
    have hfound := Array.find?_eq_none.1 hnew g (Array.mem_def.2 hg)
    exact hfound (beq_iff_eq.2 (hid.trans hlast))
  · intro i f hf
    rw [bare_withFrame, List.getElem?_append] at hf
    split at hf
    next hlt =>
      obtain ⟨r, o, hr, hdecl, hr'⟩ := hs.frames i f hf
      exact ⟨r, o, hr, hdecl, hr'.mono hgrown⟩
    next hge =>
      rw [List.getElem?_singleton] at hf
      split at hf
      next hi =>
        obtain rfl : i = s.layout.frames.size := by
          rw [length_bare] at hge hi
          omega
        cases hf
        exact ⟨_, outer, hsub (List.mem_cons_self ..), rfl, hin⟩
      next => cases hf
  · refine Served.params hin (fun j y hy => by rw [Nat.zero_add]; exact hy) (fun y hy => ?_)
      (hs.accesses.mono hgrown)
    exact hsub (List.mem_cons_of_mem _ (List.mem_map.2 ⟨y, hy, rfl⟩))
  · intro i f hf
    have htotal : slotTotal i (s.withFrame current x params body).layout.accesses =
        slotTotal i s.layout.accesses := slotTotal_paramAccesses ..
    rw [htotal]
    change (s.layout.frames.push _)[i]? = some f at hf
    rw [Array.getElem?_push] at hf
    split at hf
    next hi =>
      cases hf
      exact (hs.accesses.slotTotal_eq_zero (by simp [length_bare, hi])).symm
    next => exact hs.sizes i f hf
  · exact (slotExtent_paramAccesses ..).trans (Int.add_zero _).symm

theorem withStatic (hx : ⟨[], .var x⟩ ∈ ds) : s.Extends ds [⟨[], .var x⟩] (s.withStatic x) := by
  refine ⟨⟨hs.distinct, hs.frames, .global hx hs.accesses, fun i f hf => ?_⟩,
    List.prefix_refl _, fun _ _ _ i f _ => ?_⟩
  · rw [hs.sizes i f hf]
    exact (Int64.add_zero _).symm
  · change (0 : Word).toInt + slotExtent i s.layout.accesses = _
    rw [localTotal_cons, localTotal_nil]
    exact Int.add_comm _ _

theorem withLocal {r : Routine} {i : Nat} {f : FrameRecord}
    (hin : Encloses s.bare (r :: outer) (some i)) (hf : s.layout.frames[i]? = some f)
    (hx : ⟨r :: outer, .var x⟩ ∈ ds) : s.Extends ds [⟨r :: outer, .var x⟩] (s.withLocal i f x) := by
  have hbare := bare_withLocal hf x
  have hbase : f.localBase = r.localBase := by
    obtain ⟨j, g, hj, hg, -, hdescribes, -⟩ := hin
    cases hj
    rw [getElem?_bare, hf] at hg
    cases hg
    exact hdescribes.localBase
  refine ⟨⟨hbare ▸ hs.distinct, hbare ▸ hs.frames, ?_, ?_⟩, hbare ▸ List.prefix_refl _, ?_⟩
  · rw [hbare]
    change Served ds s.bare ((x.id, .localSlot i (f.localBase + f.localSize) x.ty.size) :: _)
    rw [hbase, hs.sizes i f hf]
    exact .localSlot hx hin hs.accesses
  · intro j g hg
    change g.localSize = slotTotal j s.layout.accesses + if i = j then x.ty.size else 0
    change (s.layout.frames.setIfInBounds i _)[j]? = some g at hg
    rw [Array.getElem?_setIfInBounds] at hg
    split at hg
    next hij =>
      subst hij
      split at hg
      · cases hg
        rw [if_pos rfl, ← hs.sizes i f hf]
      · cases hg
    next hij =>
      rw [if_neg hij, hs.sizes j g hg]
      exact (Int64.add_zero _).symm
  · intro frames hframes hnodup j g hg
    -- the variable is one of frame `j` exactly if its function is that of the frame
    obtain ⟨k, f', hk, hf', -, hdescribes, -⟩ := hin.mono (hbare ▸ hframes)
    cases hk
    have hsame : i = j ↔ r.decl.id = g.decl.id := by
      constructor
      · rintro rfl
        cases hf'.symm.trans hg
        exact congrArg Symbol.id hdescribes.decl.symm
      · intro hid
        have hlt : i < (frames.map (·.decl.id)).length := by
          rw [List.length_map]
          exact (List.getElem?_eq_some_iff.1 hf').1
        refine (List.getElem?_inj hlt hnodup).1 ?_
        rw [List.getElem?_map, List.getElem?_map, hf', hg, Option.map_some, Option.map_some,
          hdescribes.decl, hid]
    change (if i = j then x.ty.size else 0 : Word).toInt + slotExtent j s.layout.accesses = _
    rw [localTotal_cons, localTotal_nil, Declared.sizeIn, Int.add_zero, Int.add_comm]
    congr 1
    by_cases hij : i = j
    · rw [if_pos hij, if_pos (hsame.1 hij)]
    · rw [if_neg hij, if_neg fun hid => hij (hsame.2 hid)]
      rfl

theorem withSealed (id : Nat) : s.Extends ds [] (s.withSealed id) := by
  have hbare := bare_withSealed s id
  refine ⟨⟨hbare ▸ hs.distinct, hbare ▸ hs.frames, hbare ▸ hs.accesses, ?_⟩,
    hbare ▸ List.prefix_refl _, fun _ _ _ _ _ _ => (Int.add_zero _).symm⟩
  intro j g hg
  change (s.layout.frames.modify id _)[j]? = some g at hg
  rw [Array.getElem?_modify] at hg
  split at hg
  · obtain ⟨f, hf, rfl⟩ := Option.map_eq_some_iff.1 hg
    exact hs.sizes j f hf
  · exact hs.sizes j g hg

/-- The frame of a function is found by its symbol. -/
theorem frameId_eq {r : Routine} {i : Nat} (hin : Encloses s.bare (r :: outer) (some i)) :
    s.frameId r.decl = i := by
  obtain ⟨j, f, hj, hf, hid, hdescribes, -⟩ := hin
  cases hj
  rw [getElem?_bare, Option.map_eq_some_iff] at hf
  obtain ⟨g, hg, rfl⟩ := hf
  have hdecl : g.decl = r.decl := hdescribes.decl
  have hmem : g ∈ s.layout.frames := Array.mem_of_getElem? hg
  cases hfound : s.layout.frameOf? r.decl with
  | none =>
    have hnot := Array.find?_eq_none.1 hfound g hmem
    rw [hdecl] at hnot
    exact absurd (beq_self_eq_true _) hnot
  | some g' =>
    have hdecl' := Array.find?_some hfound
    have hbare : g'.bare = g.bare := by
      refine List.inj_on_of_nodup_map hs.distinct
        (List.mem_map.2 ⟨g', Array.mem_def.1 (Array.mem_of_find?_eq_some hfound), rfl⟩)
        (List.mem_map.2 ⟨g, Array.mem_def.1 hmem, rfl⟩) ?_
      change g'.decl.id = g.decl.id
      rw [hdecl]
      exact beq_iff_eq.1 hdecl'
    have hsame : g'.bare.id = g.bare.id := congrArg FrameRecord.id hbare
    rw [frameId, hfound]
    exact hsame.trans hid

end Originates

end LayoutState

namespace Ground

/-- The frame that some ground is laid out in. -/
def current : Ground → Option Nat
  | .headers current _ => current
  | .definitions current _ => current
  | .node current _ => current
  | .nodes current _ => current

/-- The declarations of some ground inside some functions. -/
def declares (outer : List Routine) : Ground → List Declared
  | .headers _ defs => Node.declaresIn defs outer
  | .definitions _ defs => Node.declaresIn defs outer
  | .node _ n => n.declares outer
  | .nodes _ ns => Node.declaresAll ns outer

/-- The declarations that some ground gives places in frames to, parameters apart. The
heads of functions give none. -/
def added (outer : List Routine) : Ground → List Declared
  | .headers _ _ => []
  | g => g.declares outer

/-- The functions of a list of definitions have their frames before the definitions are
laid out. -/
def Framed (outer : List Routine) (frames : List FrameRecord) : Ground → Prop
  | .definitions _ defs => ∀ x params body, .funDecl x params body ∈ defs →
      ∃ i, Encloses frames (⟨x, params, body⟩ :: outer) (some i)
  | _ => True

/-- The definitions behind the first one have their frames, also among more frames. -/
theorem Framed.tail {current : Option Nat} {n : Node} {ns : List Node} {outer : List Routine}
    {frames frames' : List FrameRecord} (h : (definitions current (n :: ns)).Framed outer frames)
    (hmore : frames <+: frames') : (definitions current ns).Framed outer frames' := by
  intro x params body hmem
  obtain ⟨i, hi⟩ := h x params body (List.mem_cons_of_mem _ hmem)
  exact ⟨i, hi.mono hmore⟩

end Ground

namespace Lays

variable {ds : List Declared} {outer : List Routine}

/-- The functions of a list of definitions are given their frames. -/
theorem framed_of_headers {current : Option Nat} {defs : List Node} {s s' : LayoutState}
    (h : Lays (.headers current defs) s s') (hin : Encloses s.bare outer current) :
    s.bare <+: s'.bare ∧ (Ground.definitions current defs).Framed outer s'.bare := by
  induction defs generalizing s with
  | nil =>
    cases h
    exact ⟨List.prefix_refl _, fun _ _ _ hmem => nomatch hmem⟩
  | cons n ns ih =>
    cases h with
    | @header _ x params body _ _ _ hnew hrest =>
      have hgrown : s.bare <+: (s.withFrame current x params body).bare :=
        LayoutState.bare_withFrame .. ▸ List.prefix_append _ _
      obtain ⟨hmore, hframed⟩ := ih hrest (hin.mono hgrown)
      refine ⟨hgrown.trans hmore, fun y ps b hmem => ?_⟩
      cases hmem with
      | head => exact ⟨_, (LayoutState.encloses_withFrame hin).mono hmore⟩
      | tail _ hmem => exact hframed y ps b hmem
    | noFunction hn hrest =>
      obtain ⟨hmore, hframed⟩ := ih hrest hin
      refine ⟨hmore, fun y ps b hmem => ?_⟩
      cases hmem with
      | head => cases hn
      | tail _ hmem => exact hframed y ps b hmem

/-- Laying out keeps what is known of the frames and places. -/
theorem extended {g : Ground} {s s' : LayoutState} (h : Lays g s s')
    (hsub : g.declares outer ⊆ ds) (hin : Encloses s.bare outer g.current)
    (hframed : g.Framed outer s.bare) (hs : s.Originates ds) :
    s.Extends ds (g.added outer) s' := by
  have htail {n : Node} {ns : List Node} {outer : List Routine}
      (h : Node.declaresIn (n :: ns) outer ⊆ ds) : Node.declaresIn ns outer ⊆ ds :=
    List.Subset.trans (Node.declaresIn_subset _ _ _) h
  induction h generalizing outer with
  | noHeader => exact .refl hs
  | @header current x params body ns s s' hnew hrest ih =>
    have hheader : Routine.header ⟨x, params, body⟩ outer ⊆ ds := by
      refine List.Subset.trans ?_ hsub
      cases body with
      | none | some _ => exact List.subset_append_left _ _
    have hfirst := hs.withFrame hin hnew hheader
    exact hfirst.trans (ih (htail hsub) (hin.mono hfirst.frames) trivial hfirst.originates)
  | noFunction _ _ ih =>
    exact ih (htail hsub) hin trivial hs
  | noDefinition => exact .refl hs
  | static _ ih =>
    cases outer with
    | nil =>
      have hfirst := hs.withStatic (hsub List.mem_cons_self)
      exact hfirst.trans (ih (htail hsub) hin (hframed.tail hfirst.frames) hfirst.originates)
    | cons r outer =>
      obtain ⟨i, f, hi, -⟩ := hin
      cases hi
  | stacked hf _ _ ih =>
    cases outer with
    | nil => cases hin
    | cons r outer =>
      have hfirst := hs.withLocal hin hf (hsub List.mem_cons_self)
      exact hfirst.trans (ih (htail hsub) (hin.mono hfirst.frames) (hframed.tail hfirst.frames)
        hfirst.originates)
  | stray hf _ _ =>
    cases outer with
    | nil => cases hin
    | cons r outer =>
      obtain ⟨i, f, hi, hfound, -⟩ := hin
      cases hi
      rw [LayoutState.getElem?_bare, hf] at hfound
      cases hfound
  | @external current x params ns s s' _ ih =>
    have hfirst := hs.withSealed (s.frameId x)
    refine (hfirst.trans (ih (htail hsub) (hin.mono hfirst.frames) (hframed.tail hfirst.frames)
      hfirst.originates)).congr fun function => ?_
    simp [Ground.added, Ground.declares, Node.declaresIn]
  | @function current x params body ns s s₁ s' _ _ ihb ih =>
    obtain ⟨i, hi⟩ := hframed x params (some body) List.mem_cons_self
    have hid : s.frameId x = i := hs.frameId_eq hi
    have hsubset : Node.declares body (⟨x, params, some body⟩ :: outer) ⊆ ds := by
      refine List.Subset.trans ?_ hsub
      intro d hd
      simp [Ground.declares, Node.declaresIn, hd]
    have hbody := ihb hsubset (hid ▸ hi) trivial hs
    have hfirst := hbody.trans (hbody.originates.withSealed (s.frameId x))
    refine (hfirst.trans (ih (htail hsub) (hin.mono hfirst.frames) (hframed.tail hfirst.frames)
      hfirst.originates)).congr fun function => ?_
    simp [Ground.added, Ground.declares, Node.declaresIn]
  | type _ ih =>
    exact ih hsub hin (hframed.tail (List.prefix_refl _)) hs
  | @within current body defs s s₁ s₂ s' hheaders _ _ ihh ihd ihb =>
    have hboth := List.append_subset.1 hsub
    have hfirst := ihh hboth.1 hin trivial hs
    have hdefs := hfirst.trans (ihd hboth.1 (hin.mono hfirst.frames)
      (hheaders.framed_of_headers hin).2 hfirst.originates)
    exact hdefs.trans (ihb hboth.2 (hin.mono hdefs.frames) trivial hdefs.originates)
  | @inner current n s s' hn _ ih =>
    rw [Ground.declares, Node.declares_eq hn] at hsub
    change s.Extends ds (n.declares outer) s'
    rw [Node.declares_eq hn]
    exact ih hsub hin trivial hs
  | noNode => exact .refl hs
  | nodes _ _ ihn ihns =>
    have hboth := List.append_subset.1 hsub
    have hfirst := ihn hboth.1 hin trivial hs
    exact hfirst.trans (ihns hboth.2 (hin.mono hfirst.frames) trivial hfirst.originates)

end Lays

section

variable {laid : Supply} {layout : Layout} {p : Source.Program} {supply : Supply}
  (h : Layout.build supply p = .ok (layout, laid))
include h

/-- What is known of a finished layout. -/
theorem Layout.extended_of_build :
    LayoutState.Extends p.declares p.declares ⟨.empty, supply⟩ ⟨layout, laid⟩ := by
  obtain ⟨s, hheaders, hdefs⟩ := Lays.of_build h
  have hempty : LayoutState.Originates p.declares ⟨.empty, supply⟩ :=
    ⟨List.nodup_nil, (fun _ _ hf => nomatch hf), Served.nil, (fun _ _ hf => nomatch hf)⟩
  have hin : Encloses (LayoutState.bare ⟨.empty, supply⟩) [] none := rfl
  have hfirst := hheaders.extended (List.Subset.refl _) hin trivial hempty
  have hin' : Encloses s.bare [] none := rfl
  exact hfirst.trans (hdefs.extended (List.Subset.refl _) hin' (hheaders.framed_of_headers hin).2
    hfirst.originates)

theorem Layout.originates_of_build : LayoutState.Originates p.declares ⟨layout, laid⟩ :=
  (extended_of_build h).originates

/-- Every function has one frame. -/
theorem Layout.decls_nodup : (layout.frames.toList.map (·.decl.id)).Nodup := by
  simpa [LayoutState.bare, Function.comp_def, FrameRecord.bare]
    using (originates_of_build h).distinct

/-- Frames are told apart by the names of their labels. -/
theorem Layout.eq_of_label {f g : FrameRecord} (hf : f ∈ layout.frames) (hg : g ∈ layout.frames)
    (heq : f.label.name = g.label.name) : f = g :=
  List.inj_on_of_nodup_map (decls_nodup h) (Array.mem_def.1 hf) (Array.mem_def.1 hg)
    (congrArg Symbol.id (frame_eq_of_label h hf hg heq))

/-- A frame of a layout is found by the symbol of its function. -/
theorem Layout.exists_frameOf? {f : FrameRecord} (hf : f ∈ LayoutState.bare ⟨layout, laid⟩) :
    ∃ g, layout.frameOf? f.decl = some g ∧ g.bare = f := by
  obtain ⟨g, hg, rfl⟩ := List.mem_map.1 hf
  have hmem : g ∈ layout.frames := Array.mem_def.2 hg
  cases hfound : layout.frameOf? g.bare.decl with
  | none => exact absurd (beq_self_eq_true _) (Array.find?_eq_none.1 hfound g hmem)
  | some g' =>
    refine ⟨g', rfl, List.inj_on_of_nodup_map (originates_of_build h).distinct
      (List.mem_map.2 ⟨g', Array.mem_def.1 (Array.mem_of_find?_eq_some hfound), rfl⟩) hf ?_⟩
    have hid := Layout.id_of_frameOf? hfound
    exact hid

end

/-- The place of a declared variable or parameter is its own, if every declaration is listed
once. -/
theorem Layout.placed_of_once {supply laid : Supply} {p : Source.Program} {layout : Layout}
    (hbuild : Layout.build supply p = .ok (layout, laid))
    (honce : (p.declares.map (·.item.decl.id)).Nodup) {d : Declared} (hd : d ∈ p.declares)
    {access : Access} (hx : layout.access? d.item.decl = some access) :
    Placed (LayoutState.bare ⟨layout, laid⟩) layout.accesses d access := by
  obtain ⟨before, after, heq, -⟩ := List.lookup_eq_some_iff.1 hx
  have hmem : (d.item.decl.id, access) ∈ layout.accesses :=
    heq ▸ List.mem_append_right _ List.mem_cons_self
  obtain ⟨d', hd', hid, hplaced⟩ := (originates_of_build hbuild).accesses.placed hmem
  rwa [List.inj_on_of_nodup_map honce hd' hd hid] at hplaced

end TreeCode
