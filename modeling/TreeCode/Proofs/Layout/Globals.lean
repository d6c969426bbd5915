/-
# Static data

The places on top level are those of the variables listed there. Lowering makes a data
chunk for each of them, so every name in lowered code has an address.
-/

import TreeCode.Proofs.Layout.Derivation
import TreeCode.Proofs.Lowering.Static

namespace TreeCode

open IR (Chunk)
open Source (Node Symbol)

namespace Ground

/-- Whether static variables are listed rather than found further down. -/
def isListed : Ground → Bool
  | .node none _ => false
  | .nodes none _ => false
  | _ => true

/-- The definitions that are static. -/
def statics : Ground → List Node
  | .definitions none defs => defs
  | _ => []

end Ground

namespace Lays

/-- Laying out draws no temps. -/
theorem temps_eq {g : Ground} {s s' : LayoutState} (h : Lays g s s') :
    s'.supply.temps = s.supply.temps :=
  h.preserves (P := fun t => t.supply.temps = s.supply.temps)
    (fun _ ht => (Supply.named_temps _ _).trans ht) (fun ht => (Supply.named_temps _ _).trans ht)
    (fun _ ht => ht) (fun ht => ht) (fun ht => ht) rfl

end Lays

variable {p : Source.Program} {layout : Layout} {x : Symbol} {l : Label} {size : Word}

/-- Lowering starts after the temps of the machine itself. -/
theorem Layout.temps_of_build {laid : Supply} (h : Layout.build .empty p = .ok (layout, laid))
    : laid.temps = Temp.firstFree := by
  obtain ⟨s, hheaders, hdefs⟩ := Lays.of_build h
  exact hdefs.temps_eq.trans hheaders.temps_eq

namespace Lays

theorem global_notMem_paramAccesses {id : Nat} {l : Label} {size : Word} (frame : Nat) :
    ∀ (index : Nat) (params : List Symbol),
      (id, .global l size) ∉ LayoutState.paramAccesses frame index params
  | _, [] => List.not_mem_nil
  | index, _ :: rest => by
    rw [LayoutState.paramAccesses, List.mem_append, List.mem_singleton]
    rintro (h | h)
    · exact global_notMem_paramAccesses frame (index + 1) rest h
    · cases h

/-- A static place is that of a variable listed on top level. -/
theorem global_mem {g : Ground} {s s' : LayoutState} (h : Lays g s s') (hg : g.isListed = true)
    {id : Nat} {l : Label} {size : Word} (hmem : (id, .global l size) ∈ s'.layout.accesses) :
    (id, .global l size) ∈ s.layout.accesses ∨ ∃ x, .varDecl x ∈ g.statics ∧ x.id = id := by
  -- what a later rule of a list of definitions finds in the rest is in the list
  have hcons : ∀ {current : Option Nat} {n : Node} {ns : List Node},
      (∃ x, .varDecl x ∈ (Ground.definitions current ns).statics ∧ x.id = id) →
        ∃ x, .varDecl x ∈ (Ground.definitions current (n :: ns)).statics ∧ x.id = id := by
    rintro (_ | frame) n ns ⟨x, hx, hid⟩
    · exact ⟨x, List.mem_cons_of_mem _ hx, hid⟩
    · exact ⟨x, hx, hid⟩
  induction h with
  | noHeader | noDefinition | noNode => exact .inl hmem
  | header _ _ ih =>
    rcases ih rfl hmem with hmem | ⟨x, hx, _⟩
    · exact .inl ((List.mem_append.1 hmem).resolve_left (global_notMem_paramAccesses _ _ _))
    · cases hx
  | noFunction _ _ ih => exact ih rfl hmem
  | @static x _ _ _ _ ih =>
    rcases ih rfl hmem with hmem | hx
    · cases hmem with
      | head => exact .inr ⟨x, List.mem_cons_self, rfl⟩
      | tail _ hmem => exact .inl hmem
    · exact .inr (hcons hx)
  | stacked _ _ _ ih | stray _ _ ih =>
    rcases ih rfl hmem with hmem | hx
    · cases hmem with
      | tail _ hmem => exact .inl hmem
    · exact .inr (hcons hx)
  | external _ ih | type _ ih => exact (ih rfl hmem).imp_right hcons
  | function _ _ ihb ih =>
    rcases ih rfl hmem with hmem | hx
    · rcases ihb rfl hmem with hmem | ⟨x, hx, _⟩
      · exact .inl hmem
      · cases hx
    · exact .inr (hcons hx)
  | @within current body defs _ _ _ _ _ _ _ ihh ihd ihb =>
    cases current with
    | none => cases hg
    | some frame =>
      rcases ihb rfl hmem with hmem | hx
      · rcases ihd rfl hmem with hmem | hx
        · exact ihh rfl hmem
        · exact .inr hx
      · exact .inr hx
  | @inner current _ _ _ _ _ ih =>
    cases current with
    | none => cases hg
    | some frame => exact ih rfl hmem
  | @nodes current _ _ _ _ _ _ _ ihn ihns =>
    cases current with
    | none => cases hg
    | some frame =>
      rcases ihns rfl hmem with hmem | hx
      · exact ihn rfl hmem
      · exact .inr hx

end Lays

/-- A variable with a static place has a data chunk. -/
theorem Lowers.data_mem {types : TypeTable} {defs : List Node} {s s' : LowerState}
    (h : Lowers types layout (.definitions defs) s .nothing s') (hx : .varDecl x ∈ defs)
    (ha : layout.access? x = some (.global l size)) : .data l size [] ∈ s'.chunks := by
  induction defs generalizing s with
  | nil => cases hx
  | cons n ns ih =>
    cases h with
    | static hy hrest =>
      cases hx with
      | head =>
        cases hy.symm.trans ha
        exact hrest.grows.chunks.subset (List.mem_append_right _ (List.mem_singleton.2 rfl))
      | tail _ hx => exact ih hrest hx
    | stacked hy hne hrest =>
      cases hx with
      | head => exact absurd (Option.some.inj (hy.symm.trans ha)) (hne l size)
      | tail _ hx => exact ih hrest hx
    | procedure _ _ _ hrest | function _ _ _ hrest =>
      cases hx with
      | tail _ hx => exact ih hrest hx
    | skipped hn hrest =>
      cases hx with
      | head => cases hn
      | tail _ hx => exact ih hrest hx

/-- Every static place belongs to a data chunk of its size, without initial bytes. -/
theorem data_of_global {laid supply : Supply} {chunks : List Chunk}
    (hlayout : Layout.build .empty p = .ok (layout, laid))
    (hlower : p.lower layout laid = .ok (chunks, supply))
    (hx : layout.access? x = some (.global l size)) : .data l size [] ∈ chunks := by
  obtain ⟨s, hheaders, hdefs⟩ := Lays.of_build hlayout
  obtain ⟨before, rest, heq, -⟩ := List.lookup_eq_some_iff.1 hx
  have hmem : (x.id, .global l size) ∈ layout.accesses :=
    heq ▸ List.mem_append_right _ List.mem_cons_self
  rcases hdefs.global_mem rfl hmem with hmem | ⟨y, hy, hid⟩
  · rcases hheaders.global_mem rfl hmem with hmem | ⟨y, hy, _⟩
    · cases hmem
    · cases hy
  · have hy' : layout.access? y = some (.global l size) := by
      rw [Layout.access?, hid]
      exact hx
    exact (Lowers.of_program hlower).data_mem hy hy'

end TreeCode
