/-
# Layouts under other names

A program and the same program under other names are laid out side by side. The frames and
places are the same but for the labels, which were drawn in pairs, and either both programs
have a layout or neither has one.
-/

import TreeCode.Proofs.Layout.Frames
import TreeCode.Proofs.Layout.Globals
import TreeCode.Proofs.Names.Code
import TreeCode.Proofs.Names.Renaming

namespace TreeCode

open Source (Node Symbol)

section

variable {α β : Type} {R : α → β → Prop} {l : List α} {m : List β}

theorem forall₂_getElem? (h : List.Forall₂ R l m) : ∀ i : Nat, Option.Rel R l[i]? m[i]? := by
  induction h with
  | nil => exact fun _ => .none
  | cons hab _ ih =>
    intro i
    cases i with
    | zero => exact .some hab
    | succ i => simpa using ih i

theorem forall₂_find? (h : List.Forall₂ R l m) {p : α → Bool} {q : β → Bool}
    (hpq : ∀ a b, R a b → q b = p a) : Option.Rel R (l.find? p) (m.find? q) := by
  induction h with
  | nil => exact .none
  | @cons a b _ _ hab _ ih =>
    rw [List.find?_cons, List.find?_cons, hpq a b hab]
    cases p a with
    | true => exact .some hab
    | false => exact ih

theorem forall₂_lookup {κ : Type} [BEq κ] {l : List (κ × α)} {m : List (κ × β)}
    (h : List.Forall₂ (fun a b => b.1 = a.1 ∧ R a.2 b.2) l m) (k : κ) :
    Option.Rel R (l.lookup k) (m.lookup k) := by
  induction h with
  | nil => exact .none
  | @cons a b _ _ hab _ ih =>
    rw [List.lookup_cons, List.lookup_cons, hab.1]
    cases k == a.1 with
    | true => exact .some hab.2
    | false => exact ih

theorem forall₂_dropLast (h : List.Forall₂ R l m) : List.Forall₂ R l.dropLast m.dropLast := by
  induction h with
  | nil => exact .nil
  | cons hab hrest ih =>
    cases hrest with
    | nil => exact .nil
    | cons _ _ => exact .cons hab ih

theorem forall₂_getLast? (h : List.Forall₂ R l m) : Option.Rel R l.getLast? m.getLast? := by
  induction h with
  | nil => exact .none
  | cons hab hrest ih =>
    cases hrest with
    | nil => exact .some hab
    | cons _ _ =>
      rw [List.getLast?_cons_cons, List.getLast?_cons_cons]
      exact ih

theorem forall₂_modify {f : α → α} {g : β → β} (h : List.Forall₂ R l m)
    (hfg : ∀ a b, R a b → R (f a) (g b)) : ∀ i : Nat,
    List.Forall₂ R (l.modify i f) (m.modify i g) := by
  induction h with
  | nil =>
    intro i
    cases i <;> exact .nil
  | cons hab hrest ih =>
    intro i
    cases i with
    | zero => exact .cons (hfg _ _ hab) hrest
    | succ i => exact .cons hab (ih i)

end

/-- The places of a variable in two layouts. -/
def Access.Alike (D : Draws) : Access → Access → Prop
  | .global l size, a => ∃ m, a = .global m size ∧ ⟨.data, l, m⟩ ∈ D
  | .localSlot frame offset size, a => a = .localSlot frame offset size
  | .paramSlot frame offset byRef, a => a = .paramSlot frame offset byRef

theorem Access.Alike.mono {D E : Draws} (hsub : D ⊆ E) : ∀ {a b : Access}, a.Alike D b → a.Alike E b
  | .global _ _, _, ⟨m, h, hm⟩ => ⟨m, h, hsub hm⟩
  | .localSlot _ _ _, _, h => h
  | .paramSlot _ _ _, _, h => h

section

variable (ρ : Renaming)

/-- The frames of a function in two layouts. -/
structure FrameRecord.Alike (D : Draws) (f g : FrameRecord) : Prop where
  id : g.id = f.id
  parent : g.parent = f.parent
  level : g.level = f.level
  label : ⟨.code, f.label, g.label⟩ ∈ D
  decl : g.decl = f.decl.rename ρ
  params : g.params = f.params.map (·.rename ρ)
  isExternal : g.isExternal = f.isExternal
  localSize : g.localSize = f.localSize
  isSealed : g.sealed = f.sealed

/-- Layouts that differ in labels and names only. -/
structure Layout.Alike (D : Draws) (l m : Layout) : Prop where
  frames : List.Forall₂ (FrameRecord.Alike ρ D) l.frames.toList m.frames.toList
  accesses : List.Forall₂ (fun a b => b.1 = a.1 ∧ a.2.Alike D b.2) l.accesses m.accesses

/-- Layouts in the making. Labels of code are those of frames. -/
structure LayoutState.Alike (D : Draws) (s t : LayoutState) : Prop where
  layout : s.layout.Alike ρ D t.layout
  supply : s.supply.Abreast D t.supply
  codes : ∀ l m, ⟨.code, l, m⟩ ∈ D → ∃ f g, (f, g) ∈ s.bare.zip t.bare ∧ f.label = l ∧ g.label = m

end

variable {ρ : Renaming} {D E : Draws}

namespace FrameRecord.Alike

variable {f g : FrameRecord} (h : f.Alike ρ D g)

include h

theorem mono (hsub : D ⊆ E) : f.Alike ρ E g :=
  { h with label := hsub h.label }

theorem localBase : g.localBase = f.localBase := by
  rw [FrameRecord.localBase, FrameRecord.localBase, h.params, List.length_map]

theorem frame : f.frame.Alike D g.frame where
  label := h.label
  level := congrArg Int.ofNat h.level
  params := by
    simp only [FrameRecord.frame, h.params, List.length_map]
  size := by
    simp only [FrameRecord.frame, FrameRecord.size, FrameRecord.linkOffset, h.localBase,
      h.localSize]
  linkOffset := by
    simp only [FrameRecord.frame, FrameRecord.linkOffset, h.localBase, h.localSize]

end FrameRecord.Alike

namespace Layout.Alike

variable {l m : Layout} (h : l.Alike ρ D m)

include h

theorem mono (hsub : D ⊆ E) : l.Alike ρ E m :=
  ⟨h.frames.imp fun _ _ hf => hf.mono hsub, h.accesses.imp fun _ _ ha => ⟨ha.1, ha.2.mono hsub⟩⟩

theorem getElem? (i : Nat) : Option.Rel (FrameRecord.Alike ρ D) l.frames[i]? m.frames[i]? := by
  have hframe := forall₂_getElem? h.frames i
  rwa [Array.getElem?_toList, Array.getElem?_toList] at hframe

theorem size_eq : m.frames.size = l.frames.size :=
  h.frames.length_eq.symm

/-- A function is found in both layouts or in neither. -/
theorem frameOf? (x : Symbol) :
    Option.Rel (FrameRecord.Alike ρ D) (l.frameOf? x) (m.frameOf? (x.rename ρ)) := by
  unfold Layout.frameOf?
  rw [← Array.find?_toList, ← Array.find?_toList]
  refine forall₂_find? h.frames fun f g hfg => ?_
  rw [hfg.decl]
  rfl

/-- A variable has a place in both layouts or in neither. -/
theorem access? (x : Symbol) :
    Option.Rel (Access.Alike D) (l.access? x) (m.access? (x.rename ρ)) :=
  forall₂_lookup h.accesses x.id

theorem frameLevel (i : Nat) : m.frameLevel i = l.frameLevel i := by
  unfold Layout.frameLevel
  have hframe := h.getElem? i
  generalize l.frames[i]? = a at hframe ⊢
  generalize m.frames[i]? = b at hframe ⊢
  cases hframe with
  | some hfg => exact hfg.level
  | none => rfl

end Layout.Alike

namespace LayoutState.Alike

variable {s t : LayoutState} (h : s.Alike ρ D t)

include h

/-- A variable on top level has a place on both sides. -/
theorem withStatic (x : Symbol) :
    ∃ E, D ⊆ E ∧ (s.withStatic x).Alike ρ E (t.withStatic (x.rename ρ)) := by
  have hsub := List.subset_cons_self
    (⟨.data, (s.supply.named x.name).1, (t.supply.named (ρ.symbol x)).1⟩ : Draw) D
  refine ⟨_, hsub, ⟨(h.layout.mono hsub).frames, ?_⟩, h.supply.named .data _ _, ?_⟩
  · refine .cons ⟨rfl, _, ?_, List.mem_cons_self⟩ (h.layout.mono hsub).accesses
    simp only [Symbol.rename, Ty.size_rename]
  · intro l m hlm
    cases List.mem_cons.1 hlm with
    | inl heq => cases heq
    | inr hlm => exact h.codes l m hlm

/-- A variable of a function has a place in the frames of the function. -/
theorem withLocal {frame : Nat} {f g : FrameRecord} (hf : s.layout.frames[frame]? = some f)
    (hg : t.layout.frames[frame]? = some g) (hfg : f.Alike ρ D g) (x : Symbol) :
    (s.withLocal frame f x).Alike ρ D (t.withLocal frame g (x.rename ρ)) := by
  -- the frames grow alike
  have hgrown : ∀ {u : LayoutState} {r : FrameRecord} {y : Symbol},
      u.layout.frames[frame]? = some r → (u.withLocal frame r y).layout.frames.toList =
        u.layout.frames.toList.modify frame
          fun r => { r with localSize := r.localSize + y.ty.size } := by
    intro u r y hr
    rw [LayoutState.withLocal, Array.toList_setIfInBounds, List.modify_eq_set_getElem?,
      Array.getElem?_toList, hr]
    rfl
  have hsize : (x.rename ρ).ty.size = x.ty.size := Ty.size_rename ρ x.ty
  refine ⟨⟨?_, .cons ⟨rfl, ?_⟩ h.layout.accesses⟩, h.supply, ?_⟩
  · rw [hgrown hf, hgrown hg]
    refine forall₂_modify h.layout.frames (fun a b hab => ?_) frame
    exact { hab with localSize := by simp only [hab.localSize, hsize] }
  · simp only [Access.Alike, hfg.localBase, hfg.localSize, hsize]
  · rw [bare_withLocal hf, bare_withLocal hg]
    exact h.codes

theorem withStray (frame : Nat) (x : Symbol) :
    (s.withStray frame x).Alike ρ D (t.withStray frame (x.rename ρ)) := by
  refine ⟨⟨h.layout.frames, .cons ⟨rfl, ?_⟩ h.layout.accesses⟩, h.supply, h.codes⟩
  have hsize : (x.rename ρ).ty.size = x.ty.size := Ty.size_rename ρ x.ty
  simp only [Access.Alike, hsize]

theorem withSealed (id : Nat) : (s.withSealed id).Alike ρ D (t.withSealed id) := by
  refine ⟨⟨?_, h.layout.accesses⟩, h.supply, ?_⟩
  · rw [LayoutState.withSealed, LayoutState.withSealed, Array.toList_modify, Array.toList_modify]
    refine forall₂_modify h.layout.frames (fun a b hab => ?_) id
    exact { hab with isSealed := rfl }
  · rw [bare_withSealed, bare_withSealed]
    exact h.codes

theorem outer (current : Option Nat) :
    Option.Rel (FrameRecord.Alike ρ D) (s.outer current) (t.outer current) := by
  cases current with
  | none => exact .none
  | some frame => exact h.layout.getElem? frame

theorem length_bare_eq : s.bare.length = t.bare.length := by
  rw [LayoutState.bare, LayoutState.bare, List.length_map, List.length_map]
  exact h.layout.frames.length_eq

/-- A function has a frame on both sides. -/
theorem withFrame (current : Option Nat) (x : Symbol) (params : List Symbol)
    {body body' : Option Node} (hbody : body'.isNone = body.isNone) :
    ∃ E, D ⊆ E ∧ (s.withFrame current x params body).Alike ρ E
      (t.withFrame current (x.rename ρ) (params.map (·.rename ρ)) body') := by
  have houter := h.outer current
  have hsub := List.subset_cons_self
    (⟨.code, (s.record current x params body).label,
      (t.record current (x.rename ρ) (params.map (·.rename ρ)) body').label⟩ : Draw) D
  have hlater := h.layout.mono hsub
  refine ⟨_, hsub, ⟨?_, ?_⟩, h.supply.named .code _ _, ?_⟩
  · rw [LayoutState.withFrame, LayoutState.withFrame, Array.toList_push, Array.toList_push]
    refine List.rel_append hlater.frames (.cons ?_ .nil)
    refine ⟨h.layout.size_eq, ?_, ?_, List.mem_cons_self, rfl, rfl, hbody, rfl, rfl⟩
    · simp only [LayoutState.record]
      generalize s.outer current = a at houter
      generalize t.outer current = b at houter
      cases houter with
      | some hfg => exact congrArg some hfg.id
      | none => rfl
    · simp only [LayoutState.record]
      generalize s.outer current = a at houter
      generalize t.outer current = b at houter
      cases houter with
      | some hfg => exact congrArg (· + 1) hfg.level
      | none => rfl
  · rw [LayoutState.withFrame, LayoutState.withFrame, h.layout.size_eq]
    refine List.rel_append ?_ hlater.accesses
    -- parameters have the same slots
    have hparams : ∀ (params : List Symbol) (i : Nat),
        paramAccesses s.layout.frames.size i (params.map (·.rename ρ)) =
          paramAccesses s.layout.frames.size i params := by
      intro params
      induction params with
      | nil => exact fun _ => rfl
      | cons y rest ih =>
        intro i
        simp only [List.map_cons, paramAccesses, ih, Symbol.id_rename, Symbol.ty_rename,
          Ty.isAggregate_rename]
    rw [hparams, List.forall₂_same]
    rintro ⟨i, a⟩ hmem
    refine ⟨rfl, ?_⟩
    cases a with
    | global l size => exact absurd hmem (Lays.global_notMem_paramAccesses _ _ _)
    | localSlot _ _ _ | paramSlot _ _ _ => rfl
  · intro l m hlm
    rw [bare_withFrame, bare_withFrame, List.zip_append h.length_bare_eq]
    rcases List.mem_cons.1 hlm with heq | hlm
    · cases heq
      exact ⟨_, _, List.mem_append_right _ (List.mem_singleton.2 rfl), rfl, rfl⟩
    · obtain ⟨f, g, hmem, hl, hm⟩ := h.codes l m hlm
      exact ⟨f, g, List.mem_append_left _ hmem, hl, hm⟩

end LayoutState.Alike

namespace Source.Node

theorem children_rename (ρ : Renaming) (n : Node) :
    (n.rename ρ).children = renameAll ρ n.children := by
  cases n with
  | branch _ _ _ elseArm | funDecl _ _ elseArm => cases elseArm <;> rfl
  | _ => rfl

theorem isWithin_rename (ρ : Renaming) (n : Node) : n.isWithin = (n.rename ρ).isWithin := by
  cases n with
  | branch _ _ _ elseArm | funDecl _ _ elseArm => cases elseArm <;> rfl
  | _ => rfl

end Source.Node

namespace LayOut

/-- Two ways of laying out that run side by side. -/
abbrev Alike (ρ : Renaming) (D : Draws) (x y : LayOut Unit) : Prop :=
  Parallel (LayoutState.Alike ρ) (fun _ _ _ => True) D x y

/-- A step that changes states that are alike alike. -/
theorem Alike.of_states {x y : LayOut Unit} {f g : LayoutState → LayoutState}
    (hx : ∀ s, x s = .ok ((), f s)) (hy : ∀ t, y t = .ok ((), g t))
    (h : ∀ {D s t}, s.Alike ρ D t → ∃ E, D ⊆ E ∧ (f s).Alike ρ E (g t)) : Alike ρ D x y := by
  intro E _ s t hst
  obtain ⟨F, hsub, hnext⟩ := h hst
  rw [hx, hy]
  exact .ok hsub hnext trivial

theorem Alike.bind {x y x' y' : LayOut Unit} (h : Alike ρ D x y)
    (h' : ∀ E, D ⊆ E → Alike ρ E x' y') : Alike ρ D (do x; x') (do y; y') :=
  Parallel.bind h fun E hE _ _ _ => h' E hE

theorem alike_sealFrame (id : Nat) : Alike ρ D (sealFrame id) (sealFrame id) :=
  .of_states (fun _ => rfl) (fun _ => rfl)
    fun h => ⟨_, List.Subset.refl _, h.withSealed id⟩

/-- The number of the frame of a function is the same on both sides. -/
theorem parallel_frameId (x : Symbol) : Parallel (LayoutState.Alike ρ) (fun _ i j => j = i) D
    (frameId x) (frameId (x.rename ρ)) := by
  intro E _ s t hst
  refine .ok (List.Subset.refl _) hst ?_
  have hframe := hst.layout.frameOf? x
  generalize s.layout.frameOf? x = a at hframe ⊢
  generalize t.layout.frameOf? (x.rename ρ) = b at hframe ⊢
  cases hframe with
  | some hfg => exact hfg.id
  | none => rfl

theorem alike_declareVar (current : Option Nat) (x : Symbol) :
    Alike ρ D (declareVar current x) (declareVar current (x.rename ρ)) := by
  cases current with
  | none =>
    exact .of_states (declareVar_none x) (declareVar_none (x.rename ρ)) fun h => h.withStatic x
  | some frame =>
    intro E _ s t hst
    have hframe := hst.layout.getElem? frame
    cases hf : s.layout.frames[frame]? <;> cases hg : t.layout.frames[frame]? <;>
      rw [hf, hg] at hframe <;> cases hframe
    · rw [declareVar_of_none hf, declareVar_of_none hg]
      exact .ok (List.Subset.refl _) (hst.withStray frame x) trivial
    next f g hfg =>
      rw [declareVar_of_some hf, declareVar_of_some hg, hfg.isSealed]
      split
      · exact .error
      · exact .ok (List.Subset.refl _) (hst.withLocal hf hg hfg x) trivial

theorem alike_declareFunction (current : Option Nat) (x : Symbol) (params : List Symbol)
    {body body' : Option Node} (hbody : body'.isNone = body.isNone) :
    Alike ρ D (declareFunction current x params body)
      (declareFunction current (x.rename ρ) (params.map (·.rename ρ)) body') := by
  intro E _ s t hst
  have hframe := hst.layout.frameOf? x
  rw [declareFunction_eq, declareFunction_eq]
  cases hf : s.layout.frameOf? x <;> cases hg : t.layout.frameOf? (x.rename ρ) <;>
    rw [hf, hg] at hframe <;> cases hframe
  · obtain ⟨F, hsub, hnext⟩ := hst.withFrame current x params hbody
    exact .ok hsub hnext trivial
  · exact .error

variable {ns : List Node}

theorem alike_declareFunctions (current : Option Nat) (ns : List Node) :
    Alike ρ D (declareFunctions current ns) (declareFunctions current (Node.renameAll ρ ns)) := by
  induction ns generalizing D with
  | nil => exact Parallel.pure fun _ _ => trivial
  | cons n ns ih =>
    cases n with
    | funDecl x params body =>
      cases body with
      | none => exact (alike_declareFunction current x params rfl).bind fun _ _ => ih
      | some body =>
        have hbody : (some (body.rename ρ)).isNone = (some body).isNone := rfl
        exact (alike_declareFunction current x params hbody).bind fun _ _ => ih
    | branch _ _ _ elseArm => cases elseArm <;> exact ih
    | _ => exact ih

/-- A node is laid out under other names as it is. -/
def Steady (ρ : Renaming) (n : Node) : Prop :=
  ∀ current D, Alike ρ D (node current n) (node current (n.rename ρ))

theorem alike_nodes (h : ∀ n ∈ ns, Steady ρ n) (current : Option Nat) :
    Alike ρ D (nodes current ns) (nodes current (Node.renameAll ρ ns)) := by
  induction ns generalizing D with
  | nil => exact Parallel.pure fun _ _ => trivial
  | cons n ns ih =>
    rw [Node.renameAll, nodes, nodes]
    exact (h n (.head _) current D).bind fun _ _ => ih fun m hm => h m (.tail _ hm)

theorem alike_definitions (h : ∀ x params body, .funDecl x params (some body) ∈ ns → Steady ρ body)
    (current : Option Nat) :
    Alike ρ D (definitions current ns) (definitions current (Node.renameAll ρ ns)) := by
  induction ns generalizing D with
  | nil => exact Parallel.pure fun _ _ => trivial
  | cons n ns ih =>
    have hns {D : Draws} := ih (D := D) fun x params body hmem => h x params body (.tail _ hmem)
    rw [Node.renameAll]
    cases n with
    | varDecl x =>
      rw [Node.rename, definitions, definitions]
      exact (alike_declareVar current x).bind fun _ _ => hns
    | funDecl x params body =>
      cases body with
      | none =>
        rw [Node.rename, definitions, definitions]
        refine (parallel_frameId x).bind fun _ _ i j hij => ?_
        cases hij
        exact (alike_sealFrame i).bind fun _ _ => hns
      | some body =>
        rw [Node.rename, definitions, definitions]
        refine (parallel_frameId x).bind fun _ _ i j hij => ?_
        cases hij
        exact (h x params body (.head _) (some i) _).bind fun _ _ =>
          (alike_sealFrame i).bind fun _ _ => hns
    | typeDecl _ =>
      rw [Node.rename, definitions, definitions]
      exact hns
    | branch _ _ _ elseArm => cases elseArm <;> exact Parallel.throw
    | _ => exact Parallel.throw

theorem alike_node (n : Node) : Steady ρ n := by
  refine Node.inductOn (P := Steady ρ) (fun n hchildren hbodies current D => ?_) n
  cases hwithin : n.isWithin with
  | false =>
    rw [node_eq hwithin, node_eq (Node.isWithin_rename ρ n ▸ hwithin), Node.children_rename]
    exact alike_nodes hchildren current
  | true =>
    cases n with
    | within body defs =>
      rw [Node.rename, node, node]
      exact (alike_declareFunctions current defs).bind fun _ _ =>
        (alike_definitions hbodies current).bind fun _ _ =>
          hchildren body (.head _) current _
    | _ => cases hwithin

end LayOut

/-- A program that has a layout has a layout under other names that is alike. -/
theorem Layout.alike_of_build {p : Source.Program} {layout : Layout} {laid : Supply}
    (h : build .empty p = .ok (layout, laid)) (ρ : Renaming) :
    ∃ layout' laid' D, build .empty (p.rename ρ) = .ok (layout', laid') ∧
      LayoutState.Alike ρ D ⟨layout, laid⟩ ⟨layout', laid'⟩ := by
  have hempty : LayoutState.Alike ρ [] ⟨.empty, .empty⟩ ⟨.empty, .empty⟩ :=
    ⟨⟨.nil, .nil⟩, .nil rfl, fun _ _ hlm => absurd hlm List.not_mem_nil⟩
  have hscope : LayOut.Alike ρ [] (LayOut.scope none p.defs)
      (LayOut.scope none (Node.renameAll ρ p.defs)) :=
    (LayOut.alike_declareFunctions none p.defs).bind fun _ _ =>
      LayOut.alike_definitions (fun _ _ n _ => LayOut.alike_node n) none
  have hends := hscope [] (List.Subset.refl _) _ _ hempty
  unfold build at h ⊢
  obtain ⟨⟨_, s⟩, hs, h⟩ := Outcome.of_bind h
  cases h
  rw [hs] at hends
  cases ht : LayOut.scope none (Node.renameAll ρ p.defs) ⟨.empty, .empty⟩ with
  | error e =>
    rw [ht] at hends
    cases hends
  | ok r =>
    obtain ⟨_, t⟩ := r
    rw [ht] at hends
    cases hends with
    | ok _ hst _ =>
      refine ⟨t.layout, t.supply, _, ?_, hst⟩
      rw [Source.Program.rename, ht]
      rfl

end TreeCode
