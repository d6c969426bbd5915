/-
# Laying out as a relation

Laying out a program succeeds along one path only. `Lays` follows that path: one rule
for every kind of declaration, and one for all nodes that declare nothing themselves.
`Lays.of_build` reads such a derivation off a finished layout; what holds of layouts is
then proved by induction on the derivation.

The relation says what has been done to the state. It does not say that a layout
exists.
-/

import TreeCode.Layout
import TreeCode.Proofs.Outcome
import TreeCode.Proofs.Shape

namespace TreeCode

open Source (Node Symbol)

namespace LayoutState

/-- A variable on top level has its place. -/
def withStatic (s : LayoutState) (x : Symbol) : LayoutState where
  layout := { s.layout with
    accesses := (x.id, .global (s.supply.named x.name).1 x.ty.size) :: s.layout.accesses
    globals := s.layout.globals ++ [x] }
  supply := (s.supply.named x.name).2

/-- A variable has a place in a frame that has grown. -/
def withLocal (s : LayoutState) (frame : Nat) (f : FrameRecord) (x : Symbol) : LayoutState where
  layout := { s.layout with
    frames := s.layout.frames.setIfInBounds frame { f with localSize := f.localSize + x.ty.size }
    accesses := (x.id, .localSlot frame (f.localBase + f.localSize) x.ty.size) ::
      s.layout.accesses }
  supply := s.supply

/-- A variable has a place in a frame that does not exist. -/
def withStray (s : LayoutState) (frame : Nat) (x : Symbol) : LayoutState where
  layout := { s.layout with accesses := (x.id, .localSlot frame 0 x.ty.size) :: s.layout.accesses }
  supply := s.supply

/-- The record of the frame around a function. -/
def outer (s : LayoutState) (current : Option Nat) : Option FrameRecord :=
  current.bind fun frame => s.layout.frames[frame]?

/-- The name of the label of a function. -/
def qualified (outer : Option FrameRecord) (x : Symbol) : String :=
  match outer with
  | none => x.name
  | some f => f.label.name ++ "." ++ x.name

/-- The record of a function that has just been declared. -/
def record (s : LayoutState) (current : Option Nat) (x : Symbol) (params : List Symbol)
    (body : Option Node) : FrameRecord where
  id := s.layout.frames.size
  parent := (s.outer current).map (·.id)
  level := (((s.outer current).map (·.level)).getD 0) + 1
  label := (s.supply.named (qualified (s.outer current) x)).1
  decl := x
  params := params
  body := body
  localSize := 0
  sealed := false

/-- The places of parameters, last first. -/
def paramAccesses (frame : Nat) (index : Nat) : List Symbol → List (Nat × Access)
  | [] => []
  | x :: rest =>
    paramAccesses frame (index + 1) rest ++
      [(x.id, .paramSlot frame (FrameRecord.paramOffset index) x.ty.isAggregate)]

/-- A function has its frame. -/
def withFrame (s : LayoutState) (current : Option Nat) (x : Symbol) (params : List Symbol)
    (body : Option Node) : LayoutState where
  layout := { s.layout with
    frames := s.layout.frames.push (s.record current x params body)
    accesses := paramAccesses s.layout.frames.size 0 params ++ s.layout.accesses }
  supply := (s.supply.named (qualified (s.outer current) x)).2

/-- The number of the frame of a function. -/
def frameId (s : LayoutState) (x : Symbol) : Nat :=
  ((s.layout.frameOf? x).map (·.id)).getD 0

/-- A frame is closed. -/
def withSealed (s : LayoutState) (id : Nat) : LayoutState where
  layout := { s.layout with
    frames := s.layout.frames.modify id fun f => { f with sealed := true } }
  supply := s.supply

end LayoutState

/-- What is laid out inside the current frame: the frames of functions listed together,
definitions, a node or several. -/
inductive Ground where
  | headers (current : Option Nat) (defs : List Node)
  | definitions (current : Option Nat) (defs : List Node)
  | node (current : Option Nat) (n : Node)
  | nodes (current : Option Nat) (ns : List Node)

/-- Laying out some ground leads from one state to another. -/
inductive Lays : Ground → LayoutState → LayoutState → Prop
  -- the frames of functions listed together
  | noHeader {current s} : Lays (.headers current []) s s
  | header {current x params body ns s s'} : s.layout.frameOf? x = none →
      Lays (.headers current ns) (s.withFrame current x params body) s' →
      Lays (.headers current (.funDecl x params body :: ns)) s s'
  | noFunction {current n ns s s'} : n.isFunction = false → Lays (.headers current ns) s s' →
      Lays (.headers current (n :: ns)) s s'
  -- definitions
  | noDefinition {current s} : Lays (.definitions current []) s s
  | static {x ns s s'} : Lays (.definitions none ns) (s.withStatic x) s' →
      Lays (.definitions none (.varDecl x :: ns)) s s'
  | stacked {frame f x ns s s'} : s.layout.frames[frame]? = some f → f.sealed = false →
      Lays (.definitions (some frame) ns) (s.withLocal frame f x) s' →
      Lays (.definitions (some frame) (.varDecl x :: ns)) s s'
  | stray {frame x ns s s'} : s.layout.frames[frame]? = none →
      Lays (.definitions (some frame) ns) (s.withStray frame x) s' →
      Lays (.definitions (some frame) (.varDecl x :: ns)) s s'
  | external {current x params ns s s'} :
      Lays (.definitions current ns) (s.withSealed (s.frameId x)) s' →
      Lays (.definitions current (.funDecl x params none :: ns)) s s'
  | function {current x params body ns s s₁ s'} :
      Lays (.node (some (s.frameId x)) body) s s₁ →
      Lays (.definitions current ns) (s₁.withSealed (s.frameId x)) s' →
      Lays (.definitions current (.funDecl x params (some body) :: ns)) s s'
  | type {current x ns s s'} : Lays (.definitions current ns) s s' →
      Lays (.definitions current (.typeDecl x :: ns)) s s'
  -- nodes
  | within {current body defs s s₁ s₂ s'} : Lays (.headers current defs) s s₁ →
      Lays (.definitions current defs) s₁ s₂ → Lays (.node current body) s₂ s' →
      Lays (.node current (.within body defs)) s s'
  | inner {current n s s'} : n.isWithin = false → Lays (.nodes current n.children) s s' →
      Lays (.node current n) s s'
  | noNode {current s} : Lays (.nodes current []) s s
  | nodes {current n ns s s₁ s'} : Lays (.node current n) s s₁ → Lays (.nodes current ns) s₁ s' →
      Lays (.nodes current (n :: ns)) s s'

namespace LayOut

/-- A node that is no `where` is laid out by laying out its children. -/
theorem node_eq {current : Option Nat} {n : Node} (h : n.isWithin = false) :
    node current n = nodes current n.children := by
  cases n with
  | within _ _ => cases h
  | branch _ _ _ elseArm | funDecl _ _ elseArm => cases elseArm <;> simp [node, nodes]
  | _ => simp [node, nodes]

theorem declareParams_eq (frame : Nat) : ∀ (index : Nat) (params : List Symbol) (s : LayoutState),
    declareParams frame index params s = .ok ((), { s with
      layout.accesses :=
        LayoutState.paramAccesses frame index params ++ s.layout.accesses })
  | _, [], _ => rfl
  | index, x :: rest, s => by
    refine (declareParams_eq frame (index + 1) rest _).trans ?_
    simp only [LayoutState.paramAccesses, List.append_assoc]
    rfl

theorem declareVar_none (x : Symbol) (s : LayoutState) :
    declareVar none x s = .ok ((), s.withStatic x) := rfl

variable {frame : Nat} {s s' : LayoutState}

theorem declareVar_of_none (hf : s.layout.frames[frame]? = none) (x : Symbol)
    : declareVar (some frame) x s = .ok ((), s.withStray frame x) := by
  have hroom : allocate frame x.ty.size s = .ok (0, s) := by rw [allocate, hf]
  change (allocate frame x.ty.size s >>= fun r =>
    setAccess x (.localSlot frame r.1 x.ty.size) r.2) = _
  rw [hroom]
  rfl

theorem declareVar_of_some {f : FrameRecord} (hf : s.layout.frames[frame]? = some f) (x : Symbol) :
    declareVar (some frame) x s = if f.sealed then .error (.sealedFrame f.label.name)
      else .ok ((), s.withLocal frame f x) := by
  change (allocate frame x.ty.size s >>= fun r =>
    setAccess x (.localSlot frame r.1 x.ty.size) r.2) = _
  rw [allocate, hf]
  by_cases hsealed : f.sealed = true
  · simp only [if_pos hsealed]
    rfl
  · simp only [if_neg hsealed]
    rfl

theorem declareVar_some {x : Symbol} (h : declareVar (some frame) x s = .ok ((), s')) :
    (∃ f, s.layout.frames[frame]? = some f ∧ f.sealed = false ∧ s' = s.withLocal frame f x) ∨
      s.layout.frames[frame]? = none ∧ s' = s.withStray frame x := by
  cases hf : s.layout.frames[frame]? with
  | none =>
    rw [declareVar_of_none hf] at h
    cases h
    exact .inr ⟨rfl, rfl⟩
  | some f =>
    rw [declareVar_of_some hf] at h
    split at h
    · cases h
    next hsealed =>
      cases h
      exact .inl ⟨f, rfl, Bool.eq_false_iff.2 hsealed, rfl⟩

theorem declareFunction_eq (current : Option Nat) (x : Symbol) (params : List Symbol)
    (body : Option Node) (s : LayoutState) :
    declareFunction current x params body s =
      if (s.layout.frameOf? x).isSome then .error (.functionTwice x.name)
      else .ok ((), s.withFrame current x params body) := by
  unfold declareFunction
  cases hx : s.layout.frameOf? x with
  | some f =>
    simp only [bind, StateT.bind, get, getThe, MonadStateOf.get, StateT.get, pure, Except.pure,
      Except.bind, hx, Option.isSome_some, if_true]
    rfl
  | none =>
    simp only [bind, StateT.bind, get, getThe, MonadStateOf.get, StateT.get, pure, Except.pure,
      Except.bind, hx, Option.isSome_none, Bool.false_eq_true, if_false, named,
      declareParams_eq]
    rfl

theorem declareFunction_eq_ok {current : Option Nat} {x : Symbol} {params : List Symbol}
    {body : Option Node} (h : declareFunction current x params body s = .ok ((), s')) :
    s.layout.frameOf? x = none ∧ s' = s.withFrame current x params body := by
  rw [declareFunction_eq] at h
  split at h
  · cases h
  next hx =>
    cases h
    exact ⟨by simpa using hx, rfl⟩

end LayOut

namespace Lays

variable {current : Option Nat} {s s' : LayoutState}

theorem of_headers : ∀ {ns : List Node} {s s' : LayoutState},
    LayOut.declareFunctions current ns s = .ok ((), s') → Lays (.headers current ns) s s'
  | [], _, _, h => by
    cases h
    exact .noHeader
  | n :: ns, s, s', h => by
    cases n with
    | funDecl x params body =>
      obtain ⟨u, s₁, hx, h⟩ := Outcome.of_bindState h
      obtain ⟨hnew, rfl⟩ := LayOut.declareFunction_eq_ok hx
      exact .header hnew (of_headers h)
    | _ => exact .noFunction rfl (of_headers h)

/-- Laying out a node has a derivation wherever it succeeds. -/
def Derives (n : Node) : Prop :=
  ∀ ⦃current s s'⦄, LayOut.node current n s = .ok ((), s') → Lays (.node current n) s s'

section

variable {ns : List Node}

theorem of_nodes (h : ∀ n ∈ ns, Derives n) :
    ∀ {s s'}, LayOut.nodes current ns s = .ok ((), s') → Lays (.nodes current ns) s s' := by
  induction ns with
  | nil =>
    intro s s' heq
    cases heq
    exact .noNode
  | cons n ns ih =>
    intro s s' heq
    rw [LayOut.nodes] at heq
    obtain ⟨_, _, hn, hns⟩ := Outcome.of_bindState heq
    exact .nodes (h n (.head _) hn) (ih (fun m hm => h m (.tail _ hm)) hns)

theorem of_definitions (h : ∀ x params body, .funDecl x params (some body) ∈ ns → Derives body) :
    ∀ {s s'}, LayOut.definitions current ns s = .ok ((), s') →
      Lays (.definitions current ns) s s' := by
  induction ns with
  | nil =>
    intro s s' heq
    cases heq
    exact .noDefinition
  | cons n ns ih =>
    intro s s' heq
    have hns := @ih fun x params body hmem => h x params body (.tail _ hmem)
    cases n with
    | varDecl x =>
      rw [LayOut.definitions] at heq
      obtain ⟨_, s₁, hx, heq⟩ := Outcome.of_bindState heq
      cases current with
      | none =>
        cases hx
        exact .static (hns heq)
      | some frame =>
        obtain ⟨f, hf, hsealed, rfl⟩ | ⟨hf, rfl⟩ := LayOut.declareVar_some hx
        · exact .stacked hf hsealed (hns heq)
        · exact .stray hf (hns heq)
    | funDecl x params body =>
      cases body with
      | none =>
        rw [LayOut.definitions] at heq
        obtain ⟨_, _, hid, heq⟩ := Outcome.of_bindState heq
        cases hid
        obtain ⟨_, _, hseal, heq⟩ := Outcome.of_bindState heq
        cases hseal
        exact .external (hns heq)
      | some body =>
        rw [LayOut.definitions] at heq
        obtain ⟨_, _, hid, heq⟩ := Outcome.of_bindState heq
        cases hid
        obtain ⟨_, _, hbody, heq⟩ := Outcome.of_bindState heq
        obtain ⟨_, _, hseal, heq⟩ := Outcome.of_bindState heq
        cases hseal
        exact .function (h x params body (.head _) hbody) (hns heq)
    | typeDecl _ =>
      rw [LayOut.definitions] at heq
      exact .type (hns heq)
    | _ => cases heq

end

theorem of_node (n : Node) : Derives n := by
  refine Node.inductOn (fun n hchildren hbodies => ?_) n
  intro current s s' heq
  cases hwithin : n.isWithin with
  | false => exact .inner hwithin (of_nodes hchildren (LayOut.node_eq hwithin ▸ heq))
  | true =>
    cases n with
    | within body defs =>
      rw [LayOut.node] at heq
      obtain ⟨_, _, hheaders, heq⟩ := Outcome.of_bindState heq
      obtain ⟨_, _, hdefs, heq⟩ := Outcome.of_bindState heq
      exact .within (of_headers hheaders) (of_definitions hbodies hdefs)
        (hchildren body (.head _) heq)
    | _ => cases hwithin

/-- What every step of laying out keeps, a layout keeps. -/
theorem preserves {P : LayoutState → Prop}
    (hframe : ∀ {s current x params body}, s.layout.frameOf? x = none → P s →
      P (s.withFrame current x params body)) (hstatic : ∀ {s x}, P s → P (s.withStatic x))
    (hlocal : ∀ {s frame f x}, s.layout.frames[frame]? = some f → P s →
      P (s.withLocal frame f x)) (hstray : ∀ {s frame x}, P s → P (s.withStray frame x))
    (hsealed : ∀ {s id}, P s → P (s.withSealed id)) {g : Ground} (h : Lays g s s') (hs : P s)
    : P s' := by
  induction h with
  | noHeader | noDefinition | noNode => exact hs
  | header hnew _ ih => exact ih (hframe hnew hs)
  | noFunction _ _ ih | type _ ih | inner _ _ ih => exact ih hs
  | static _ ih => exact ih (hstatic hs)
  | stacked hf _ _ ih => exact ih (hlocal hf hs)
  | stray _ _ ih => exact ih (hstray hs)
  | external _ ih => exact ih (hsealed hs)
  | function _ _ ihb ih => exact ih (hsealed (ihb hs))
  | within _ _ _ ihh ihd ihb => exact ihb (ihd (ihh hs))
  | nodes _ _ ihn ihns => exact ihns (ihn hs)

/-- A finished layout has a derivation: first the frames of the functions on top level,
then all definitions. -/
theorem of_build {supply supply' : Supply} {p : Source.Program} {layout : Layout}
    (h : Layout.build supply p = .ok (layout, supply')) :
    ∃ s, Lays (.headers none p.defs) ⟨.empty, supply⟩ s ∧
      Lays (.definitions none p.defs) s ⟨layout, supply'⟩ := by
  unfold Layout.build LayOut.scope at h
  cases hscope : (do LayOut.declareFunctions none p.defs; LayOut.definitions none p.defs :
      LayOut Unit) ⟨.empty, supply⟩ with
  | error e =>
    rw [hscope] at h
    cases h
  | ok r =>
    rw [hscope] at h
    cases h
    obtain ⟨_, s, hheaders, hdefs⟩ := Outcome.of_bindState hscope
    exact ⟨s, of_headers hheaders, of_definitions (fun _ _ n _ => of_node n) hdefs⟩

end Lays

end TreeCode
