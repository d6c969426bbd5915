/-
# Lexical structure of a layout

A layout mirrors the nesting of the functions of a program. There is one frame for every
function. Its parent is the frame of the innermost function around, which is there before it,
and its level counts the functions around. A variable has a place in the frame of the
innermost function around it, wherever in its body the `where` stands, and a parameter in that
of its own function; what stands inside no function is static data.

A frame is sealed when the body of its function has been laid out. Whatever is declared later
belongs to other frames: those of the functions around were declared before and are still
open, and those of the functions listed beside it are different ones. `LayoutState.Ready` is
what this needs of the functions of a list, and `LayoutState.Keeps` says that open frames stay
open. So no program, well-scoped or not, runs into a sealed frame.
-/

import TreeCode.Proofs.Layout.Slots

namespace TreeCode

open Source (Declared Node Routine Symbol)

/-- The function that a node declares. -/
def Source.Node.function? : Node → Option Symbol
  | .funDecl x _ _ => some x
  | _ => none

namespace LayoutState

variable {s s' s₁ : LayoutState} {x y : Symbol} {i j k : Nat}

/-- Frames are numbered by their positions, and come after the frames of the functions
around. -/
def Ordered (s : LayoutState) : Prop :=
  ∀ (i : Nat) (f : FrameRecord), s.bare[i]? = some f → f.id = i ∧ ∀ j, f.parent = some j → j < i

theorem Ordered.congr (h : s.Ordered) (hbare : s'.bare = s.bare) : s'.Ordered := by
  rw [Ordered, hbare]
  exact h

theorem Ordered.withFrame (h : s.Ordered) (current : Option Nat) (x : Symbol)
    (params : List Symbol) (body : Option Node) : (s.withFrame current x params body).Ordered := by
  intro i f hf
  rw [bare_withFrame, List.getElem?_append] at hf
  split at hf
  · exact h i f hf
  next hge =>
    rw [List.getElem?_singleton] at hf
    split at hf
    next hi =>
      obtain rfl : i = s.layout.frames.size := by
        rw [length_bare] at hge hi
        omega
      cases hf
      refine ⟨rfl, fun j hj => ?_⟩
      obtain ⟨g, hg, rfl⟩ := Option.map_eq_some_iff.1 hj
      obtain ⟨c, -, hg⟩ := Option.bind_eq_some_iff.1 hg
      have hid : g.id = c := (h c g.bare (by rw [getElem?_bare, hg, Option.map_some])).1
      rw [hid]
      exact (Array.getElem?_eq_some_iff.1 hg).1
    next => cases hf

/-- The frame of a function is at a position. -/
def FrameAt (s : LayoutState) (x : Symbol) (i : Nat) : Prop :=
  ∃ f, s.bare.find? (fun f => f.decl.id == x.id) = some f ∧ s.bare[i]? = some f

theorem map_frameOf? (s : LayoutState) (x : Symbol) :
    (s.layout.frameOf? x).map (·.bare) = s.bare.find? fun f => f.decl.id == x.id := by
  rw [Layout.frameOf?, ← Array.find?_toList, bare, List.find?_map]
  rfl

theorem FrameAt.mono (h : s.FrameAt x i) (hframes : s.bare <+: s'.bare) : s'.FrameAt x i := by
  obtain ⟨f, hfound, hf⟩ := h
  obtain ⟨more, hmore⟩ := hframes
  refine ⟨f, ?_, ?_⟩
  · rw [← hmore, List.find?_append, hfound, Option.some_or]
  · rw [← hmore, List.getElem?_append_left (List.getElem?_eq_some_iff.1 hf).1, hf]

theorem FrameAt.frameId_eq (h : s.FrameAt x i) (hs : s.Ordered) : s.frameId x = i := by
  obtain ⟨f, hfound, hf⟩ := h
  rw [← map_frameOf?, Option.map_eq_some_iff] at hfound
  obtain ⟨g, hg, rfl⟩ := hfound
  have hid : g.id = i := (hs i g.bare hf).1
  rw [frameId, hg, Option.map_some, Option.getD_some, hid]

/-- The frame at a position is that of one function. -/
theorem FrameAt.id_eq (h : s.FrameAt x i) (h' : s.FrameAt y i) : x.id = y.id := by
  obtain ⟨f, hfound, hf⟩ := h
  obtain ⟨g, hfound', hg⟩ := h'
  cases hf.symm.trans hg
  have hx := List.find?_some hfound
  have hy := List.find?_some hfound'
  exact (beq_iff_eq.1 hx).symm.trans (beq_iff_eq.1 hy)

/-- Frames at different positions are those of different functions. -/
theorem FrameAt.id_ne (h : s.FrameAt x i) (h' : s.FrameAt y j) (hs : s.Ordered) (hne : i ≠ j) :
    x.id ≠ y.id := by
  intro hid
  obtain ⟨f, hfound, hf⟩ := h
  obtain ⟨g, hfound', hg⟩ := h'
  rw [hid] at hfound
  cases hfound.symm.trans hfound'
  exact hne ((hs i f hf).1.symm.trans (hs j f hg).1)

theorem frameAt_withFrame (hnew : s.layout.frameOf? x = none) (current : Option Nat)
    (params : List Symbol) (body : Option Node) :
    (s.withFrame current x params body).FrameAt x s.layout.frames.size := by
  refine ⟨s.record current x params body, ?_, ?_⟩
  · rw [bare_withFrame, List.find?_append, ← map_frameOf?, hnew, Option.map_none,
      Option.none_or, List.find?_cons_of_pos]
    exact beq_self_eq_true _
  · rw [bare_withFrame, ← length_bare, List.getElem?_concat_length]

/-- A frame is there and takes further variables. -/
def Open (s : LayoutState) (i : Nat) : Prop :=
  ∃ f, s.layout.frames[i]? = some f ∧ f.sealed = false

namespace Open

theorem lt (h : s.Open i) : i < s.layout.frames.size := by
  obtain ⟨f, hf, -⟩ := h
  exact (Array.getElem?_eq_some_iff.1 hf).1

theorem withFrame (h : s.Open i) (current : Option Nat) (x : Symbol) (params : List Symbol)
    (body : Option Node) : (s.withFrame current x params body).Open i := by
  have hlt := h.lt
  obtain ⟨f, hf, hsealed⟩ := h
  refine ⟨f, ?_, hsealed⟩
  change (s.layout.frames.push _)[i]? = some f
  rw [Array.getElem?_push, if_neg (Nat.ne_of_lt hlt), hf]

theorem withLocal (h : s.Open i) {f : FrameRecord} (hsealed : f.sealed = false) (x : Symbol) :
    (s.withLocal j f x).Open i := by
  by_cases hij : j = i
  · subst hij
    refine ⟨{ f with localSize := f.localSize + x.ty.size }, ?_, hsealed⟩
    change (s.layout.frames.setIfInBounds j _)[j]? = _
    rw [Array.getElem?_setIfInBounds_self_of_lt h.lt]
  · obtain ⟨g, hg, hopen⟩ := h
    refine ⟨g, ?_, hopen⟩
    change (s.layout.frames.setIfInBounds j _)[i]? = _
    rw [Array.getElem?_setIfInBounds_ne hij, hg]

theorem withSealed (h : s.Open i) (hne : j ≠ i) : (s.withSealed j).Open i := by
  obtain ⟨f, hf, hsealed⟩ := h
  refine ⟨f, ?_, hsealed⟩
  change (s.layout.frames.modify j _)[i]? = some f
  rw [Array.getElem?_modify, if_neg hne, hf]

end Open

theorem open_withFrame (s : LayoutState) (current : Option Nat) (x : Symbol)
    (params : List Symbol) (body : Option Node) :
    (s.withFrame current x params body).Open s.layout.frames.size :=
  ⟨s.record current x params body, Array.getElem?_push_size, rfl⟩

/-- Laying out has added frames, and has sealed none before position `k` that was open. -/
structure Keeps (k : Nat) (s s' : LayoutState) : Prop where
  ordered : s'.Ordered
  frames : s.bare <+: s'.bare
  unsealed : ∀ i, i < k → s.Open i → s'.Open i

namespace Keeps

theorem refl (hs : s.Ordered) : Keeps k s s :=
  ⟨hs, List.prefix_refl _, fun _ _ h => h⟩

theorem trans (h : Keeps k s s₁) (h' : Keeps j s₁ s') (hle : k ≤ j) : Keeps k s s' :=
  ⟨h'.ordered, h.frames.trans h'.frames, fun i hi hopen =>
    h'.unsealed i (Nat.lt_of_lt_of_le hi hle) (h.unsealed i hi hopen)⟩

theorem mono (h : Keeps j s s') (hle : k ≤ j) : Keeps k s s' :=
  ⟨h.ordered, h.frames, fun i hi => h.unsealed i (Nat.lt_of_lt_of_le hi hle)⟩

theorem size_le (h : Keeps k s s') : s.layout.frames.size ≤ s'.layout.frames.size := by
  rw [← length_bare, ← length_bare]
  exact h.frames.length_le

/-- All open frames of a state are before its end. -/
theorem unsealed_of_size (h : Keeps s.layout.frames.size s s') (hopen : s.Open i) : s'.Open i :=
  h.unsealed i hopen.lt hopen

theorem withStatic (hs : s.Ordered) (x : Symbol) : Keeps k s (s.withStatic x) :=
  ⟨hs.congr rfl, List.prefix_refl _, fun _ _ h => h⟩

theorem withFrame (hs : s.Ordered) (current : Option Nat) (x : Symbol) (params : List Symbol)
    (body : Option Node) : Keeps k s (s.withFrame current x params body) :=
  ⟨hs.withFrame current x params body, bare_withFrame .. ▸ List.prefix_append _ _,
    fun _ _ h => h.withFrame current x params body⟩

theorem withLocal (hs : s.Ordered) {f : FrameRecord} (hf : s.layout.frames[j]? = some f)
    (hsealed : f.sealed = false) (x : Symbol) : Keeps k s (s.withLocal j f x) :=
  ⟨hs.congr (bare_withLocal hf x), bare_withLocal hf x ▸ List.prefix_refl _,
    fun _ _ h => h.withLocal hsealed x⟩

theorem withSealed (hs : s.Ordered) (hle : k ≤ j) : Keeps k s (s.withSealed j) :=
  ⟨hs.congr (bare_withSealed s j), bare_withSealed s j ▸ List.prefix_refl _,
    fun _ hi h => h.withSealed (Nat.ne_of_gt (Nat.lt_of_lt_of_le hi hle))⟩

end Keeps

/-- The functions listed among some definitions are different, and have open frames from
position `k` on. -/
structure Ready (k : Nat) (s : LayoutState) (defs : List Node) : Prop where
  distinct : (defs.filterMap Node.function?).Pairwise fun x y => x.id ≠ y.id
  framed : ∀ x ∈ defs.filterMap Node.function?, ∃ i, k ≤ i ∧ s.FrameAt x i ∧ s.Open i

namespace Ready

variable {n : Node} {defs : List Node}

theorem mono (h : Ready j s defs) (hle : k ≤ j) : Ready k s defs := by
  refine ⟨h.distinct, fun x hx => ?_⟩
  obtain ⟨i, hi, hat, hopen⟩ := h.framed x hx
  exact ⟨i, Nat.le_trans hle hi, hat, hopen⟩

/-- Definitions stay ready if all open frames stay open. -/
theorem keeps (h : Ready k s defs) (hs : Keeps s.layout.frames.size s s') : Ready k s' defs := by
  refine ⟨h.distinct, fun x hx => ?_⟩
  obtain ⟨i, hi, hat, hopen⟩ := h.framed x hx
  exact ⟨i, hi, hat.mono hs.frames, hs.unsealed_of_size hopen⟩

theorem tail (h : Ready k s (n :: defs)) : Ready k s defs := by
  cases hn : n.function? with
  | none =>
    have heq : (n :: defs).filterMap Node.function? = defs.filterMap Node.function? :=
      List.filterMap_cons_none hn
    exact ⟨heq ▸ h.distinct, heq ▸ h.framed⟩
  | some x =>
    have heq : (n :: defs).filterMap Node.function? = x :: defs.filterMap Node.function? :=
      List.filterMap_cons_some hn
    refine ⟨(List.pairwise_cons.1 (heq ▸ h.distinct)).2, fun y hy => h.framed y ?_⟩
    rw [heq]
    exact List.mem_cons_of_mem _ hy

/-- Sealing the frame of the first function leaves those of the others open. -/
theorem withSealed {params : List Symbol} {body : Option Node}
    (h : Ready k s (.funDecl x params body :: defs)) (hs : s.Ordered) :
    k ≤ s.frameId x ∧ Ready k (s.withSealed (s.frameId x)) defs := by
  obtain ⟨i, hi, hat, -⟩ := h.framed x List.mem_cons_self
  rw [hat.frameId_eq hs]
  refine ⟨hi, h.tail.distinct, fun y hy => ?_⟩
  obtain ⟨j, hj, hat', hopen⟩ := h.tail.framed y hy
  have hframes : s.bare <+: (s.withSealed i).bare := bare_withSealed s i ▸ List.prefix_refl _
  refine ⟨j, hj, hat'.mono hframes, hopen.withSealed ?_⟩
  rintro rfl
  exact (List.pairwise_cons.1 h.distinct).1 y hy (hat.id_eq hat')

end Ready

end LayoutState

namespace LayOut

/-- A step of laying out ends in a state with a property, or stops for another reason than a
sealed frame. -/
inductive Ends (Q : LayoutState → Prop) : Except LayoutError (Unit × LayoutState) → Prop
  | done {s' : LayoutState} : Q s' → Ends Q (.ok ((), s'))
  | stopped {e : LayoutError} : (∀ label, e ≠ .sealedFrame label) → Ends Q (.error e)

namespace Ends

variable {Q R : LayoutState → Prop}

theorem imp {r : Except LayoutError (Unit × LayoutState)} (h : Ends Q r) (hQ : ∀ s, Q s → R s) :
    Ends R r := by
  cases h with
  | done hs => exact .done (hQ _ hs)
  | stopped he => exact .stopped he

theorem bind {x y : LayOut Unit} {s : LayoutState} (h : Ends Q (x s))
    (h' : ∀ s₁, Q s₁ → Ends R (y s₁)) : Ends R ((do x; y : LayOut Unit) s) := by
  change Ends R (x s >>= fun r => y r.2)
  generalize x s = r at h
  cases h with
  | done hs => exact h' _ hs
  | stopped he => exact .stopped he

end Ends

open LayoutState (Keeps Ordered Ready)

variable {current : Option Nat} (defs : List Node) {k : Nat} {s : LayoutState}

/-- Functions that are listed together get frames of their own behind all others. -/
theorem declareFunctions_ends (hs : s.Ordered) :
    Ends (fun s' => Keeps s.layout.frames.size s s' ∧ Ready s.layout.frames.size s' defs)
      (declareFunctions current defs s) := by
  induction defs generalizing s with
  | nil => exact .done ⟨.refl hs, List.Pairwise.nil, fun _ hx => absurd hx List.not_mem_nil⟩
  | cons n defs ih =>
    cases n with
    | funDecl x params body =>
      rw [declareFunctions]
      refine Ends.bind (Q := fun s₁ => s.layout.frameOf? x = none ∧
        s₁ = s.withFrame current x params body) ?_ ?_
      · rw [declareFunction_eq]
        split
        next => exact .stopped fun _ h => by cases h
        next hnew => exact .done ⟨by simpa using hnew, rfl⟩
      rintro _ ⟨hnew, rfl⟩
      have hfirst : Keeps s.layout.frames.size s (s.withFrame current x params body) :=
        .withFrame hs current x params body
      refine (ih hfirst.ordered).imp ?_
      rintro s' ⟨hkeeps, hready⟩
      have hsize : (s.withFrame current x params body).layout.frames.size =
          s.layout.frames.size + 1 := Array.size_push _
      rw [hsize] at hkeeps hready
      have hat := (LayoutState.frameAt_withFrame hnew current params body).mono hkeeps.frames
      refine ⟨hfirst.trans hkeeps (Nat.le_succ _), ?_, ?_⟩
      · refine List.pairwise_cons.2 ⟨fun y hy => ?_, hready.distinct⟩
        obtain ⟨j, hj, hat', -⟩ := hready.framed y hy
        exact hat.id_ne hat' hkeeps.ordered (Nat.ne_of_lt hj)
      · intro y hy
        rcases List.mem_cons.1 hy with rfl | hy
        · exact ⟨_, Nat.le_refl _, hat, hkeeps.unsealed _ (Nat.lt_succ_self _)
            (s.open_withFrame current y params body)⟩
        · exact (hready.mono (Nat.le_succ _)).framed y hy
    | _ => exact (ih hs).imp fun _ h => ⟨h.1, h.2.distinct, h.2.framed⟩

/-- The current frame, if there is one, is open and comes before some position. -/
def Inside (current : Option Nat) (k : Nat) (s : LayoutState) : Prop :=
  ∀ i, current = some i → i < k ∧ s.Open i

theorem Inside.keeps {j : Nat} {s' : LayoutState} (h : Inside current k s) (hs : Keeps k s s')
    (hle : k ≤ j) : Inside current j s' := by
  intro i hi
  obtain ⟨hlt, hopen⟩ := h i hi
  exact ⟨Nat.lt_of_lt_of_le hlt hle, hs.unsealed i hlt hopen⟩

theorem declareVar_ends (hs : s.Ordered) (hin : Inside current k s) (x : Symbol)
    : Ends (fun s' => ∀ j, Keeps j s s') (declareVar current x s) := by
  cases current with
  | none =>
    rw [declareVar_none]
    exact .done fun _ => .withStatic hs x
  | some i =>
    obtain ⟨-, f, hf, hsealed⟩ := hin i rfl
    rw [declareVar_of_some hf, hsealed]
    exact .done fun _ => .withLocal hs hf hsealed x

/-- What laying out a node comes to, in a frame that is open. -/
def NodeEnds (n : Node) : Prop :=
  ∀ (current : Option Nat) (s : LayoutState), s.Ordered → Inside current s.layout.frames.size s →
    Ends (Keeps s.layout.frames.size s) (node current n s)

/-- Laying out a list of definitions seals the frames of its functions and no others. -/
theorem definitions_ends (hs : s.Ordered)
    (hbodies : ∀ x params body, .funDecl x params (some body) ∈ defs → NodeEnds body)
    (hin : Inside current k s) (hready : Ready k s defs) :
    Ends (Keeps k s) (definitions current defs s) := by
  induction defs generalizing s with
  | nil =>
    rw [definitions]
    exact .done (.refl hs)
  | cons n defs ih =>
    -- what is left to do after a step that keeps everything before `k` open
    have hrest : ∀ {s₁ : LayoutState}, Keeps k s s₁ → Ready k s₁ defs →
        Ends (Keeps k s) (definitions current defs s₁) := by
      intro s₁ hkeeps hready
      refine (ih hkeeps.ordered (fun x params body hmem => hbodies x params body
        (List.mem_cons_of_mem _ hmem)) (hin.keeps hkeeps (Nat.le_refl k)) hready).imp ?_
      exact fun s' h => hkeeps.trans h (Nat.le_refl k)
    cases n with
    | varDecl x =>
      rw [definitions]
      refine (declareVar_ends hs hin x).bind fun s₁ hkeeps => ?_
      exact hrest (hkeeps k) (hready.tail.keeps (hkeeps _))
    | typeDecl x =>
      rw [definitions]
      exact hrest (.refl hs) hready.tail
    | funDecl x params body =>
      cases body with
      | none =>
        obtain ⟨hle, hnext⟩ := hready.withSealed hs
        rw [definitions]
        exact hrest (.withSealed hs hle) hnext
      | some body =>
        obtain ⟨i, hi, hat, hopen⟩ := hready.framed x List.mem_cons_self
        rw [definitions]
        change Ends (Keeps k s) ((do node (some (s.frameId x)) body
                                     sealFrame (s.frameId x)
                                     definitions current defs : LayOut Unit) s)
        have hframe : s.frameId x = i := hat.frameId_eq hs
        refine Ends.bind (hbodies x params body List.mem_cons_self (some (s.frameId x)) s hs
          ?_) fun s₁ hkeeps => ?_
        · rintro _ ⟨⟩
          rw [hframe]
          exact ⟨hopen.lt, hopen⟩
        · have hframe₁ : s₁.frameId x = s.frameId x := by
            rw [hframe, (hat.mono hkeeps.frames).frameId_eq hkeeps.ordered]
          obtain ⟨hle, hnext⟩ := (hready.keeps hkeeps).withSealed hkeeps.ordered
          rw [hframe₁] at hle hnext
          have hk : k ≤ s.layout.frames.size := Nat.le_trans hi (Nat.le_of_lt hopen.lt)
          exact hrest ((hkeeps.mono hk).trans (.withSealed hkeeps.ordered hle)
            (Nat.le_refl k)) hnext
    | _ => exact .stopped fun _ h => by cases h

theorem nodes_ends {ns : List Node} (h : ∀ n ∈ ns, NodeEnds n) (hs : s.Ordered)
    (hin : Inside current s.layout.frames.size s) :
    Ends (Keeps s.layout.frames.size s) (nodes current ns s) := by
  induction ns generalizing s with
  | nil =>
    rw [nodes]
    exact .done (.refl hs)
  | cons n ns ih =>
    rw [nodes]
    refine (h n List.mem_cons_self current s hs hin).bind fun s₁ hkeeps => ?_
    refine (ih (fun m hm => h m (List.mem_cons_of_mem _ hm)) hkeeps.ordered
      (hin.keeps hkeeps hkeeps.size_le)).imp fun s' hlater => ?_
    exact hkeeps.trans hlater hkeeps.size_le

/-- Laying out a node in an open frame closes none of the frames there are. -/
theorem node_ends : ∀ n : Node, NodeEnds n := by
  refine Node.inductOn fun n hchildren hbodies current s hs hin => ?_
  by_cases hn : n.isWithin = true
  · cases n with
    | within body defs =>
      rw [node]
      refine (declareFunctions_ends defs hs).bind fun s₁ hheaders => ?_
      obtain ⟨hfirst, hready⟩ := hheaders
      refine (definitions_ends defs hfirst.ordered hbodies
        (hin.keeps hfirst (Nat.le_refl _)) hready).bind fun s₂ hdefs => ?_
      have hkeeps := hfirst.trans hdefs (Nat.le_refl _)
      refine (hchildren body List.mem_cons_self current s₂ hkeeps.ordered
        (hin.keeps hkeeps hkeeps.size_le)).imp fun s' hlater => ?_
      exact hkeeps.trans hlater hkeeps.size_le
    | _ => cases hn
  · rw [node_eq (Bool.eq_false_iff.2 hn)]
    exact nodes_ends hchildren hs hin

end LayOut

namespace Layout

/-- No program runs into a sealed frame. -/
theorem build_ne_sealed (supply : Supply) (p : Source.Program) (label : String) :
    build supply p ≠ .error (.sealedFrame label) := by
  have hempty : LayoutState.Ordered ⟨.empty, supply⟩ := fun _ _ hf => nomatch hf
  have hends : LayOut.Ends (fun _ => True) (LayOut.scope none p.defs ⟨.empty, supply⟩) := by
    refine (LayOut.declareFunctions_ends p.defs hempty).bind fun s hheaders => ?_
    exact (LayOut.definitions_ends p.defs hheaders.1.ordered
      (fun _ _ body _ => LayOut.node_ends body) (by rintro _ ⟨⟩) hheaders.2).imp
        fun _ _ => trivial
  unfold build
  generalize LayOut.scope none p.defs ⟨.empty, supply⟩ = r at hends
  cases hends with
  | done _ => exact fun h => by cases h
  | stopped he =>
    intro h
    cases h
    exact he label rfl

/-- A frame is that of a function inside some others: its parent is the frame of the innermost
of them. -/
def Hangs (layout : Layout) (f : FrameRecord) : List Routine → Prop
  | [] => f.parent = none ∧ f.level = 1
  | q :: _ => ∃ g, layout.frameOf? q.decl = some g ∧ f.parent = some g.id ∧ g.id < f.id ∧
      f.level = g.level + 1

/-- A layout mirrors the nesting of some declarations. -/
structure Lexical (layout : Layout) (ds : List Declared) : Prop where
  /-- Frames are numbered by their positions. -/
  numbered : ∀ (i : Nat) (f : FrameRecord), layout.frames[i]? = some f → f.id = i
  /-- Every function has one frame. -/
  framed : ∀ outer r, ⟨outer, .routine r⟩ ∈ ds →
    ∃ f, layout.frameOf? r.decl = some f ∧ ∀ g ∈ layout.frames, g.decl.id = r.decl.id → g = f
  /-- Every frame is that of a function. -/
  owned : ∀ f ∈ layout.frames, ∃ outer r, ⟨outer, .routine r⟩ ∈ ds ∧ f.decl = r.decl
  hangs : ∀ outer r f, ⟨outer, .routine r⟩ ∈ ds → layout.frameOf? r.decl = some f →
    layout.Hangs f outer
  /-- The level of a frame counts the functions around, and itself. -/
  level : ∀ outer r f, ⟨outer, .routine r⟩ ∈ ds → layout.frameOf? r.decl = some f →
    f.level = outer.length + 1
  static : ∀ x, ⟨[], .var x⟩ ∈ ds → ∃ l, layout.access? x = some (.global l x.ty.size)
  /-- A variable belongs to the frame of the innermost function around it. -/
  stacked : ∀ r outer x, ⟨r :: outer, .var x⟩ ∈ ds → ∃ f offset,
    layout.frameOf? r.decl = some f ∧ layout.access? x = some (.localSlot f.id offset x.ty.size)
  params : ∀ outer r f k x, ⟨outer, .routine r⟩ ∈ ds → layout.frameOf? r.decl = some f →
    r.params[k]? = some x →
    layout.access? x = some (.paramSlot f.id (FrameRecord.paramOffset k) x.ty.isAggregate)

variable {supply laid : Supply} {p : Source.Program} {layout : Layout} {outer : List Routine}
  {r : Routine} {f : FrameRecord} {i : Nat}

theorem ordered_of_build (hbuild : build supply p = .ok (layout, laid)) :
    LayoutState.Ordered ⟨layout, laid⟩ := by
  obtain ⟨s, hheaders, hdefs⟩ := Lays.of_build hbuild
  have hstep : ∀ {g : Ground} {s s' : LayoutState}, Lays g s s' → s.Ordered → s'.Ordered :=
    fun h hs => h.preserves (P := LayoutState.Ordered) (fun _ hs => hs.withFrame _ _ _ _)
      (fun hs => hs.congr rfl) (fun hf hs => hs.congr (LayoutState.bare_withLocal hf _))
      (fun hs => hs.congr rfl) (fun hs => hs.congr (LayoutState.bare_withSealed _ _)) hs
  exact hstep hdefs (hstep hheaders fun _ _ hf => nomatch hf)

section

variable (hbuild : build supply p = .ok (layout, laid))

include hbuild

/-- The frame that some functions are laid out in is that of the innermost. -/
theorem frameOf?_of_encloses
    (hin : Encloses (LayoutState.bare ⟨layout, laid⟩) (r :: outer) (some i)) :
    ∃ f, layout.frameOf? r.decl = some f ∧ f.id = i ∧ f.Describes r outer ∧
      Encloses (LayoutState.bare ⟨layout, laid⟩) outer f.parent := by
  obtain ⟨j, g, hj, hg, hid, hdescribes, houter⟩ := hin
  cases hj
  obtain ⟨f, hf, rfl⟩ := exists_frameOf? hbuild (List.mem_of_getElem? hg)
  have hdecl : f.bare.decl = r.decl := hdescribes.decl
  rw [hdecl] at hf
  exact ⟨f, hf, hid, ⟨hdescribes.decl, hdescribes.params, hdescribes.body, hdescribes.level⟩,
    houter⟩

variable (honce : (p.declares.map (·.item.decl.id)).Nodup)

include honce

section

variable (hr : ⟨outer, .routine r⟩ ∈ p.declares) (hf : layout.frameOf? r.decl = some f)
include hr hf

/-- The frame of a function knows the functions around. -/
theorem encloses_of_declared : layout.frames[f.id]? = some f ∧
      f.Describes r outer ∧ Encloses (LayoutState.bare ⟨layout, laid⟩) outer f.parent := by
  obtain ⟨i, hi⟩ := Array.getElem?_of_mem (Array.mem_of_find?_eq_some hf)
  have hbare : (LayoutState.bare ⟨layout, laid⟩)[i]? = some f.bare := by
    rw [LayoutState.getElem?_bare, hi, Option.map_some]
  obtain ⟨r', outer', hr', hdecl, hin⟩ := (originates_of_build hbuild).frames i f.bare hbare
  have hdecl : f.decl = r'.decl := hdecl
  have hid : r'.decl.id = r.decl.id := hdecl ▸ id_of_frameOf? hf
  cases List.inj_on_of_nodup_map honce hr' hr hid
  obtain ⟨g, hg, rfl, hdescribes, houter⟩ := frameOf?_of_encloses hbuild hin
  cases hf.symm.trans hg
  exact ⟨hi, hdescribes, houter⟩

theorem hangs_of_declared : layout.Hangs f outer := by
  obtain ⟨hat, hdescribes, houter⟩ := encloses_of_declared hbuild honce hr hf
  cases outer with
  | nil => exact ⟨houter, hdescribes.level⟩
  | cons q outer =>
    obtain ⟨j, hparent⟩ : ∃ j, f.parent = some j := by
      obtain ⟨j, -, hparent, -⟩ := houter
      exact ⟨j, hparent⟩
    rw [hparent] at houter
    obtain ⟨g, hg, rfl, hdescribes', -⟩ := frameOf?_of_encloses hbuild houter
    have hbare : (LayoutState.bare ⟨layout, laid⟩)[f.id]? = some f.bare := by
      rw [LayoutState.getElem?_bare, hat, Option.map_some]
    refine ⟨g, hg, hparent, (ordered_of_build hbuild f.id f.bare hbare).2 _ hparent, ?_⟩
    rw [hdescribes.level, hdescribes'.level, List.length_cons]

end

/-- The variables of a `where` belong to the function around. -/
theorem access?_of_stacked {x : Symbol} (hx : ⟨r :: outer, .var x⟩ ∈ p.declares) :
    ∃ f offset, layout.frameOf? r.decl = some f ∧
      layout.access? x = some (.localSlot f.id offset x.ty.size) := by
  obtain ⟨b, hb⟩ := access?_of_declared hbuild hx
  cases placed_of_once hbuild honce hx hb with
  | localSlot hin _ =>
    obtain ⟨f, hf, rfl, -, -⟩ := frameOf?_of_encloses hbuild hin
    exact ⟨f, _, hf, hb⟩

end

/-- Layouts mirror the nesting of functions. Laying out never runs into a sealed frame, and if
it succeeds on a program that lists every declaration once, then frames and places are those
that the nesting of the declarations calls for. -/
theorem nesting_mirrored (supply : Supply) (p : Source.Program) :
    (∀ label, build supply p ≠ .error (.sealedFrame label)) ∧
    ((p.declares.map (·.item.decl.id)).Nodup → ∀ layout laid,
      build supply p = .ok (layout, laid) → layout.Lexical p.declares) := by
  refine ⟨build_ne_sealed supply p, fun honce layout laid hbuild => ?_⟩
  constructor
  case numbered => exact fun i f hf => (routine_of_frame hbuild hf).1
  case framed =>
    intro outer r hr
    obtain ⟨f, hf, -⟩ := frameOf?_of_declared hbuild hr
    refine ⟨f, hf, fun g hg hid => ?_⟩
    exact List.inj_on_of_nodup_map (decls_nodup hbuild) (Array.mem_def.1 hg)
      (Array.mem_def.1 (Array.mem_of_find?_eq_some hf)) (hid.trans (id_of_frameOf? hf).symm)
  case owned =>
    intro f hf
    obtain ⟨i, hi⟩ := Array.getElem?_of_mem hf
    obtain ⟨-, ⟨r, outer, hr, hdecl, -⟩, -⟩ := routine_of_frame hbuild hi
    exact ⟨outer, r, hr, hdecl⟩
  case hangs => exact fun outer r f hr hf => hangs_of_declared hbuild honce hr hf
  case level => exact fun outer r f hr hf => (encloses_of_declared hbuild honce hr hf).2.1.level
  case static => exact fun x hx => access?_of_static hbuild honce hx
  case stacked => exact fun r outer x hx => access?_of_stacked hbuild honce hx
  case params =>
    intro outer r f k x hr hf hx
    obtain ⟨hat, hdescribes, -⟩ := encloses_of_declared hbuild honce hr hf
    exact param_access hbuild honce hat (hdescribes.params ▸ hx)

end Layout

/-- The function inside the other one has its frame on the second level, and the variable of
the `where` that it is listed in stays with the outer function. -/
theorem Sample.chest_mirrored :
    ∃ layout laid, Layout.build .empty chest = .ok (layout, laid) ∧
      (chest.declares.map (·.item.decl.id)).Nodup ∧ layout.Lexical chest.declares ∧
      (layout.frames.toList.map fun f => (f.decl.name, f.parent, f.level)) =
        [("f", none, 1), ("_main", none, 1), ("g", some 0, 2)] ∧
      layout.access? ⟨5, "x", .array 3 .integer⟩ = some (.localSlot 0 32 24) := by
  have honce : (chest.declares.map (·.item.decl.id)).Nodup := by decide +kernel
  have hshape : ((Layout.build .empty chest).toOption.map fun l =>
      decide ((l.1.frames.toList.map fun f => (f.decl.name, f.parent, f.level)) =
          [("f", none, 1), ("_main", none, 1), ("g", some 0, 2)] ∧
        l.1.access? ⟨5, "x", .array 3 .integer⟩ = some (.localSlot 0 32 24))) = some true := by
    decide +kernel
  obtain ⟨⟨layout, laid⟩, hbuild, hshape⟩ := Outcome.of_toOption_map hshape
  exact ⟨layout, laid, hbuild, honce, (Layout.nesting_mirrored .empty chest).2 honce _ _ hbuild,
    of_decide_eq_true hshape⟩

end TreeCode
