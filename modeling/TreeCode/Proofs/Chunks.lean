/-
# One chunk for each definition

Lowering a program makes one chunk of code for each function that has a body, one chunk of
data for each variable on top level, and one for each string literal; an external function
has none. All chunks have different names, so that they can be indexed.

This needs one thing of the program. The counter of a loop is lowered each time it is used,
so a function that is defined in a counter is lowered several times. `Sample.recount` is such
a program: its chunks have no index. A program in which no counter defines a function counts
plainly, and for those the statement holds wherever else a `where` may stand.
-/

import Mathlib.Data.List.Pairwise
import TreeCode.Proofs.Index
import TreeCode.Proofs.Layout.Globals
import TreeCode.Proofs.Layout.Slots
import TreeCode.Proofs.Lowering.Origin

namespace TreeCode

open IR (Chunk Stmt)
open Source (Declared Node Routine Symbol)

namespace Source

/-- Whether a node inside some functions is no loop whose counter defines a function. -/
def Node.CountsPlainly (inside : List Routine) : Node → Prop
  | .forLoop counter _ _ _ _ => ∀ d ∈ counter.declares inside, d.hasBody = false
  | _ => True

/-- Whether no loop of a function has a counter that defines a function. -/
def Declared.CountsPlainly : Declared → Prop
  | ⟨outer, .routine ⟨x, params, some body⟩⟩ =>
    ∀ n ∈ body.own, n.CountsPlainly (⟨x, params, some body⟩ :: outer)
  | _ => True

/-- No loop of a program has a counter that defines a function with a body. -/
def Program.CountsPlainly (p : Program) : Prop :=
  ∀ d ∈ p.declares, d.CountsPlainly

instance (inside : List Routine) (n : Node) : Decidable (n.CountsPlainly inside) :=
  match n with
  | .forLoop _ _ _ _ _ => inferInstanceAs (Decidable (∀ d ∈ _, _))
  | .number _ | .logical _ | .string _ | .ident _ | .call _ _ | .binary _ _ _ | .unary _ _
  | .member _ _ | .sequence _ | .within _ _ | .branch _ _ _ _ | .whileLoop _ _ | .funDecl _ _ _
  | .varDecl _ | .parDecl _ | .typeDecl _ => .isTrue trivial

instance (d : Declared) : Decidable d.CountsPlainly :=
  match d with
  | ⟨_, .routine ⟨_, _, some _⟩⟩ => inferInstanceAs (Decidable (∀ n ∈ _, _))
  | ⟨_, .routine ⟨_, _, none⟩⟩ => .isTrue trivial
  | ⟨_, .var _⟩ => .isTrue trivial
  | ⟨_, .param _⟩ => .isTrue trivial

instance (p : Program) : Decidable p.CountsPlainly :=
  inferInstanceAs (Decidable (∀ d ∈ _, _))

namespace Node

theorem declares_subset {m n : Node} (h : m ∈ n.children) (outer : List Routine) :
    m.declares outer ⊆ n.declares outer := by
  cases hn : n.isWithin with
  | false =>
    rw [declares_eq hn]
    exact fun d hd => mem_declaresAll.2 ⟨m, h, hd⟩
  | true =>
    cases n with
    | within body defs =>
      obtain rfl := List.mem_singleton.1 h
      exact List.subset_append_right _ _
    | _ => cases hn

/-- What is declared in a part of a node is declared in the node. -/
theorem declares_subset_of_own (n : Node) (outer : List Routine) :
    ∀ m ∈ n.own, m.declares outer ⊆ n.declares outer := by
  refine inductOn (P := fun n => ∀ m ∈ n.own, m.declares outer ⊆ n.declares outer)
    (fun n hchildren _ m hm => ?_) n
  rw [own_eq n] at hm
  rcases List.mem_cons.1 hm with rfl | hm
  · exact List.Subset.refl _
  · obtain ⟨k, hk, hm⟩ := mem_ownAll.1 hm
    exact List.Subset.trans (hchildren k hk m hm) (declares_subset hk outer)

theorem declaresAll_append (ms ns : List Node) (outer : List Routine) :
    declaresAll (ms ++ ns) outer = declaresAll ms outer ++ declaresAll ns outer := by
  induction ms with
  | nil => rfl
  | cons m ms ih => rw [List.cons_append, declaresAll, declaresAll, ih, List.append_assoc]

end Node

end Source

/-- The label of a static place. -/
def Access.label? : Access → Option Label
  | .global l _ => some l
  | _ => none

/-- The label of the chunk that a declaration is to have. -/
def Source.Declared.chunkLabel? (layout : Layout) : Declared → Option Label
  | ⟨_, .routine ⟨x, _, some _⟩⟩ => (layout.frameOf? x).map (·.label)
  | ⟨_, .var x⟩ => (layout.access? x).bind Access.label?
  | _ => none

/-- The label of a chunk that is no literal. -/
def IR.Chunk.definition? (c : Chunk) : Option Label :=
  if c.literal?.isSome then none else some c.label

/-- Between two states of lowering, the chunks of some declarations are made, in any order,
and besides them literals with new labels. -/
structure Emits (layout : Layout) (ds : List Declared) (s s' : LowerState) : Prop where
  definitions : (s'.chunks.filterMap Chunk.definition?).Perm
    (s.chunks.filterMap Chunk.definition? ++ ds.filterMap (·.chunkLabel? layout))
  literals : ∀ n, ((literalLabels s'.chunks).map (·.name)).count n + s.supply.mark (.ofName n) ≤
    ((literalLabels s.chunks).map (·.name)).count n + s'.supply.mark (.ofName n)

namespace Emits

variable {layout : Layout} {ds ds' : List Declared} {s s₁ s' : LowerState}

theorem refl (s : LowerState) : Emits layout [] s s where
  definitions := by simp
  literals _ := Nat.le_refl _

theorem append (h : Emits layout ds s s₁) (h' : Emits layout ds' s₁ s') :
    Emits layout (ds ++ ds') s s' where
  definitions := by
    refine h'.definitions.trans ?_
    rw [List.filterMap_append, ← List.append_assoc]
    exact h.definitions.append_right _
  literals n := by
    have hfirst := h.literals n
    have hsecond := h'.literals n
    omega

/-- Declarations without a chunk do not matter, nor does their order. -/
theorem congr (h : Emits layout ds s s')
    (hperm : (ds.filterMap (·.chunkLabel? layout)).Perm (ds'.filterMap (·.chunkLabel? layout))) :
    Emits layout ds' s s' where
  definitions := h.definitions.trans (hperm.append_left _)
  literals := h.literals

theorem label {l : Label} (h : Lower.label s = .ok (l, s')) : Emits layout [] s s' := by
  cases h
  refine ⟨by simp, fun n => Nat.add_le_add_left ?_ _⟩
  exact Nat.le_trans (Nat.le_add_left _ _) (s.supply.label_count_le (.ofName n))

theorem temp {t : Temp} (h : Lower.temp s = .ok (t, s')) : Emits layout [] s s' := by
  cases h
  exact ⟨by simp, fun _ => Nat.le_refl _⟩

theorem string {bytes : List UInt8} {e : IR.Expr} (h : Lower.string bytes s = .ok (e, s')) :
    Emits layout [] s s' := by
  cases h
  have hne : (bytes ++ [0]).isEmpty = false := by simp
  refine ⟨by simp [Chunk.definition?, Chunk.literal?], fun n => ?_⟩
  have hlit : ∀ size : Word, literalLabels
      (s.chunks ++ [.data s.supply.string.1 size (bytes ++ [0])]) =
        literalLabels s.chunks ++ [s.supply.string.1] := by
    intro size
    simp [literalLabels, Chunk.literal?]
  have hle := s.supply.string_count_le (.ofName n)
  have hname : [s.supply.string.1.name].count n ≤ [s.supply.string.1].count (.ofName n) := by
    have hlabel : s.supply.string.1 = .ofName s.supply.string.1.name := rfl
    by_cases hn : s.supply.string.1.name = n
    · rw [hlabel, ← hn]
      simp
    · simp [List.count_singleton, hn]
  change ((literalLabels (s.chunks ++ [.data s.supply.string.1 _ (bytes ++ [0])])).map _).count n
    + _ ≤ _ + s.supply.string.2.mark (.ofName n)
  rw [hlit, List.map_append, List.count_append, List.map_singleton]
  omega

theorem static {d : Declared} {l : Label} {size : Word} (hd : d.chunkLabel? layout = some l) :
    Emits layout [d] s ⟨s.supply, s.chunks ++ [.data l size []]⟩ := by
  refine ⟨?_, fun n => ?_⟩
  · simp [Chunk.definition?, Chunk.literal?, Chunk.label, hd]
  · simp [literalLabels, Chunk.literal?]

/-- A function has its chunk before the chunks of what its body declares. -/
theorem function {outer : List Routine} {x : Symbol} {params : List Symbol} {body : Node}
    {g : FrameRecord} {supply : Supply} {inner : List Chunk} {code : Stmt}
    (hg : layout.frameOf? x = some g) (hbody : Emits layout ds ⟨s.supply, []⟩ ⟨supply, inner⟩)
    (hrest : Emits layout ds' ⟨supply, s.chunks ++ .code g.frame code :: inner⟩ s') :
    Emits layout (Routine.header ⟨x, params, some body⟩ outer ++ (ds ++ ds')) s s' := by
  have hheader : (Routine.header ⟨x, params, some body⟩ outer).filterMap (·.chunkLabel? layout) =
      [g.label] := by
    rw [Routine.header, List.filterMap_cons]
    simp [Declared.chunkLabel?, hg, List.filterMap_map]
  have hmake : Emits layout (Routine.header ⟨x, params, some body⟩ outer ++ ds) s
      ⟨supply, s.chunks ++ .code g.frame code :: inner⟩ := by
    refine ⟨?_, fun n => ?_⟩
    · rw [List.filterMap_append, List.filterMap_append, hheader]
      have hdefs := hbody.definitions
      simp only [List.filterMap_nil, List.nil_append] at hdefs
      exact (hdefs.cons g.label).append_left _
    · have hlits := hbody.literals n
      simp only [literalLabels, List.filterMap_append, List.filterMap_cons, List.filterMap_nil,
        Chunk.literal?, List.map_append, List.map_nil, List.count_append, List.count_nil] at hlits ⊢
      omega
  rw [← List.append_assoc]
  exact hmake.append hrest

end Emits

/-- Whether a node inside some functions is no loop whose counter declares something that is
to have a chunk. -/
def Source.Node.Steady (layout : Layout) (inside : List Routine) : Node → Prop
  | .forLoop counter _ _ _ _ =>
    (counter.declares inside).filterMap (·.chunkLabel? layout) = []
  | _ => True

/-- A node inside some functions whose loops are steady and whose declarations are known. -/
structure Source.Node.Fits (layout : Layout) (ds : List Declared) (inside : List Routine)
    (n : Node) : Prop where
  own : ∀ m ∈ n.own, m.Steady layout inside
  declares : n.declares inside ⊆ ds

variable {defs : List Node} {layout : Layout} {item : Source.Item} {ds : List Declared}

theorem Source.Node.Fits.child {inside : List Routine} {m n : Node} (h : n.Fits layout ds inside)
    (hm : m ∈ n.children := by simp) : m.Fits layout ds inside :=
  ⟨fun k hk => h.own k (Node.own_subset hm hk),
    List.Subset.trans (Node.declares_subset hm inside) h.declares⟩

/-- What is needed of something that is lowered inside some functions. -/
def Reading.Fits (layout : Layout) (ds : List Declared) (inside : List Routine) :
    Reading → Prop
  | .value _ n => n.Fits layout ds inside
  | .effect _ n => n.Fits layout ds inside
  | .address _ n => n.Fits layout ds inside
  | .arguments _ ns => ∀ n ∈ ns, n.Fits layout ds inside
  | .effects _ ns => ∀ n ∈ ns, n.Fits layout ds inside
  | .definitions ns => Node.declaresIn ns inside ⊆ ds

/-- The chunks that a derivation makes are those of the declarations in its tree. -/
theorem Lowers.emits {types : TypeTable} {r : Reading} {s s' : LowerState} {o : Lowered}
    (h : Lowers types layout r s o s')
    (hds : ∀ outer x params body, ⟨outer, .routine ⟨x, params, some body⟩⟩ ∈ ds →
      ∀ n ∈ body.own, n.Steady layout (⟨x, params, some body⟩ :: outer)) :
    ∀ {outer}, r.Fits layout ds outer → Emits layout (r.declares outer) s s' := by
  -- a body stands inside its function
  have hinner : ∀ {x params body ns outer},
      Node.declaresIn (.funDecl x params (some body) :: ns) outer ⊆ ds →
        body.Fits layout ds (⟨x, params, some body⟩ :: outer) ∧ Node.declaresIn ns outer ⊆ ds := by
    intro x params body ns outer hsub
    rw [Node.declaresIn, List.append_subset, List.append_subset] at hsub
    exact ⟨⟨hds outer x params body (hsub.1 (List.mem_cons_self ..)), hsub.2.1⟩, hsub.2.2⟩
  induction h with
  | number | logical | nothing | global _ | localSlot _ _ | paramSlot _ _ | reference _ _
  | noArgument | noEffect | noDefinition => exact fun _ => .refl _
  | string h => exact fun _ => .string h
  | aggregate _ _ _ ih | load _ _ _ ih | zero _ _ ih | dropped _ _ ih => exact ih
  | operation _ _ _ _ ihl ihr | assign _ _ _ ihl ihr =>
    exact fun hfit => (ihl hfit.child).append (ihr hfit.child)
  | assigned _ haddr ht _ _ iha ihv =>
    exact fun hfit => (Emits.temp haddr).append ((Emits.temp ht).append ((iha hfit.child).append
      (ihv hfit.child)))
  | plus _ ih | neg _ ih | not _ ih | addr _ ih | member _ ih | deref _ ih =>
    exact fun hfit => ih hfit.child
  | call _ _ ih | sequence _ ih => exact fun hfit => ih fun n hn => hfit.child hn
  | last _ _ _ ihs ihe =>
    intro outer hfit
    refine ((ihs fun n hn => hfit.child (List.mem_append_left _ hn)).append
      (ihe (hfit.child (List.mem_append_right _ (List.mem_singleton.2 rfl))))).congr ?_
    rw [Reading.declares, Reading.declares, Reading.declares, Node.declares,
      Node.declaresAll_append, Node.declaresAll, Node.declaresAll, List.append_nil]
  | chosen _ ht h₁ h₂ h₃ _ _ _ ihc iha ihb =>
    exact fun hfit => (Emits.temp ht).append ((Emits.label h₁).append ((Emits.label h₂).append
      ((Emits.label h₃).append ((ihc hfit.child).append ((iha hfit.child).append
        (ihb hfit.child))))))
  | withinValue _ _ ihd ihe | withinEffect _ _ ihd ihe | withinAddress _ _ ihd ihe =>
    exact fun hfit => (ihd (List.append_subset.1 hfit.declares).1).append (ihe hfit.child)
  | ifThen h₁ h₂ _ _ ihc iht =>
    exact fun hfit => (Emits.label h₁).append ((Emits.label h₂).append ((ihc hfit.child).append
      (iht hfit.child)))
  | ifElse h₁ h₂ _ h₃ _ _ ihc iht ihe =>
    exact fun hfit => (Emits.label h₁).append ((Emits.label h₂).append ((ihc hfit.child).append
      ((Emits.label h₃).append ((iht hfit.child).append (ihe hfit.child)))))
  | whileLoop h₁ h₂ h₃ _ _ ihc ihb =>
    exact fun hfit => (Emits.label h₁).append ((Emits.label h₂).append ((Emits.label h₃).append
      ((ihc hfit.child).append (ihb hfit.child))))
  | forLoop h₁ h₂ h₃ _ _ _ _ _ _ _ _ ih₁ ih₂ ih₃ ih₄ ih₅ ih₆ ih₇ ih₈ =>
    intro outer hfit
    have hcounter := hfit.own _ (Node.mem_own_self _)
    have hall := (Emits.label h₁).append ((Emits.label h₂).append ((Emits.label h₃).append
      ((ih₁ hfit.child).append ((ih₂ hfit.child).append ((ih₃ hfit.child).append
        ((ih₄ hfit.child).append ((ih₅ hfit.child).append ((ih₆ hfit.child).append
          ((ih₇ hfit.child).append (ih₈ hfit.child))))))))))
    -- the counter is lowered four times but is to have no chunk
    refine hall.congr ?_
    simp only [Node.Steady] at hcounter
    simp only [Reading.declares, Node.declares, List.nil_append, List.filterMap_append, hcounter]
    exact (List.perm_append_comm.append_left _).append_left _
  | index _ _ ihi ihb =>
    intro outer hfit
    refine ((ihi hfit.child).append (ihb hfit.child)).congr ?_
    simp only [Reading.declares, Node.declares, List.filterMap_append]
    exact List.perm_append_comm
  | byAddress _ _ _ ihe ihes | byValue _ _ _ ihe ihes | effects _ _ ihe ihes =>
    exact fun hfit => (ihe (hfit _ List.mem_cons_self)).append
      (ihes fun n hn => hfit n (List.mem_cons_of_mem _ hn))
  | @static x l size ns _ _ hx _ ih =>
    intro outer hsub
    have hlabel : Declared.chunkLabel? layout ⟨outer, .var x⟩ = some l := by
      rw [Declared.chunkLabel?, hx]
      rfl
    exact (Emits.static hlabel).append
      (ih (List.Subset.trans (Node.declaresIn_subset _ _ _) hsub))
  | @stacked x a ns _ _ hx hne _ ih =>
    intro outer hsub
    have hlabel : Declared.chunkLabel? layout ⟨outer, .var x⟩ = none := by
      rw [Declared.chunkLabel?, hx]
      cases a with
      | global l size => exact absurd rfl (hne l size)
      | _ => rfl
    refine (ih (List.Subset.trans (Node.declaresIn_subset _ _ _) hsub)).congr ?_
    rw [Reading.declares, Reading.declares, Node.declaresIn, List.filterMap_cons_none hlabel]
  | procedure hg _ _ _ ihb ih | function hg _ _ _ ihb ih =>
    exact fun hsub => .function hg (ihb (hinner hsub).1) (ih (hinner hsub).2)
  | @skipped n ns _ _ hn _ ih =>
    intro outer hsub
    refine (ih (List.Subset.trans (Node.declaresIn_subset _ _ _) hsub)).congr ?_
    cases n with
    | varDecl _ => cases hn
    | funDecl x params body =>
      cases body with
      | some _ => cases hn
      | none =>
        simp [Reading.declares, Node.declaresIn, Routine.header, Declared.chunkLabel?,
          List.filterMap_map]
    | _ => exact .refl _

/-- The name of the label of a static place. -/
def staticName? (entry : Nat × Access) : Option String :=
  entry.2.label?.map (·.name)

/-- The frames and the static places have labels of different names, none of which is free any
more. -/
structure LayoutState.Named (s : LayoutState) : Prop where
  nodup : (s.bare.map (·.label.name) ++ s.layout.accesses.filterMap staticName?).Nodup
  taken : ∀ n ∈ s.bare.map (·.label.name) ++ s.layout.accesses.filterMap staticName?,
    n ∈ s.supply.names

namespace LayoutState.Named

variable {s s' : LayoutState}

/-- Another name that was free may be used. -/
theorem insert (h : s.Named) (name : String)
    (hperm : (s'.bare.map (·.label.name) ++ s'.layout.accesses.filterMap staticName?).Perm
      ((s.supply.named name).1.name ::
        (s.bare.map (·.label.name) ++ s.layout.accesses.filterMap staticName?)))
    (hsupply : s'.supply = (s.supply.named name).2) : s'.Named := by
  constructor
  · rw [hperm.nodup_iff, List.nodup_cons]
    exact ⟨fun hmem => s.supply.named_notMem name (h.taken _ hmem), h.nodup⟩
  · intro n hn
    rw [hsupply]
    rcases List.mem_cons.1 (hperm.mem_iff.1 hn) with rfl | hn
    · exact s.supply.named_mem name
    · exact s.supply.names_subset_named name (h.taken n hn)

theorem congr (h : s.Named) (hbare : s'.bare = s.bare)
    (hstatic : s'.layout.accesses.filterMap staticName? = s.layout.accesses.filterMap staticName?)
    (hsupply : s'.supply = s.supply) : s'.Named := by
  constructor
  · rw [hbare, hstatic]
    exact h.nodup
  · rw [hbare, hstatic, hsupply]
    exact h.taken

theorem staticName_paramAccesses (frame : Nat) : ∀ (index : Nat) (params : List Symbol),
    (paramAccesses frame index params).filterMap staticName? = []
  | _, [] => rfl
  | index, _ :: rest => by
    rw [paramAccesses, List.filterMap_append, staticName_paramAccesses frame (index + 1) rest]
    rfl

theorem withFrame (h : s.Named) (current : Option Nat) (x : Symbol) (params : List Symbol)
    (body : Option Node) : (s.withFrame current x params body).Named := by
  refine h.insert (qualified (s.outer current) x) ?_ rfl
  have hstatic : (s.withFrame current x params body).layout.accesses.filterMap staticName? =
      s.layout.accesses.filterMap staticName? := by
    rw [LayoutState.withFrame, List.filterMap_append, staticName_paramAccesses, List.nil_append]
  rw [hstatic, bare_withFrame, List.map_append, List.append_assoc]
  exact List.perm_middle

theorem withStatic (h : s.Named) (x : Symbol) : (s.withStatic x).Named :=
  h.insert x.name List.perm_middle rfl

end LayoutState.Named

theorem Lays.named {g : Ground} {s s' : LayoutState} (h : Lays g s s') (hs : s.Named) :
    s'.Named :=
  h.preserves (P := LayoutState.Named) (fun _ hs => hs.withFrame _ _ _ _)
    (fun hs => hs.withStatic _)
    (fun hf hs => hs.congr (LayoutState.bare_withLocal hf _) rfl rfl)
    (fun hs => hs.congr rfl rfl rfl)
    (fun hs => hs.congr (LayoutState.bare_withSealed _ _) rfl rfl) hs

section

variable {supply laid : Supply} {p : Source.Program} {layout : Layout} {chunks : List Chunk}

/-- A declaration that is to have a chunk has a frame or a static place. -/
theorem Source.Declared.label_cases {d : Declared} {l : Label} (h : d.chunkLabel? layout = some l) :
    (∃ g ∈ layout.frames, g.label = l ∧ g.decl.id = d.item.decl.id) ∨
      ∃ size, (d.item.decl.id, .global l size) ∈ layout.accesses := by
  obtain ⟨outer, x | x | ⟨x, params, body⟩⟩ := d
  · obtain ⟨a, ha, hl⟩ := Option.bind_eq_some_iff.1 h
    obtain ⟨before, after, heq, -⟩ := List.lookup_eq_some_iff.1 ha
    cases a with
    | global l' size =>
      cases hl
      exact .inr ⟨size, heq ▸ List.mem_append_right _ List.mem_cons_self⟩
    | localSlot _ _ _ | paramSlot _ _ _ => cases hl
  · cases h
  · cases body with
    | none => cases h
    | some body =>
      obtain ⟨g, hg, rfl⟩ := Option.map_eq_some_iff.1 h
      exact .inl ⟨g, Array.mem_of_find?_eq_some hg, rfl, Layout.id_of_frameOf? hg⟩

namespace Layout

theorem named_of_build (hbuild : Layout.build .empty p = .ok (layout, laid)) :
    LayoutState.Named ⟨layout, laid⟩ := by
  obtain ⟨s, hheaders, hdefs⟩ := Lays.of_build hbuild
  exact hdefs.named (hheaders.named ⟨List.nodup_nil, fun _ hn => absurd hn List.not_mem_nil⟩)

variable {g : FrameRecord} {id : Nat} {l m : Label} {size : Word}

variable (hbuild : Layout.build .empty p = .ok (layout, laid))
include hbuild

theorem label_mem_names (hg : g ∈ layout.frames) : g.label.name ∈ laid.names :=
  (named_of_build hbuild).taken _ (List.mem_append_left _
    (List.mem_map.2 ⟨g.bare, List.mem_map.2 ⟨g, Array.mem_def.1 hg, rfl⟩, rfl⟩))

theorem static_mem_names (h : (id, .global l size) ∈ layout.accesses) : l.name ∈ laid.names :=
  (named_of_build hbuild).taken _
    (List.mem_append_right _ (List.mem_filterMap.2 ⟨_, h, rfl⟩))

/-- A frame and a static place have labels of different names. -/
theorem label_ne_static (hg : g ∈ layout.frames) (h : (id, .global l size) ∈ layout.accesses) :
    g.label.name ≠ l.name := by
  have hnodup := List.nodup_append.1 (named_of_build hbuild).nodup
  exact hnodup.2.2 _ (List.mem_map.2 ⟨g.bare, List.mem_map.2 ⟨g, Array.mem_def.1 hg, rfl⟩, rfl⟩)
    _ (List.mem_filterMap.2 ⟨_, h, rfl⟩)

/-- Static places whose labels have the same name are the same. -/
theorem static_unique {i j : Nat} {size' : Word} (hi : (i, .global l size) ∈ layout.accesses)
    (hj : (j, .global m size') ∈ layout.accesses) (heq : l.name = m.name) : i = j := by
  have hpairs := List.pairwise_filterMap.1 (List.nodup_append.1 (named_of_build hbuild).nodup).2.1
  have hsymm : Std.Symm fun a b : Nat × Access => ∀ n, staticName? a = some n →
      ∀ m, staticName? b = some m → n ≠ m :=
    ⟨fun a b hab n hn m hm => (hab m hm n hn).symm⟩
  by_contra hne
  exact hpairs.forall hi hj (fun h => hne (congrArg Prod.fst h)) _ rfl _ rfl heq

/-- Declarations whose chunks have the same name are the same. -/
theorem id_of_chunkLabel? {d e : Declared} (hd : d.chunkLabel? layout = some l)
    (he : e.chunkLabel? layout = some m) (heq : l.name = m.name) :
    d.item.decl.id = e.item.decl.id := by
  rcases Declared.label_cases hd with ⟨f, hf, rfl, hid⟩ | ⟨size, hmem⟩
  · rcases Declared.label_cases he with ⟨g, hg, rfl, hid'⟩ | ⟨size, hmem⟩
    · rw [← hid, ← hid', frame_eq_of_label hbuild hf hg heq]
    · exact absurd heq (label_ne_static hbuild hf hmem)
  · rcases Declared.label_cases he with ⟨g, hg, rfl, hid'⟩ | ⟨size', hmem'⟩
    · exact absurd heq.symm (label_ne_static hbuild hg hmem)
    · exact static_unique hbuild hmem hmem' heq

/-- The names of the chunks that declarations are to have are different, and not free any
more. -/
theorem chunkLabels_nodup (honce : (p.declares.map (·.item.decl.id)).Nodup) :
    ((p.declares.filterMap (·.chunkLabel? layout)).map (·.name)).Nodup ∧
      ∀ l ∈ p.declares.filterMap (·.chunkLabel? layout), l.name ∈ laid.names := by
  constructor
  · rw [List.nodup_iff_pairwise_ne, List.pairwise_map, List.pairwise_filterMap]
    refine (List.pairwise_map.1 honce).imp fun {d e} hne l hl m hm heq => hne ?_
    exact id_of_chunkLabel? hbuild hl hm heq
  · intro l hl
    obtain ⟨d, -, hd⟩ := List.mem_filterMap.1 hl
    rcases Declared.label_cases hd with ⟨g, hg, rfl, -⟩ | ⟨size, hmem⟩
    · exact label_mem_names hbuild hg
    · exact static_mem_names hbuild hmem

end Layout

theorem Source.Program.CountsPlainly.steady (hcounts : p.CountsPlainly)
    (hbuild : Layout.build .empty p = .ok (layout, laid))
    (honce : (p.declares.map (·.item.decl.id)).Nodup) {outer : List Routine} {x : Symbol}
    {params : List Symbol} {body : Node}
    (hr : ⟨outer, .routine ⟨x, params, some body⟩⟩ ∈ p.declares) :
    ∀ n ∈ body.own, n.Steady layout (⟨x, params, some body⟩ :: outer) := by
  intro n hn
  have hplain := hcounts _ hr n hn
  cases n with
  | forLoop counter lo hi step loop =>
    refine List.filterMap_eq_nil_iff.2 fun d hd => ?_
    have hdeclared : d ∈ p.declares := by
      refine p.declares_body hr rfl (Node.declares_subset_of_own body _ _ hn ?_)
      exact Node.declares_subset (List.mem_cons_self ..) _ hd
    have hinside := (counter.contained_declares _ d hd).inside
    have hbody := hplain d hd
    obtain ⟨around, y | y | ⟨y, ps, b⟩⟩ := d
    · -- a variable in a function is in a frame
      cases hy : layout.access? y with
      | none => rw [Declared.chunkLabel?, hy, Option.bind_none]
      | some a =>
        have hplaced := Layout.placed_of_once hbuild honce hdeclared hy
        rw [Declared.chunkLabel?, hy]
        cases hplaced with
        | global => exact absurd (List.suffix_nil.1 hinside) (List.cons_ne_nil _ _)
        | localSlot _ _ => rfl
    · rfl
    · cases b with
      | none => rfl
      | some b => cases hbody
  | _ => trivial

theorem IR.Chunk.label_of_literal {c : Chunk} {l : Label} (h : c.literal? = some l) :
    c.label = l := by
  cases c with
  | code frame body => cases h
  | data m size init =>
    rw [Chunk.literal?] at h
    split at h
    · cases h
    · exact Option.some.inj h

/-- Chunks are definitions and literals. -/
theorem perm_definitions_literals (chunks : List Chunk) :
    (chunks.map (·.label)).Perm (chunks.filterMap Chunk.definition? ++ literalLabels chunks) := by
  induction chunks with
  | nil => exact .refl _
  | cons c rest ih =>
    cases hc : c.literal? with
    | none =>
      have hdef : c.definition? = some c.label := by rw [Chunk.definition?, hc]; rfl
      rw [List.map_cons, List.filterMap_cons_some hdef, literalLabels, List.filterMap_cons_none hc]
      exact ih.cons _
    | some l =>
      have hdef : c.definition? = none := by rw [Chunk.definition?, hc]; rfl
      rw [List.map_cons, List.filterMap_cons_none hdef, literalLabels,
        List.filterMap_cons_some hc, Chunk.label_of_literal hc]
      exact (ih.cons l).trans List.perm_middle.symm

section

variable (hbuild : Layout.build .empty p = .ok (layout, laid))
  (hlower : p.lower layout laid = .ok (chunks, supply))
  (honce : (p.declares.map (·.item.decl.id)).Nodup) (hcounts : p.CountsPlainly)

include hbuild hlower honce hcounts

/-- The chunks of a program are those of its declarations, and literals. -/
theorem emits_of_lower : Emits layout p.declares ⟨laid, []⟩ ⟨supply, chunks⟩ :=
  (Lowers.of_program hlower).emits
    (fun _ _ _ _ hr => hcounts.steady hbuild honce hr) (List.Subset.refl _)

/-- A chunk that is no literal is that of a declaration. -/
theorem exists_declared {c : Chunk} (hc : c ∈ chunks) (hlit : c.literal? = none) :
    ∃ d ∈ p.declares, d.chunkLabel? layout = some c.label := by
  have hdef : c.definition? = some c.label := by
    rw [Chunk.definition?, hlit]
    rfl
  have hmem : c.label ∈ chunks.filterMap Chunk.definition? := List.mem_filterMap.2 ⟨c, hc, hdef⟩
  exact List.mem_filterMap.1
    ((emits_of_lower hbuild hlower honce hcounts).definitions.mem_iff.1 hmem)

/-- Literals have names of their own that were free after the layout. -/
theorem literals_fresh (n : String) :
    ((literalLabels chunks).map (·.name)).count n + laid.mark (.ofName n) ≤ 1 := by
  have hle := (emits_of_lower hbuild hlower honce hcounts).literals n
  have hone := supply.mark_le_one (.ofName n)
  simp only [literalLabels, List.filterMap_nil, List.map_nil, List.count_nil] at hle ⊢
  omega

theorem literal_notMem {l : Label} (hl : l ∈ literalLabels chunks) : l.name ∉ laid.names := by
  intro hmem
  have hle := literals_fresh hbuild hlower honce hcounts l.name
  have hpos : 0 < ((literalLabels chunks).map (·.name)).count l.name :=
    List.count_pos_iff.2 (List.mem_map_of_mem hl)
  have hmark : laid.mark (.ofName l.name) = 1 := if_pos hmem
  omega

/-- The names of all chunks are different. -/
theorem chunk_names_nodup : (chunks.map (·.label.name)).Nodup := by
  obtain ⟨hnodup, htaken⟩ := Layout.chunkLabels_nodup hbuild honce
  have hdefs : (chunks.filterMap Chunk.definition?).Perm
      (p.declares.filterMap (·.chunkLabel? layout)) :=
    (emits_of_lower hbuild hlower honce hcounts).definitions
  have hsplit : (chunks.map (·.label.name)).Perm
      ((p.declares.filterMap (·.chunkLabel? layout)).map (·.name) ++
        (literalLabels chunks).map (·.name)) := by
    rw [← List.map_append]
    have hperm := ((perm_definitions_literals chunks).trans (hdefs.append_right _)).map Label.name
    rwa [List.map_map] at hperm
  rw [hsplit.nodup_iff, List.nodup_append]
  refine ⟨hnodup, List.nodup_iff_count_le_one.2 fun n => ?_, ?_⟩
  · have hle := literals_fresh hbuild hlower honce hcounts n
    omega
  · rintro n hn m hm rfl
    obtain ⟨l, hl, rfl⟩ := List.mem_map.1 hn
    obtain ⟨l', hl', hname⟩ := List.mem_map.1 hm
    exact literal_notMem hbuild hlower honce hcounts hl' (hname ▸ htaken l hl)

end

end

/-- Every definition of a program has its one chunk: a function with a body has one of code, a
variable on top level has one of data, and an external function has none. All other chunks are
literals. -/
structure Source.Program.ChunkedOnce (p : Source.Program) (layout : Layout)
    (chunks : List Chunk) : Prop where
  functions : ∀ outer x params body, ⟨outer, .routine ⟨x, params, some body⟩⟩ ∈ p.declares →
    ∃ g code, layout.frameOf? x = some g ∧
      Coded p.types layout ⟨outer, .routine ⟨x, params, some body⟩⟩ (.code g.frame code) ∧
      chunks.filter (fun c => c.label == g.label) = [.code g.frame code]
  statics : ∀ x, ⟨[], .var x⟩ ∈ p.declares → ∃ l,
    layout.access? x = some (.global l x.ty.size) ∧
      chunks.filter (fun c => c.label == l) = [.data l x.ty.size []]
  externals : ∀ outer x params, ⟨outer, .routine ⟨x, params, none⟩⟩ ∈ p.declares →
    ∃ g, layout.frameOf? x = some g ∧ chunks.filter (fun c => c.label == g.label) = []
  others : ∀ c ∈ chunks, (∃ d ∈ p.declares, Coded p.types layout d c) ∨
    (∃ x l, ⟨[], .var x⟩ ∈ p.declares ∧ layout.access? x = some (.global l x.ty.size) ∧
      c = .data l x.ty.size []) ∨
    c.literal? = some c.label

/-- Whether a list of definitions has one for a variable or a function. -/
def Source.Item.ListedIn (defs : List Node) : Source.Item → Prop
  | .var x => .varDecl x ∈ defs
  | .param _ => False
  | .routine r => .funDecl r.decl r.params r.body ∈ defs

theorem Source.Item.ListedIn.cons (n : Node) (h : item.ListedIn defs)
    : item.ListedIn (n :: defs) := by
  cases item with
  | var _ | routine _ => exact List.mem_cons_of_mem _ h
  | param x => exact h

/-- What is declared outside all functions is listed on top level. -/
theorem Source.Node.listed_of_declaresIn (h : ⟨[], item⟩ ∈ declaresIn defs [])
    : item.ListedIn defs := by
  have hheader : ∀ {r : Routine} {ns : List Node}, ⟨[], item⟩ ∈ r.header [] →
      item.ListedIn (.funDecl r.decl r.params r.body :: ns) := by
    intro r ns hmem
    rcases List.mem_cons.1 hmem with heq | hmem
    · cases heq
      exact List.mem_cons_self
    · obtain ⟨y, -, heq⟩ := List.mem_map.1 hmem
      cases heq
  induction defs with
  | nil => cases h
  | cons n ns ih =>
    cases n with
    | varDecl y =>
      rcases List.mem_cons.1 h with heq | h
      · cases heq
        exact List.mem_cons_self
      · exact (ih h).cons _
    | funDecl y params body =>
      cases body with
      | none =>
        rcases List.mem_append.1 h with h | h
        · exact hheader h
        · exact (ih h).cons _
      | some body =>
        rcases List.mem_append.1 h with h | h
        · exact hheader h
        rcases List.mem_append.1 h with h | h
        · have hinside := (body.contained_declares _ _ h).inside
          exact absurd (List.suffix_nil.1 hinside) (List.cons_ne_nil _ _)
        · exact (ih h).cons _
    | _ => exact (ih h).cons _

section

variable {p : Source.Program} {layout : Layout} {laid supply : Supply} {chunks : List Chunk}
  (hbuild : Layout.build .empty p = .ok (layout, laid))
  (honce : (p.declares.map (·.item.decl.id)).Nodup)

include hbuild honce

variable (hlower : p.lower layout laid = .ok (chunks, supply)) (hcounts : p.CountsPlainly)

include hlower hcounts

theorem chunk_eq_of_name {c c' : Chunk} (hc : c ∈ chunks) (hc' : c' ∈ chunks)
    (h : c.label.name = c'.label.name) : c = c' :=
  List.inj_on_of_nodup_map (chunk_names_nodup hbuild hlower honce hcounts) hc hc' h

/-- Only one chunk has the label of a chunk. -/
theorem filter_label_eq {c : Chunk} (hc : c ∈ chunks) :
    chunks.filter (fun c' => c'.label == c.label) = [c] :=
  filter_of_nodup (nodup_of_names (chunk_names_nodup hbuild hlower honce hcounts)) hc

/-- No chunk has the label of an external function. -/
theorem filter_external {outer : List Routine} {x : Symbol} {params : List Symbol}
    (hr : ⟨outer, .routine ⟨x, params, none⟩⟩ ∈ p.declares) {g : FrameRecord}
    (hg : layout.frameOf? x = some g) : chunks.filter (fun c => c.label == g.label) = [] := by
  have hmem := Array.mem_of_find?_eq_some hg
  refine List.filter_eq_nil_iff.2 fun c hc heq => ?_
  have heq : c.label = g.label := beq_iff_eq.1 heq
  cases hlit : c.literal? with
  | some l =>
    have hl : l ∈ literalLabels chunks := List.mem_filterMap.2 ⟨c, hc, hlit⟩
    refine literal_notMem hbuild hlower honce hcounts hl ?_
    rw [← Chunk.label_of_literal hlit, heq]
    exact Layout.label_mem_names hbuild hmem
  | none =>
    obtain ⟨d, hd, hlabel⟩ := exists_declared hbuild hlower honce hcounts hc hlit
    rcases Declared.label_cases hlabel with ⟨f, hf, hfl, hid⟩ | ⟨size, hstatic⟩
    · -- the frame is that of the function, which has no body
      have hsame : f.decl = g.decl := Layout.frame_eq_of_label hbuild hf hmem (by rw [hfl, heq])
      rw [hsame, Layout.id_of_frameOf? hg] at hid
      cases List.inj_on_of_nodup_map honce hr hd hid
      cases hlabel
    · exact Layout.label_ne_static hbuild hmem hstatic (by rw [heq])

theorem chunkedOnce_of_lower : p.ChunkedOnce layout chunks := by
  have hlowers := Lowers.of_program hlower
  have hchunked := hlowers.chunked []
  have hdata : ∀ {x : Symbol} {l : Label}, ⟨[], .var x⟩ ∈ p.declares →
      layout.access? x = some (.global l x.ty.size) → .data l x.ty.size [] ∈ chunks :=
    fun hx ha => hlowers.data_mem (Node.listed_of_declaresIn hx) ha
  refine ⟨fun outer x params body hr => ?_, fun x hx => ?_, fun outer x params hr => ?_,
    fun c hc => ?_⟩
  · obtain ⟨c, hc, hcoded⟩ := hchunked.emitted _ hr rfl
    cases hcoded with
    | @intro _ _ _ _ g _ _ code hg hbody =>
      exact ⟨g, code, hg, .intro hg hbody, filter_label_eq hbuild honce hlower hcounts hc⟩
  · obtain ⟨l, ha⟩ := Layout.access?_of_static hbuild honce hx
    exact ⟨l, ha, filter_label_eq hbuild honce hlower hcounts (hdata hx ha)⟩
  · obtain ⟨g, hg, -⟩ := Layout.frameOf?_of_declared hbuild hr
    exact ⟨g, hg, filter_external hbuild honce hlower hcounts hr hg⟩
  · cases hlit : c.literal? with
    | some l => exact .inr (.inr (Chunk.label_of_literal hlit ▸ rfl))
    | none =>
      obtain ⟨d, hd, hlabel⟩ := exists_declared hbuild hlower honce hcounts hc hlit
      obtain ⟨outer, x | x | ⟨x, params, body⟩⟩ := d
      · obtain ⟨a, ha, hl⟩ := Option.bind_eq_some_iff.1 hlabel
        cases Layout.placed_of_once hbuild honce hd ha with
        | global =>
          cases hl
          have hsame := chunk_eq_of_name hbuild honce hlower hcounts hc (hdata hd ha) rfl
          exact .inr (.inl ⟨x, _, hd, ha, hsame⟩)
        | localSlot _ _ => cases hl
      · cases hlabel
      · cases body with
        | none => cases hlabel
        | some body =>
          obtain ⟨g, hg, hl⟩ := Option.map_eq_some_iff.1 hlabel
          obtain ⟨c', hc', hcoded⟩ := hchunked.emitted _ hd rfl
          have hsame : c = c' := by
            refine chunk_eq_of_name hbuild honce hlower hcounts hc hc' ?_
            cases hcoded with
            | intro hg' _ =>
              cases hg.symm.trans hg'
              rw [← hl]
              rfl
          exact .inl ⟨_, hd, hsame ▸ hcoded⟩

end

/-- The chunks of a program are one for each of its definitions, and literals. They have an
index, as trees and in linear form. -/
theorem Source.Program.chunks_once {p : Source.Program} {layout : Layout} {laid supply : Supply}
    {chunks : List Chunk} (hbuild : Layout.build .empty p = .ok (layout, laid))
    (hlower : p.lower layout laid = .ok (chunks, supply))
    (honce : (p.declares.map (·.item.decl.id)).Nodup) (hcounts : p.CountsPlainly) :
    p.ChunkedOnce layout chunks ∧ (∃ program, Program.ofChunks chunks = .ok program) ∧
      ∃ program, Program.ofChunks (Chunk.canonicalAll chunks supply.temps).1 = .ok program := by
  have hnames := chunk_names_nodup hbuild hlower honce hcounts
  exact ⟨chunkedOnce_of_lower hbuild honce hlower hcounts,
    TreeCode.Program.exists_ofChunks_of_nodup hnames,
    TreeCode.Program.exists_ofChunks_of_nodup ((Chunk.names_canonicalAll _ _).symm ▸ hnames)⟩

namespace Sample

/-- Functions that are defined in the target of an assignment, in an index, inside one another
and beside the counter of a loop. -/
def scattered : Source.Program :=
  let total := integer 2 "total"
  let say : Symbol := ⟨3, "say", .string⟩
  let text : Symbol := ⟨4, "text", .string⟩
  let v : Symbol := ⟨5, "v", .array 4 .integer⟩
  let pick := integer 6 "pick"
  let x := integer 7 "x"
  let first := integer 8 "first"
  let inner := integer 9 "first"
  let j := integer 10 "j"
  ofDefs [
    .varDecl total,
    .funDecl say [text] none,
    entry (.sequence [
      assign
        (.within
          (element (.ident v) (.within (.call pick [.ident argument])
            [function pick [x] (.ident x)]))
          [.varDecl v, function first []
            (.within (add (.call inner []) (.number 1))
              [function inner [] (.sequence [.call say [.string [104, 105]], .ident argument])])])
        (.number 3),
      .forLoop (.within (.ident j) [.varDecl j]) (.number 0) (.number 3) (.number 1)
        (assign (.ident total) (.ident argument)),
      .ident total])]

/-- The functions, the variable and the literal of a program each have their chunk. -/
theorem scattered_chunks : ∃ layout laid chunks supply,
    Layout.build .empty scattered = .ok (layout, laid) ∧
      scattered.lower layout laid = .ok (chunks, supply) ∧
      chunks.map (·.label.name) =
        ["total", "_main", "_main.first", "_main.first.first", "S0", "_main.pick"] ∧
      scattered.ChunkedOnce layout chunks := by
  have hnames : ((Layout.build .empty scattered).toOption.bind fun q =>
      (scattered.lower q.1 q.2).toOption.map fun r => r.1.map (·.label.name)) = some
        ["total", "_main", "_main.first", "_main.first.first", "S0", "_main.pick"] := by
    decide +kernel
  obtain ⟨⟨layout, laid⟩, hbuild, hnames⟩ := Outcome.of_toOption_bind hnames
  obtain ⟨⟨chunks, supply⟩, hlower, hnames⟩ := Outcome.of_toOption_map hnames
  exact ⟨layout, laid, chunks, supply, hbuild, hlower, hnames,
    (Source.Program.chunks_once hbuild hlower (by decide +kernel) (by decide +kernel)).1⟩

/-- A loop whose counter defines a function. -/
def recount : Source.Program :=
  let g := integer 2 "g"
  ofDefs [
    entry (.sequence [
      .forLoop (.within (.ident argument) [function g [] (.number 0)]) (.number 0) (.number 3)
        (.number 1) (.number 0),
      .ident argument])]

/-- A function that the counter of a loop defines has a chunk for each of the four times that
the counter is read, although it is declared once. -/
theorem recount_repeats : (recount.declares.map (·.item.decl.id)).Nodup ∧
    ∃ layout laid chunks supply, Layout.build .empty recount = .ok (layout, laid) ∧
      recount.lower layout laid = .ok (chunks, supply) ∧
      chunks.map (·.label.name) = ["_main", "_main.g", "_main.g", "_main.g", "_main.g"] ∧
      Program.ofChunks chunks = .error (.labelTwice "_main.g") := by
  refine ⟨by decide +kernel, ?_⟩
  have hnames : ((Layout.build .empty recount).toOption.bind fun q =>
      (recount.lower q.1 q.2).toOption.map fun r => r.1.map (·.label.name)) =
        some ["_main", "_main.g", "_main.g", "_main.g", "_main.g"] := by
    decide +kernel
  obtain ⟨⟨layout, laid⟩, hbuild, hnames⟩ := Outcome.of_toOption_bind hnames
  obtain ⟨⟨chunks, supply⟩, hlower, hnames⟩ := Outcome.of_toOption_map hnames
  have hnames : chunks.map (·.label.name) =
    ["_main", "_main.g", "_main.g", "_main.g", "_main.g"] := hnames
  refine ⟨layout, laid, chunks, supply, hbuild, hlower, hnames, ?_⟩
  rw [Program.ofChunks, hnames]
  rfl

end Sample

end TreeCode
