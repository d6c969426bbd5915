/-
# Where code comes from

Every chunk of code belongs to a declared function, and every declared function with a
body has a chunk. `Lowers.chunked` says so for every derivation, without an index of the
chunks: it holds as soon as lowering succeeds.

`Lowers.calls` says where the calls in a piece of code come from: each belongs to a call
in the tree, goes to the label of the callee's frame and passes the number of links to
the frame around the callee.
-/

import TreeCode.Proofs.Lowering.Traversal
import TreeCode.Proofs.Scope

namespace TreeCode

open IR (Chunk Effect Expr Stmt)
open Source (Declared Node Routine Symbol)

namespace Reading

/-- The declarations in what is lowered inside some functions. -/
def declares (outer : List Routine) : Reading → List Declared
  | .value _ n => n.declares outer
  | .effect _ n => n.declares outer
  | .address _ n => n.declares outer
  | .arguments _ ns => Node.declaresAll ns outer
  | .effects _ ns => Node.declaresAll ns outer
  | .definitions ns => Node.declaresIn ns outer

end Reading

/-- Whether a function with a body is declared. -/
def Source.Declared.hasBody : Declared → Bool
  | ⟨_, .routine r⟩ => r.body.isSome
  | _ => false

/-- The chunk of a declared function. -/
inductive Coded (types : TypeTable) (layout : Layout) : Declared → Chunk → Prop
  | intro {outer : List Routine} {x : Symbol} {params : List Symbol} {body : Node}
      {g : FrameRecord} {s s' : LowerState} {code : Stmt} : layout.frameOf? x = some g →
      LowersBody types layout ⟨x, body, 0⟩ g s s' code →
      Coded types layout ⟨outer, .routine ⟨x, params, some body⟩⟩ (.code g.frame code)

/-- Between two states of lowering, chunks of code are made for some declarations: for
nothing else, and for all of them that have a body. -/
structure Chunked (types : TypeTable) (layout : Layout) (ds : List Declared)
    (s s' : LowerState) : Prop where
  chunks : s.chunks <+: s'.chunks
  origin : ∀ frame code, .code frame code ∈ s'.chunks → .code frame code ∈ s.chunks ∨
    ∃ d ∈ ds, Coded types layout d (.code frame code)
  emitted : ∀ d ∈ ds, d.hasBody = true → ∃ c ∈ s'.chunks, Coded types layout d c

namespace Chunked

variable {types : TypeTable} {layout : Layout} {ds ds' : List Declared}
  {s s₁ s' : LowerState}

theorem refl (s : LowerState) : Chunked types layout [] s s where
  chunks := List.prefix_refl _
  origin _ _ h := .inl h
  emitted _ h := nomatch h

theorem append (h : Chunked types layout ds s s₁) (h' : Chunked types layout ds' s₁ s') :
    Chunked types layout (ds ++ ds') s s' where
  chunks := h.chunks.trans h'.chunks
  origin frame code hmem := by
    rcases h'.origin frame code hmem with hmem | ⟨d, hd, hcoded⟩
    · rcases h.origin frame code hmem with hmem | ⟨d, hd, hcoded⟩
      · exact .inl hmem
      · exact .inr ⟨d, List.mem_append_left _ hd, hcoded⟩
    · exact .inr ⟨d, List.mem_append_right _ hd, hcoded⟩
  emitted d hd hbody := by
    rcases List.mem_append.1 hd with hd | hd
    · obtain ⟨c, hc, hcoded⟩ := h.emitted d hd hbody
      exact ⟨c, h'.chunks.subset hc, hcoded⟩
    · exact h'.emitted d hd hbody

/-- Declarations without a body do not matter, nor does their order. -/
theorem widen (h : Chunked types layout ds s s') (hsub : ds ⊆ ds')
    (hbody : ∀ d ∈ ds', d.hasBody = true → d ∈ ds) : Chunked types layout ds' s s' where
  chunks := h.chunks
  origin frame code hmem := (h.origin frame code hmem).imp_right fun ⟨d, hd, hcoded⟩ =>
    ⟨d, hsub hd, hcoded⟩
  emitted d hd hb := h.emitted d (hbody d hd hb) hb

theorem congr (h : Chunked types layout ds s s') (hmem : ∀ d, d ∈ ds ↔ d ∈ ds') :
    Chunked types layout ds' s s' :=
  h.widen (fun d => (hmem d).1) fun d hd _ => (hmem d).2 hd

theorem data {l : Label} {size : Word} {init : List UInt8} (supply : Supply) :
    Chunked types layout [] s ⟨supply, s.chunks ++ [.data l size init]⟩ where
  chunks := List.prefix_append _ _
  origin _ _ hmem := by
    rcases List.mem_append.1 hmem with hmem | hmem
    · exact .inl hmem
    · cases List.mem_singleton.1 hmem
  emitted _ h := nomatch h

theorem string {bytes : List UInt8} {e : Expr} (h : Lower.string bytes s = .ok (e, s')) :
    Chunked types layout [] s s' := by
  obtain ⟨size, init, -, rfl⟩ := Lower.string_eq_ok h
  exact .data _

theorem label {l : Label} (h : Lower.label s = .ok (l, s')) : Chunked types layout [] s s' := by
  cases h
  exact ⟨List.prefix_refl _, fun _ _ h => .inl h, fun _ h => nomatch h⟩

theorem temp {t : Temp} (h : Lower.temp s = .ok (t, s')) : Chunked types layout [] s s' := by
  cases h
  exact ⟨List.prefix_refl _, fun _ _ h => .inl h, fun _ h => nomatch h⟩

/-- A function is declared before what its body declares, and so are the chunks. -/
theorem function {outer : List Routine} {x : Symbol} {params : List Symbol} {body : Node}
    {g : FrameRecord} {supply : Supply} {inner : List Chunk} {code : Stmt}
    (hg : layout.frameOf? x = some g)
    (hcode : LowersBody types layout ⟨x, body, 0⟩ g ⟨s.supply, []⟩ ⟨supply, inner⟩ code)
    (hbody : Chunked types layout ds ⟨s.supply, []⟩ ⟨supply, inner⟩)
    (hrest : Chunked types layout ds' ⟨supply, s.chunks ++ .code g.frame code :: inner⟩ s') :
    Chunked types layout (Routine.header ⟨x, params, some body⟩ outer ++ (ds ++ ds')) s s' := by
  have hself : Coded types layout ⟨outer, .routine ⟨x, params, some body⟩⟩ (.code g.frame code) :=
    .intro hg hcode
  have hmake : Chunked types layout (Routine.header ⟨x, params, some body⟩ outer ++ ds) s
      ⟨supply, s.chunks ++ .code g.frame code :: inner⟩ := by
    refine ⟨List.prefix_append _ _, fun frame code' hmem => ?_, fun d hd hb => ?_⟩
    · rcases List.mem_append.1 hmem with hmem | hmem
      · exact .inl hmem
      rcases List.mem_cons.1 hmem with heq | hmem
      · exact .inr ⟨_, List.mem_append_left _ List.mem_cons_self, heq ▸ hself⟩
      · rcases hbody.origin frame code' hmem with hmem | ⟨d, hd, hcoded⟩
        · cases hmem
        · exact .inr ⟨d, List.mem_append_right _ hd, hcoded⟩
    · rcases List.mem_append.1 hd with hd | hd
      · rcases List.mem_cons.1 hd with rfl | hd
        · exact ⟨_, List.mem_append_right _ List.mem_cons_self, hself⟩
        · obtain ⟨y, -, rfl⟩ := List.mem_map.1 hd
          cases hb
      · obtain ⟨c, hc, hcoded⟩ := hbody.emitted d hd hb
        exact ⟨c, List.mem_append_right _ (List.mem_cons_of_mem _ hc), hcoded⟩
  rw [← List.append_assoc]
  exact hmake.append hrest

end Chunked

namespace Lowers

variable {types : TypeTable} {layout : Layout} {r : Reading} {s s' : LowerState} {o : Lowered}

/-- The chunks of code that a derivation makes are those of the functions in its tree. -/
theorem chunked (h : Lowers types layout r s o s') :
    ∀ outer, Chunked types layout (r.declares outer) s s' := by
  induction h with
  | number | logical | nothing | global _ | localSlot _ _ | paramSlot _ _ | reference _ _
  | noArgument | noEffect | noDefinition => exact fun _ => .refl _
  | string h => exact fun _ => .string h
  | aggregate _ _ _ ih | load _ _ _ ih | plus _ ih | neg _ ih | not _ ih | addr _ ih
  | call _ _ ih | zero _ _ ih | dropped _ _ ih | sequence _ ih | member _ ih | deref _ ih =>
    exact ih
  | operation _ _ _ _ ihl ihr | withinValue _ _ ihl ihr | assign _ _ _ ihl ihr
  | withinEffect _ _ ihl ihr | withinAddress _ _ ihl ihr | byAddress _ _ _ ihl ihr
  | byValue _ _ _ ihl ihr | effects _ _ ihl ihr => exact fun outer => (ihl outer).append (ihr outer)
  | assigned _ haddr ht _ _ iha ihv =>
    exact fun outer => (Chunked.temp haddr).append ((Chunked.temp ht).append
      ((iha outer).append (ihv outer)))
  | last _ _ _ ihs ihe =>
    refine fun outer => ((ihs outer).append (ihe outer)).congr fun d => ?_
    simp [Reading.declares, Node.declares, Node.mem_declaresAll, or_and_right, exists_or]
  | chosen _ ht h₁ h₂ h₃ _ _ _ ihc iha ihb =>
    exact fun outer => (Chunked.temp ht).append ((Chunked.label h₁).append
      ((Chunked.label h₂).append ((Chunked.label h₃).append ((ihc outer).append
        ((iha outer).append (ihb outer))))))
  | ifThen h₁ h₂ _ _ ihc iht =>
    exact fun outer => (Chunked.label h₁).append ((Chunked.label h₂).append
      ((ihc outer).append (iht outer)))
  | ifElse h₁ h₂ _ h₃ _ _ ihc iht ihe =>
    exact fun outer => (Chunked.label h₁).append ((Chunked.label h₂).append
      ((ihc outer).append ((Chunked.label h₃).append ((iht outer).append (ihe outer)))))
  | whileLoop h₁ h₂ h₃ _ _ ihc ihb =>
    exact fun outer => (Chunked.label h₁).append ((Chunked.label h₂).append
      ((Chunked.label h₃).append ((ihc outer).append (ihb outer))))
  | forLoop h₁ h₂ h₃ _ _ _ _ _ _ _ _ ih₁ ih₂ ih₃ ih₄ ih₅ ih₆ ih₇ ih₈ =>
    intro outer
    -- the counter is lowered four times but declares everything once
    have hall := (Chunked.label h₁).append ((Chunked.label h₂).append ((Chunked.label h₃).append
      ((ih₁ outer).append ((ih₂ outer).append ((ih₃ outer).append ((ih₄ outer).append
        ((ih₅ outer).append ((ih₆ outer).append ((ih₇ outer).append (ih₈ outer))))))))))
    refine hall.congr fun d => ?_
    simp only [Reading.declares, Node.declares, List.nil_append, List.mem_append]
    grind
  | index _ _ ihi ihb =>
    refine fun outer => ((ihi outer).append (ihb outer)).congr fun d => ?_
    simp only [Reading.declares, Node.declares, List.mem_append]
    exact or_comm
  | static _ _ ih =>
    refine fun outer => ((Chunked.data _).append (ih outer)).widen
      (List.subset_cons_self _ _) fun d hd hb => ?_
    rcases List.mem_cons.1 hd with rfl | hd
    · cases hb
    · exact hd
  | stacked _ _ _ ih =>
    refine fun outer => (ih outer).widen (List.subset_cons_self _ _) fun d hd hb => ?_
    rcases List.mem_cons.1 hd with rfl | hd
    · cases hb
    · exact hd
  | procedure hg hvoid hbody _ ihb ih =>
    exact fun outer => .function hg (.procedure hvoid hbody) (ihb _) (ih outer)
  | function hg hvoid hbody _ ihb ih =>
    exact fun outer => .function hg (.function hvoid hbody) (ihb _) (ih outer)
  | @skipped n ns _ _ hn _ ih =>
    refine fun outer => (ih outer).widen (Node.declaresIn_subset n ns outer) fun d hd hb => ?_
    cases n with
    | varDecl _ => cases hn
    | funDecl x params body =>
      cases body with
      | some _ => cases hn
      | none =>
        rcases List.mem_append.1 hd with hd | hd
        · rcases List.mem_cons.1 hd with rfl | hd
          · cases hb
          · obtain ⟨y, -, rfl⟩ := List.mem_map.1 hd
            cases hb
        · exact hd
    | _ => exact hd

end Lowers

/-- The calls among some effects belong to calls among some nodes of a function. -/
def CallsFrom (layout : Layout) (f : FrameRecord) (ns : List Node) (es : List Effect) : Prop :=
  ∀ l first, .call l first ∈ es → ∃ callee args g, .call callee args ∈ ns ∧
    layout.frameOf? callee = some g ∧ l = g.label ∧ first = some (Int64.ofInt (hopCount f g))

namespace CallsFrom

variable {layout : Layout} {f : FrameRecord} {ns ms : List Node} {es es' : List Effect}

theorem nil : CallsFrom layout f ns [] :=
  fun _ _ h => nomatch h

theorem append (h : CallsFrom layout f ns es) (h' : CallsFrom layout f ns es') :
    CallsFrom layout f ns (es ++ es') := fun l first hmem =>
  (List.mem_append.1 hmem).elim (h l first) (h' l first)

theorem mono (h : CallsFrom layout f ms es) (hsub : ms ⊆ ns) : CallsFrom layout f ns es := by
  intro l first hmem
  obtain ⟨callee, args, g, hcall, hg⟩ := h l first hmem
  exact ⟨callee, args, g, hsub hcall, hg⟩

/-- Other effects do not matter. -/
theorem weaken (h : CallsFrom layout f ns es)
    (hcalls : ∀ l first, .call l first ∈ es' → .call l first ∈ es) :
    CallsFrom layout f ns es' := fun l first hmem =>
  h l first (hcalls l first hmem)

/-- The calls of a child are calls of the node. -/
theorem child {n m : Node} (h : CallsFrom layout f m.own es) (hm : m ∈ n.children := by simp) :
    CallsFrom layout f n.own es :=
  h.mono (Node.own_subset hm)

theorem children {n : Node} (h : CallsFrom layout f (Node.ownAll n.children) es) :
    CallsFrom layout f n.own es := by
  refine h.mono ?_
  rw [Node.own_eq n]
  exact List.subset_cons_self _ _

end CallsFrom

/-- The calls in what lowering yields belong to what is lowered. Definitions yield
nothing. -/
def Reading.Calls (layout : Layout) : Reading → List Effect → Prop
  | .value f n => CallsFrom layout f n.own
  | .effect f n => CallsFrom layout f n.own
  | .address f n => CallsFrom layout f n.own
  | .arguments f ns => CallsFrom layout f (Node.ownAll ns)
  | .effects f ns => CallsFrom layout f (Node.ownAll ns)
  | .definitions _ => fun _ => True

variable {types : TypeTable} {layout : Layout} {s s' : LowerState}

/-- Every call in lowered code belongs to a call in the tree. -/
theorem Lowers.calls {r : Reading} {o : Lowered} (h : Lowers types layout r s o s')
    : r.Calls layout o.effects := by
  induction h with
  | number | logical | nothing | global _ | noArgument | noEffect => exact .nil
  | string h =>
    obtain ⟨size, init, rfl, -⟩ := Lower.string_eq_ok h
    exact .nil
  | aggregate _ _ _ ih | load _ _ _ ih | dropped _ _ ih => exact ih
  | operation _ _ _ _ ihl ihr => exact .append (.child ihl) (.child ihr)
  | assigned _ _ _ _ _ iha ihv =>
    refine CallsFrom.weaken (.append (.child iha) (.child ihv)) fun l first hmem => ?_
    simpa [Lowered.effects, Expr.effects, Stmt.effects, Stmt.effectsAll, Expr.moveEffects]
      using hmem
  | plus _ ih | neg _ ih | not _ ih | addr _ ih | withinValue _ _ _ ih | withinEffect _ _ _ ih
  | deref _ ih | withinAddress _ _ _ ih => exact .child ih
  | @call f callee args g _ es _ hg _ ih =>
    intro l first hmem
    rcases List.mem_append.1 hmem with hmem | hmem
    · exact CallsFrom.children (n := .call callee args) ih l first hmem
    · cases List.mem_singleton.1 hmem
      exact ⟨callee, args, g, Node.mem_own_self _, hg, rfl, rfl⟩
  | last _ _ _ ihs ihe =>
    simp only [Lowered.effects, Expr.effects, Stmt.effects_join]
    refine CallsFrom.append (CallsFrom.children (CallsFrom.mono ihs ?_))
      (CallsFrom.children (CallsFrom.mono ihe ?_))
    · rw [Node.children, Node.ownAll_append]
      exact List.subset_append_left _ _
    · rw [Node.children, Node.ownAll_append, Node.ownAll, Node.ownAll, List.append_nil]
      exact List.subset_append_right _ _
  | zero _ _ ih =>
    simp only [Lowered.effects, Expr.effects, List.append_nil]
    exact ih
  | chosen _ _ _ _ _ _ _ _ ihc iha ihb =>
    refine CallsFrom.weaken (.append (.child ihc) (.append (.child iha) (.child ihb)))
      fun l first hmem => ?_
    simpa [Lowered.effects, Expr.effects, Stmt.effects, Stmt.effectsAll, Expr.moveEffects]
      using hmem
  | assign _ _ _ iha ihv =>
    refine CallsFrom.weaken (.append (.child iha) (.child ihv)) fun l first hmem => ?_
    simpa [Lowered.effects, Stmt.effects, Expr.moveEffects] using hmem
  | ifThen _ _ _ _ ihc iht | whileLoop _ _ _ _ _ ihc iht =>
    refine CallsFrom.weaken (.append (.child ihc) (.child iht)) fun l first hmem => ?_
    simpa [Lowered.effects, Stmt.effects, Stmt.effectsAll] using hmem
  | ifElse _ _ _ _ _ _ ihc iht ihe =>
    refine CallsFrom.weaken (.append (.child ihc) (.append (.child iht) (.child ihe)))
      fun l first hmem => ?_
    simpa [Lowered.effects, Stmt.effects, Stmt.effectsAll] using hmem
  | forLoop _ _ _ _ _ _ _ _ _ _ _ ih₁ ih₂ ih₃ ih₄ ih₅ ih₆ ih₇ ih₈ =>
    refine CallsFrom.weaken (.append (.child ih₁) (.append (.child ih₂) (.append (.child ih₃)
      (.append (.child ih₄) (.append (.child ih₅) (.append (.child ih₆) (.append (.child ih₇)
        (.child ih₈)))))))) fun l first hmem => ?_
    simpa [Lowered.effects, Expr.effects, Stmt.effects, Stmt.effectsAll, Expr.moveEffects]
      using hmem
  | sequence _ ih => exact .children ih
  | localSlot _ _ | paramSlot _ _ =>
    rw [Lowered.effects, effects_slotAddress]
    exact .nil
  | reference _ _ =>
    rw [Lowered.effects, Expr.effects, effects_slotAddress]
    exact .nil
  | member _ ih =>
    rw [Lowered.effects, effects_atOffset]
    exact .child ih
  | index _ _ ihi ihb =>
    refine CallsFrom.weaken (.append (.child ihb) (.child ihi)) fun l first hmem => ?_
    simpa [Lowered.effects, Expr.effects] using hmem
  | byAddress _ _ _ ihe ihes | byValue _ _ _ ihe ihes | effects _ _ ihe ihes =>
    exact .append (.mono ihe (List.subset_append_left _ _))
      (.mono ihes (List.subset_append_right _ _))
  | noDefinition | static _ _ _ | stacked _ _ _ _ | procedure _ _ _ _ _ _ | function _ _ _ _ _ _
  | skipped _ _ _ => trivial

/-- The calls of a function belong to calls in its body. -/
theorem LowersBody.calls {f : Source.Function} {g : FrameRecord} {code : Stmt}
    (h : LowersBody types layout f g s s' code) : CallsFrom layout g f.body.own code.effects := by
  cases h with
  | procedure _ hbody => exact hbody.calls
  | function _ hbody =>
    refine CallsFrom.weaken hbody.calls fun l first hmem => ?_
    simpa [Lowered.effects, Stmt.effects, Expr.moveEffects] using hmem

end TreeCode
