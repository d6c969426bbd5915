/-
# Lowering under other names

A program and the same program under other names are lowered side by side: from layouts
that are alike they get code that is alike, or neither has code. Every construct reads the
names of symbols for nothing but the text of an error.
-/

import TreeCode.Lowering
import TreeCode.Proofs.Lowering.Derivation
import TreeCode.Proofs.Names.Layout

namespace TreeCode

open IR (Chunk Expr Stmt)
open Source (Kind Node Symbol)

/-- Two states of lowering. No label of code is drawn any more. -/
structure LowerState.Alike (C D : Draws) (s t : LowerState) : Prop where
  supply : s.supply.Abreast D t.supply
  chunks : List.Forall₂ (Chunk.Alike D) s.chunks t.chunks
  codes : ∀ l m, ⟨.code, l, m⟩ ∈ D → ⟨.code, l, m⟩ ∈ C

/-- Two ways of lowering that run side by side. -/
abbrev Lower.Alike {α : Type} (C D : Draws) (A : Draws → α → α → Prop) (x y : Lower α) : Prop :=
  Parallel (LowerState.Alike C) A D x y

variable {ρ : Renaming} {C D : Draws}

namespace Lower

theorem alike_temp : Lower.Alike C D (fun _ t u => u = t) temp temp := by
  intro E _ s t hst
  refine .ok (List.Subset.refl _) ⟨hst.supply.temp, hst.chunks, hst.codes⟩ ?_
  simp only [hst.supply.temps]

theorem alike_label : Lower.Alike C D (fun E l m => ⟨.jump, l, m⟩ ∈ E) label label := by
  intro E _ s t hst
  have hsub := List.subset_cons_self
    (⟨.jump, s.supply.label.1, t.supply.label.1⟩ : Draw) E
  refine .ok hsub ⟨hst.supply.label, hst.chunks.imp fun _ _ hc => hc.mono hsub, ?_⟩
    List.mem_cons_self
  intro l m hlm
  rcases List.mem_cons.1 hlm with heq | hlm
  · cases heq
  · exact hst.codes l m hlm

theorem alike_string (bytes : List UInt8) :
    Lower.Alike C D (fun E => Expr.Alike E) (string bytes) (string bytes) := by
  intro E _ s t hst
  have hsub := List.subset_cons_self
    (⟨.data, s.supply.string.1, t.supply.string.1⟩ : Draw) E
  refine .ok hsub ⟨hst.supply.string, ?_, ?_⟩ ⟨_, rfl, List.mem_cons_self⟩
  · exact List.rel_append (hst.chunks.imp fun _ _ hc => hc.mono hsub)
      (.cons (.data List.mem_cons_self) .nil)
  · intro l m hlm
    rcases List.mem_cons.1 hlm with heq | hlm
    · cases heq
    · exact hst.codes l m hlm

theorem alike_emit {c d : Chunk} (h : c.Alike D d) :
    Lower.Alike C D (fun _ _ _ => True) (emit c) (emit d) :=
  fun _ hE _ _ hst => .ok (List.Subset.refl _)
    ⟨hst.supply, List.rel_append hst.chunks (.cons (h.mono hE) .nil), hst.codes⟩ trivial

theorem function_eq (frame : Frame) (body : Lower Stmt) (s : LowerState) :
    function frame body s = body ⟨s.supply, []⟩ >>= fun r =>
      (.ok ((), ⟨r.2.supply, s.chunks ++ .code frame r.1 :: r.2.chunks⟩) :
        Except LowerError (Unit × LowerState)) := rfl

theorem alike_function {f g : Frame} (hfg : f.Alike D g) {x y : Lower Stmt}
    (h : Lower.Alike C D (fun E => Stmt.Alike E) x y) :
    Lower.Alike C D (fun _ _ _ => True) (function f x) (function g y) := by
  intro E hE s t hst
  have hbody := h E hE ⟨s.supply, []⟩ ⟨t.supply, []⟩ ⟨hst.supply, .nil, hst.codes⟩
  rw [function_eq, function_eq]
  cases hx : x ⟨s.supply, []⟩ <;> cases hy : y ⟨t.supply, []⟩ <;> rw [hx, hy] at hbody <;>
    cases hbody
  · exact .error
  next hsub hst' hcode =>
    refine .ok hsub ⟨hst'.supply, ?_, hst'.codes⟩ trivial
    have hframe : f.Alike _ g := { hfg with label := hsub (hE hfg.label) }
    exact List.rel_append (hst.chunks.imp fun _ _ hc => hc.mono hsub)
      (.cons (.code hframe hcode) hst'.chunks)

end Lower

section

variable {s t : Stmt} {ss ts : List Stmt} {l m l' m' : Label} {x y : Expr}

theorem IR.Stmt.AlikeAll.nil : Stmt.AlikeAll D [] [] := rfl

theorem IR.Stmt.AlikeAll.cons (h : s.Alike D t) (hs : Stmt.AlikeAll D ss ts) :
    Stmt.AlikeAll D (s :: ss) (t :: ts) :=
  ⟨t, ts, rfl, h, hs⟩

theorem IR.Stmt.AlikeAll.of_forall₂ (h : List.Forall₂ (Stmt.Alike D) ss ts) :
    Stmt.AlikeAll D ss ts := by
  induction h with
  | nil => exact .nil
  | cons hst _ ih => exact .cons hst ih

theorem IR.Expr.AlikeAll.of_forall₂ {xs ys : List Expr} (h : List.Forall₂ (Expr.Alike D) xs ys) :
    Expr.AlikeAll D xs ys := by
  induction h with
  | nil => exact rfl
  | cons hxy _ ih => exact ⟨_, _, rfl, hxy, ih⟩

theorem IR.Stmt.Alike.label (h : ⟨.jump, l, m⟩ ∈ D) : (Stmt.label l).Alike D (.label m) :=
  ⟨m, rfl, h⟩

theorem IR.Stmt.Alike.jump (h : ⟨.jump, l, m⟩ ∈ D) : (Stmt.jump l).Alike D (.jump m) :=
  ⟨m, rfl, h⟩

theorem IR.Stmt.Alike.cjump (hx : x.Alike D y) (hl : ⟨.jump, l, l'⟩ ∈ D)
    (hm : ⟨.jump, m, m'⟩ ∈ D) : (Stmt.cjump x l m).Alike D (.cjump y l' m') :=
  ⟨y, l', m', rfl, hx, hl, hm⟩

theorem IR.Stmt.Alike.moveTemp (t : Temp) (hx : x.Alike D y) :
    (Stmt.move (.temp t) x).Alike D (.move (.temp t) y) :=
  ⟨_, _, rfl, rfl, hx⟩

end

theorem IR.Expr.Alike.atOffset {a b : Expr} (h : a.Alike D b) (offset : Word) :
    (atOffset a offset).Alike D (atOffset b offset) := by
  unfold TreeCode.atOffset
  split
  · exact h
  · exact ⟨_, _, rfl, h, rfl⟩

theorem IR.Expr.Alike.linkChain : ∀ (n : Nat) {a b : Expr}, a.Alike D b →
    (linkChain n a).Alike D (linkChain n b)
  | 0, _, _, h => h
  | n + 1, _, b, h => IR.Expr.Alike.linkChain n (a := .mem _) (b := .mem b) ⟨b, rfl, h⟩

theorem alike_frameAddress {f g : FrameRecord} (h : f.Alike ρ D g) (level : Nat) :
    Lower.Alike C D (fun E => Expr.Alike E) (frameAddress f level) (frameAddress g level) := by
  unfold frameAddress
  rw [h.level]
  split
  · exact .throw
  · refine .pure fun E _ => ?_
    have hfp : (Expr.temp Temp.fp).Alike E (.temp Temp.fp) := rfl
    exact hfp.linkChain _

/-- A variable has the same address under another name. -/
theorem alike_symbolAddress {layout layout' : Layout} (hlayout : layout.Alike ρ D layout')
    {f g : FrameRecord} (h : f.Alike ρ D g) (x : Symbol) :
    Lower.Alike C D (fun E => Expr.Alike E) (symbolAddress layout f x)
      (symbolAddress layout' g (x.rename ρ)) := by
  have haccess := hlayout.access? x
  unfold symbolAddress
  generalize layout.access? x = a at haccess
  generalize layout'.access? (x.rename ρ) = b at haccess
  cases haccess with
  | none => exact .throw
  | @some a b hab =>
    cases a with
    | global l size =>
      obtain ⟨m, rfl, hlm⟩ := hab
      exact .pure fun E hE => ⟨m, rfl, hE hlm⟩
    | localSlot frame offset size =>
      cases hab
      dsimp only
      rw [hlayout.frameLevel]
      exact (alike_frameAddress h _).bind fun _ _ _ _ hab => .pure fun _ hE =>
        (hab.mono hE).atOffset offset
    | paramSlot frame offset byRef =>
      cases hab
      dsimp only
      rw [hlayout.frameLevel]
      refine (alike_frameAddress h _).bind fun _ _ _ _ hab => .pure fun _ hE => ?_
      have hslot := (hab.mono hE).atOffset offset
      cases byRef with
      | true => exact ⟨_, rfl, hslot⟩
      | false => exact hslot

/-- The readings of a node and of the same node under other names. -/
structure Lowering.Alike (ρ : Renaming) (C D : Draws) (a b : Lowering) : Prop where
  ty : b.ty = a.ty.rename ρ
  value : Lower.Alike C D (fun E => Expr.Alike E) a.value b.value
  effect : Lower.Alike C D (fun E => Stmt.Alike E) a.effect b.effect
  address : Lower.Alike C D (fun E => Expr.Alike E) a.address b.address

namespace Lowering

variable (kind : Kind) {ty : Ty} {a : Lowering} {ty' : Ty} {b : Lowering} {x y : Lower Expr}

theorem Alike.later (h : a.Alike ρ C D b) {E : Draws} (hsub : D ⊆ E) : a.Alike ρ C E b :=
  ⟨h.ty, h.value.later hsub, h.effect.later hsub, h.address.later hsub⟩

theorem alike_ofValue (hty : ty' = ty.rename ρ) (h : Lower.Alike C D (fun E => Expr.Alike E) x y) :
    (ofValue kind ty x).Alike ρ C D (ofValue kind ty' y) where
  ty := hty
  value := h
  effect := h.bind fun _ _ _ _ hab => .pure fun _ hE => ⟨_, rfl, hab.mono hE⟩
  address := .throw

theorem alike_ofEffect (hty : ty' = ty.rename ρ) {x y : Lower Stmt}
    (h : Lower.Alike C D (fun E => Stmt.Alike E) x y) :
    (ofEffect kind ty x).Alike ρ C D (ofEffect kind ty' y) where
  ty := hty
  value := h.bind fun _ _ _ _ hab => .pure fun _ hE => ⟨_, _, rfl, hab.mono hE, rfl⟩
  effect := h
  address := .throw

theorem alike_load (ty : Ty) (h : Lower.Alike C D (fun E => Expr.Alike E) x y) :
    Lower.Alike C D (fun E => Expr.Alike E) (load ty x) (load (ty.rename ρ) y) := by
  refine h.bind fun _ _ _ _ hab => .pure fun _ hE => ?_
  rw [Ty.isAggregate_rename]
  split
  · exact hab.mono hE
  · exact ⟨_, rfl, hab.mono hE⟩

theorem alike_ofAddress (hty : ty' = ty.rename ρ) (h : Lower.Alike C D (fun E => Expr.Alike E) x y)
    :
    (ofAddress ty x).Alike ρ C D (ofAddress ty' y) := by
  subst hty
  exact ⟨rfl, alike_load ty h,
    (alike_load ty h).bind fun _ _ _ _ hab => .pure fun _ hE => ⟨_, rfl, hab.mono hE⟩, h⟩

theorem alike_after {defs defs' : Lower Unit}
    (hdefs : Lower.Alike C D (fun _ _ _ => True) defs defs') (h : a.Alike ρ C D b)
    : (after defs a).Alike ρ C D (after defs' b) where
  ty := h.ty
  value := hdefs.bind fun _ hE _ _ _ => h.value.later hE
  effect := hdefs.bind fun _ hE _ _ _ => h.effect.later hE
  address := hdefs.bind fun _ hE _ _ _ => h.address.later hE

section

variable {a b c d : Lowering}

theorem Alike.argument (h : a.Alike ρ C D b) :
    Lower.Alike C D (fun E => Expr.Alike E) a.argument b.argument := by
  unfold Lowering.argument
  rw [h.ty, Ty.isAggregate_rename]
  split
  · exact h.address
  · exact h.value

theorem alike_element (hab : a.Alike ρ C D b) (hcd : c.Alike ρ C D d) (elem : Ty) :
    Lower.Alike C D (fun E => Expr.Alike E) (element a c elem) (element b d (elem.rename ρ)) := by
  refine hcd.value.bind fun E hE _ _ hi => (hab.address.later hE).bind fun F hF _ _ hbase =>
    .pure fun G hG => ?_
  rw [Ty.size_rename]
  exact ⟨_, _, rfl, hbase.mono hG, _, _, rfl, (hi.mono hF).mono hG, rfl⟩

variable (types : TypeTable)

theorem alike_checkAssignable (h : a.Alike ρ C D b) : Lower.Alike C D (fun _ _ _ => True)
    (checkAssignable types a) (checkAssignable (types.rename ρ) b) := by
  unfold checkAssignable
  rw [h.ty, Ty.isAggregate_rename]
  split
  · exact .throw
  · exact .pure fun _ _ => trivial

theorem alike_assign (hab : a.Alike ρ C D b) (hcd : c.Alike ρ C D d) :
    Lower.Alike C D (fun E => Stmt.Alike E) (assign types a c) (assign (types.rename ρ) b d) := by
  refine (alike_checkAssignable types hab).bind fun _ h₁ _ _ _ => ?_
  refine (hab.later h₁).address.bind fun _ h₂ _ _ ha => ?_
  refine ((hcd.later h₁).later h₂).value.bind fun _ h₃ _ _ hv => .pure fun _ h₄ => ?_
  exact ⟨_, _, rfl, ⟨_, rfl, (ha.mono h₃).mono h₄⟩, hv.mono h₄⟩

theorem alike_assignValue (hab : a.Alike ρ C D b) (hcd : c.Alike ρ C D d) :
    Lower.Alike C D (fun E => Expr.Alike E) (assignValue types a c)
      (assignValue (types.rename ρ) b d) := by
  refine (alike_checkAssignable types hab).bind fun _ h₁ _ _ _ => ?_
  refine Lower.alike_temp.bind fun _ h₂ addr _ haddr => ?_
  refine Lower.alike_temp.bind fun _ h₃ t _ ht => ?_
  cases haddr
  cases ht
  have hab := ((hab.later h₁).later h₂).later h₃
  have hcd := ((hcd.later h₁).later h₂).later h₃
  refine hab.address.bind fun _ h₄ _ _ ha => ?_
  refine (hcd.later h₄).value.bind fun _ h₅ _ _ hv => .pure fun E h₆ => ?_
  have hmove := (ha.mono h₅).mono h₆
  have hlast : (Stmt.move (.mem (.temp addr)) (.temp t)).Alike E
      (.move (.mem (.temp addr)) (.temp t)) := ⟨_, _, rfl, ⟨_, rfl, rfl⟩, rfl⟩
  exact ⟨_, _, rfl, ⟨_, rfl, _, _, rfl, ⟨_, _, rfl, rfl, hmove⟩,
    _, _, rfl, ⟨_, _, rfl, rfl, hv.mono h₆⟩, _, _, rfl, hlast, rfl⟩, rfl⟩

variable {e f : Option Lowering}

section

variable (hab : a.Alike ρ C D b) (hcd : c.Alike ρ C D d) (hef : Option.Rel (Alike ρ C D) e f)
include hab hcd hef

theorem alike_branchEffect :
    Lower.Alike C D (fun E => Stmt.Alike E) (branchEffect a c e) (branchEffect b d f) := by
  refine Lower.alike_label.bind fun _ h₁ _ _ hthen => ?_
  refine Lower.alike_label.bind fun _ h₂ _ _ helse => ?_
  refine ((hab.later h₁).later h₂).value.bind fun _ h₃ _ _ hx => ?_
  have hcd := ((hcd.later h₁).later h₂).later h₃
  have hthen := h₃ (h₂ hthen)
  have helse := h₃ helse
  cases hef with
  | none =>
    refine hcd.effect.bind fun _ h₄ _ _ hst => .pure fun _ h₅ => ⟨_, rfl, ?_⟩
    exact .cons (.cjump ((hx.mono h₄).mono h₅) (h₅ (h₄ hthen)) (h₅ (h₄ helse)))
      (.cons (.label (h₅ (h₄ hthen))) (.cons (hst.mono h₅) (.cons (.label (h₅ (h₄ helse))) .nil)))
  | some hef =>
    refine Lower.alike_label.bind fun _ h₄ _ _ hend => ?_
    refine (hcd.later h₄).effect.bind fun _ h₅ _ _ hst => ?_
    refine ((((hef.later h₁).later h₂).later h₃).later h₄ |>.later h₅).effect.bind
      fun _ h₆ _ _ hst' => .pure fun _ h₇ => ⟨_, rfl, ?_⟩
    have hx := (((hx.mono h₄).mono h₅).mono h₆).mono h₇
    have hthen := h₇ (h₆ (h₅ (h₄ hthen)))
    have helse := h₇ (h₆ (h₅ (h₄ helse)))
    have hend := h₇ (h₆ (h₅ hend))
    exact .cons (.cjump hx hthen helse) (.cons (.label hthen)
      (.cons ((hst.mono h₆).mono h₇) (.cons (.jump hend) (.cons (.label helse)
        (.cons (hst'.mono h₇) (.cons (.label hend) .nil))))))

theorem alike_branchValue :
    Lower.Alike C D (fun E => Expr.Alike E) (branchValue a c e) (branchValue b d f) := by
  cases hef with
  | none => exact .throw
  | some hef =>
    refine Lower.alike_temp.bind fun _ h₁ _ _ ht => ?_
    cases ht
    refine Lower.alike_label.bind fun _ h₂ _ _ hthen => ?_
    refine Lower.alike_label.bind fun _ h₃ _ _ helse => ?_
    refine Lower.alike_label.bind fun _ h₄ _ _ hend => ?_
    have hab := ((hab.later h₁).later h₂).later h₃ |>.later h₄
    have hcd := ((hcd.later h₁).later h₂).later h₃ |>.later h₄
    have hef := ((hef.later h₁).later h₂).later h₃ |>.later h₄
    refine hab.value.bind fun _ h₅ _ _ hx => ?_
    refine (hcd.later h₅).value.bind fun _ h₆ _ _ hv => ?_
    refine ((hef.later h₅).later h₆).value.bind fun _ h₇ _ _ hv' => .pure fun _ h₈ => ?_
    have hx := ((hx.mono h₆).mono h₇).mono h₈
    have hthen := h₈ (h₇ (h₆ (h₅ (h₄ (h₃ hthen)))))
    have helse := h₈ (h₇ (h₆ (h₅ (h₄ helse))))
    have hend := h₈ (h₇ (h₆ (h₅ hend)))
    refine ⟨_, _, rfl, ⟨_, rfl, ?_⟩, rfl⟩
    exact .cons (.cjump hx hthen helse) (.cons (.label hthen)
      (.cons (.moveTemp _ ((hv.mono h₇).mono h₈)) (.cons (.jump hend) (.cons (.label helse)
        (.cons (.moveTemp _ (hv'.mono h₈)) (.cons (.label hend) .nil))))))

end

variable (op : Source.Op) {ty ty' : Ty}

theorem alike_branch (hty : ty' = ty.rename ρ) (hab : a.Alike ρ C D b) (hcd : c.Alike ρ C D d)
    (hef : Option.Rel (Alike ρ C D) e f) : (branch ty a c e).Alike ρ C D (branch ty' b d f) := by
  have heffect := alike_ofEffect .branch hty (alike_branchEffect hab hcd hef)
  refine { heffect with value := ?_ }
  simp only [branch, hty, Ty.isVoid_rename]
  split
  · exact heffect.value
  · exact alike_branchValue hab hcd hef

theorem alike_whileLoop (hab : a.Alike ρ C D b) (hcd : c.Alike ρ C D d) :
    Lower.Alike C D (fun E => Stmt.Alike E) (whileLoop a c) (whileLoop b d) := by
  refine Lower.alike_label.bind fun _ h₁ _ _ hstart => ?_
  refine Lower.alike_label.bind fun _ h₂ _ _ hbody => ?_
  refine Lower.alike_label.bind fun _ h₃ _ _ hend => ?_
  have hab := ((hab.later h₁).later h₂).later h₃
  have hcd := ((hcd.later h₁).later h₂).later h₃
  refine hab.value.bind fun _ h₄ _ _ hx => ?_
  refine (hcd.later h₄).effect.bind fun _ h₅ _ _ hst => .pure fun _ h₆ => ⟨_, rfl, ?_⟩
  have hstart := h₆ (h₅ (h₄ (h₃ (h₂ hstart))))
  have hbody := h₆ (h₅ (h₄ (h₃ hbody)))
  have hend := h₆ (h₅ (h₄ hend))
  exact .cons (.label hstart) (.cons (.cjump ((hx.mono h₅).mono h₆) hbody hend)
    (.cons (.label hbody) (.cons (hst.mono h₆) (.cons (.jump hstart) (.cons (.label hend) .nil)))))

variable {counter counter' lo lo' hi hi' step step' body body' : Lowering}

theorem alike_forLoop (hcounter : counter.Alike ρ C D counter') (hlo : lo.Alike ρ C D lo')
    (hhi : hi.Alike ρ C D hi') (hstep : step.Alike ρ C D step') (hbody : body.Alike ρ C D body') :
    Lower.Alike C D (fun E => Stmt.Alike E) (forLoop counter lo hi step body)
      (forLoop counter' lo' hi' step' body') := by
  refine Lower.alike_label.bind fun _ h₁ _ _ hstartLabel => ?_
  refine Lower.alike_label.bind fun _ h₂ _ _ hbodyLabel => ?_
  refine Lower.alike_label.bind fun _ h₃ _ _ hendLabel => ?_
  have hstartLabel := h₃ (h₂ hstartLabel)
  have hbodyLabel := h₃ hbodyLabel
  have hcounter := ((hcounter.later h₁).later h₂).later h₃
  refine hcounter.address.bind fun _ h₄ _ _ hfirst => ?_
  refine ((((hlo.later h₁).later h₂).later h₃).later h₄).value.bind fun _ h₅ _ _ hl => ?_
  have hcounter := (hcounter.later h₄).later h₅
  refine hcounter.address.bind fun _ h₆ _ _ htested => ?_
  have hhi := ((((hhi.later h₁).later h₂).later h₃).later h₄).later h₅ |>.later h₆
  refine hhi.value.bind fun _ h₇ _ _ hh => ?_
  have hbody := ((((hbody.later h₁).later h₂).later h₃).later h₄).later h₅ |>.later h₆ |>.later h₇
  refine hbody.effect.bind fun _ h₈ _ _ hst => ?_
  have hcounter := ((hcounter.later h₆).later h₇).later h₈
  refine hcounter.address.bind fun _ h₉ _ _ hwritten => ?_
  refine (hcounter.later h₉).address.bind fun _ h₁₀ _ _ hread => ?_
  have hstep := ((((hstep.later h₁).later h₂).later h₃).later h₄).later h₅ |>.later h₆
    |>.later h₇ |>.later h₈ |>.later h₉ |>.later h₁₀
  refine hstep.value.bind fun _ h₁₁ _ _ hx => .pure fun _ h₁₂ => ⟨_, rfl, ?_⟩
  -- bring everything to the last state
  have h₁₁ := List.Subset.trans h₁₁ h₁₂
  have h₁₀ := List.Subset.trans h₁₀ h₁₁
  have h₉ := List.Subset.trans h₉ h₁₀
  have h₈ := List.Subset.trans h₈ h₉
  have h₇ := List.Subset.trans h₇ h₈
  have h₆ := List.Subset.trans h₆ h₇
  have h₅ := List.Subset.trans h₅ h₆
  have h₄ := List.Subset.trans h₄ h₅
  refine .cons ⟨_, _, rfl, ⟨_, rfl, hfirst.mono h₅⟩, hl.mono h₆⟩
    (.cons (.label (h₄ hstartLabel)) ?_)
  refine .cons (.cjump ⟨_, _, rfl, ⟨_, rfl, htested.mono h₇⟩, hh.mono h₈⟩ (h₄ hbodyLabel)
    (h₄ hendLabel)) (.cons (.label (h₄ hbodyLabel)) (.cons (hst.mono h₉) ?_))
  exact .cons ⟨_, _, rfl, ⟨_, rfl, hwritten.mono h₁₀⟩, _, _, rfl, ⟨_, rfl, hread.mono h₁₁⟩,
    hx.mono h₁₂⟩ (.cons (.jump (h₄ hstartLabel)) (.cons (.label (h₄ hendLabel)) .nil))

section

variable {xs ys : List Lowering}

theorem alike_effects (h : List.Forall₂ (Alike ρ C D) xs ys) :
    Lower.Alike C D (fun E => List.Forall₂ (Stmt.Alike E)) (effects xs) (effects ys) :=
  .mapM (fun hsub _ _ hst => hst.mono hsub) (fun _ _ hxy => hxy.effect) h

theorem alike_sequence {ty ty' : Ty} (hty : ty' = ty.rename ρ)
    (h : List.Forall₂ (Alike ρ C D) xs ys) :
    (sequence ty xs).Alike ρ C D (sequence ty' ys) := by
  have hseq : Lower.Alike C D (fun E => Stmt.Alike E) (do return .seq (← effects xs))
      (do return .seq (← effects ys)) :=
    (alike_effects h).bind fun _ _ _ _ hss => .pure fun _ hE =>
      ⟨_, rfl, .of_forall₂ (hss.imp fun _ _ hst => hst.mono hE)⟩
  have heffect := alike_ofEffect .sequence hty hseq
  refine { heffect with value := ?_ }
  have hlast := forall₂_getLast? h
  simp only [sequence]
  generalize xs.getLast? = a at hlast
  generalize ys.getLast? = b at hlast
  cases hlast with
  | none => exact .pure fun _ _ => rfl
  | some hlast =>
    simp only [hlast.ty, Ty.isVoid_rename]
    split
    · exact heffect.value
    · refine (alike_effects (forall₂_dropLast h)).bind fun _ h₁ _ _ hss => ?_
      refine (hlast.later h₁).value.bind fun _ h₂ _ _ he => .pure fun _ h₃ => ?_
      have hss := IR.Stmt.AlikeAll.of_forall₂ (hss.imp fun _ _ hst => (hst.mono h₂).mono h₃)
      exact ⟨_, _, rfl, hss.join, he.mono h₃⟩

theorem alike_call {layout layout' : Layout} (hlayout : layout.Alike ρ D layout')
    {f g : FrameRecord} (hfg : f.Alike ρ D g) (callee : Symbol)
    (h : List.Forall₂ (Alike ρ C D) xs ys) :
    Lower.Alike C D (fun E => Expr.Alike E) (call layout f callee xs)
      (call layout' g (callee.rename ρ) ys) := by
  have hframe := hlayout.frameOf? callee
  unfold Lowering.call
  generalize layout.frameOf? callee = a at hframe
  generalize layout'.frameOf? (callee.rename ρ) = b at hframe
  cases hframe with
  | none => exact .throw
  | some hframe =>
    have hargs : Lower.Alike C D (fun E => List.Forall₂ (Expr.Alike E)) (xs.mapM argument)
        (ys.mapM argument) :=
      .mapM (fun hsub _ _ he => he.mono hsub) (fun _ _ hxy => hxy.argument) h
    refine hargs.bind fun _ h₁ _ _ hes => .pure fun _ h₂ => ?_
    rw [hfg.level, hframe.level]
    exact ⟨_, _, rfl, h₂ (h₁ hframe.label), _, _, rfl, rfl,
      .of_forall₂ (hes.imp fun _ _ he => he.mono h₂)⟩

end

theorem alike_binary (hty : ty' = ty.rename ρ) (hab : a.Alike ρ C D b) (hcd : c.Alike ρ C D d) :
    (binary types op ty a c).Alike ρ C D (binary (types.rename ρ) op ty' b d) := by
  have hplain : Lower.Alike C D (fun E => Expr.Alike E)
      (do let x ← a.value; return .binop (binaryOp op) x (← c.value))
      (do let x ← b.value; return .binop (binaryOp op) x (← d.value)) := by
    refine hab.value.bind fun _ h₁ _ _ hx => ?_
    refine (hcd.later h₁).value.bind fun _ h₂ _ _ hy => .pure fun _ h₃ => ?_
    exact ⟨_, _, rfl, (hx.mono h₂).mono h₃, hy.mono h₃⟩
  cases op with
  | index =>
    subst hty
    exact alike_ofAddress rfl (alike_element hab hcd ty)
  | assign =>
    exact { alike_ofValue .binaryOp hty (alike_assignValue types hab hcd) with
      effect := alike_assign types hab hcd }
  | _ => exact alike_ofValue .binaryOp hty hplain

theorem alike_unary (hty : ty' = ty.rename ρ) (hab : a.Alike ρ C D b)
    : (unary op ty a).Alike ρ C D (unary op ty' b) := by
  cases op with
  | plus => exact alike_ofValue .unaryOp hty hab.value
  | neg | not =>
    exact alike_ofValue .unaryOp hty (hab.value.bind fun _ _ _ _ hx => .pure fun _ hE =>
      ⟨_, rfl, hx.mono hE⟩)
  | addr => exact alike_ofValue .unaryOp hty hab.address
  | deref => exact alike_ofAddress hty hab.value
  | _ => exact alike_ofValue .unaryOp hty .throw

end

end Lowering

section

variable {layout layout' : Layout} (types : TypeTable) (hlayout : layout.Alike ρ D layout')
include hlayout

section

variable {ns : List Node} (hns : Lower.Alike C D (fun _ _ _ => True)
  (Node.lowerDefs types layout ns) (Node.lowerDefs (types.rename ρ) layout' (Node.renameAll ρ ns)))
include hns

/-- The chunk of a variable on top level. -/
theorem alike_lowerVariable (x : Symbol) :
    Lower.Alike C D (fun _ _ _ => True) (Node.lowerDefs types layout (.varDecl x :: ns))
      (Node.lowerDefs (types.rename ρ) layout' (Node.renameAll ρ (.varDecl x :: ns))) := by
  have haccess := hlayout.access? x
  rw [Node.renameAll, Node.rename, Node.lowerDefs, Node.lowerDefs]
  cases hx : layout.access? x <;> cases hy : layout'.access? (x.rename ρ) <;>
    rw [hx, hy] at haccess <;> cases haccess
  · exact .throw
  next a b hab =>
    cases a with
    | global l size =>
      obtain ⟨m, rfl, hlm⟩ := hab
      exact (Lower.alike_emit (.data hlm)).bind fun _ hE _ _ _ => hns.later hE
    | localSlot _ _ _ | paramSlot _ _ _ =>
      cases hab
      exact hns

/-- The chunks of a function, given the readings of its body. -/
theorem alike_lowerFunction {body : Node} (hbody : ∀ {f g : FrameRecord}, f.Alike ρ D g →
      (body.lower types layout f).Alike ρ C D ((body.rename ρ).lower (types.rename ρ) layout' g))
    (x : Symbol) (params : List Symbol) : Lower.Alike C D (fun _ _ _ => True)
      (Node.lowerDefs types layout (.funDecl x params (some body) :: ns))
      (Node.lowerDefs (types.rename ρ) layout'
        (Node.renameAll ρ (.funDecl x params (some body) :: ns))) := by
  have hframe := hlayout.frameOf? x
  rw [Node.renameAll, Node.rename, Node.lowerDefs, Node.lowerDefs]
  cases hx : layout.frameOf? x <;> cases hy : layout'.frameOf? (x.rename ρ) <;>
    rw [hx, hy] at hframe <;> cases hframe
  · exact .throw
  next f g hfg =>
    refine (Lower.alike_function hfg.frame ?_).bind fun _ hE _ _ _ => hns.later hE
    rw [Symbol.ty_rename, Ty.isVoid_rename]
    split
    · exact (hbody hfg).effect
    · exact (hbody hfg).value.bind fun _ _ _ _ he => .pure fun _ hE => .moveTemp _ (he.mono hE)

end

-- lists need `hlayout` through their members only
set_option linter.unusedSectionVars false in
mutual

/-- A node has the same readings under other names. -/
theorem alike_lower {f g : FrameRecord} (hfg : f.Alike ρ D g) : ∀ n : Node,
    (n.lower types layout f).Alike ρ C D ((n.rename ρ).lower (types.rename ρ) layout' g)
  | .number n => Lowering.alike_ofValue .number rfl (.pure fun _ _ => rfl)
  | .logical b => Lowering.alike_ofValue .logical rfl (.pure fun _ _ => rfl)
  | .string bytes => Lowering.alike_ofValue .string rfl (Lower.alike_string bytes)
  | .ident x => Lowering.alike_ofAddress rfl (alike_symbolAddress hlayout hfg x)
  | .member operand field => by
    have h := alike_lower hfg operand
    have hfield : (((operand.rename ρ).lower (types.rename ρ) layout' g).ty.field? field).getD
        (0, .absent) = (fun place : Word × Ty => (place.1, place.2.rename ρ))
          (((operand.lower types layout f).ty.field? field).getD (0, .absent)) := by
      rw [h.ty, Ty.field?_rename]
      cases (operand.lower types layout f).ty.field? field <;> rfl
    rw [Node.rename, Node.lower, Node.lower]
    dsimp only
    rw [hfield]
    exact Lowering.alike_ofAddress rfl (h.address.bind fun _ _ _ _ ha => .pure fun _ hE =>
      (ha.mono hE).atOffset _)
  | .binary op left right => by
    have hl := alike_lower hfg left
    refine Lowering.alike_binary types op ?_ hl (alike_lower hfg right)
    rw [hl.ty, Node.binaryTy_rename]
  | .unary op operand => by
    have h := alike_lower hfg operand
    refine Lowering.alike_unary op ?_ h
    rw [h.ty, Node.unaryTy_rename]
  | .call callee args =>
    Lowering.alike_ofValue .funcCall rfl
      (Lowering.alike_call hlayout hfg callee (alike_lowerAll hfg args))
  | .sequence items => by
    have h := alike_lowerAll hfg items
    refine Lowering.alike_sequence ?_ h
    have hlast := forall₂_getLast? h
    generalize (Node.lowerAll types layout f items).getLast? = a at hlast
    generalize (Node.lowerAll (types.rename ρ) layout' g (Node.renameAll ρ items)).getLast? = b
      at hlast
    cases hlast with
    | none => rfl
    | some hlast => exact hlast.ty
  | .within body defs => Lowering.alike_after (alike_lowerDefs defs) (alike_lower hfg body)
  | .branch valued condition thenArm none => by
    have ht := alike_lower hfg thenArm
    refine Lowering.alike_branch ?_ (alike_lower hfg condition) ht .none
    cases valued with
    | true => exact ht.ty
    | false => rfl
  | .branch valued condition thenArm (some elseArm) => by
    have ht := alike_lower hfg thenArm
    refine Lowering.alike_branch ?_ (alike_lower hfg condition) ht
      (.some (alike_lower hfg elseArm))
    cases valued with
    | true => exact ht.ty
    | false => rfl
  | .whileLoop condition body =>
    Lowering.alike_ofEffect .whileLoop rfl
      (Lowering.alike_whileLoop (alike_lower hfg condition) (alike_lower hfg body))
  | .forLoop counter lo hi step body =>
    Lowering.alike_ofEffect .forLoop rfl
      (Lowering.alike_forLoop (alike_lower hfg counter) (alike_lower hfg lo) (alike_lower hfg hi)
        (alike_lower hfg step) (alike_lower hfg body))
  | .funDecl _ _ none | .funDecl _ _ (some _) => Lowering.alike_ofValue .funcDecl rfl .throw
  | .varDecl _ => Lowering.alike_ofValue .varDecl rfl .throw
  | .parDecl _ => Lowering.alike_ofValue .parDecl rfl .throw
  | .typeDecl _ => Lowering.alike_ofValue .typeDecl rfl .throw
termination_by structural n => n

theorem alike_lowerAll {f g : FrameRecord} (hfg : f.Alike ρ D g) : ∀ ns : List Node,
    List.Forall₂ (Lowering.Alike ρ C D) (Node.lowerAll types layout f ns)
      (Node.lowerAll (types.rename ρ) layout' g (Node.renameAll ρ ns))
  | [] => .nil
  | n :: rest => .cons (alike_lower hfg n) (alike_lowerAll hfg rest)
termination_by structural ns => ns

theorem alike_lowerDefs : ∀ ns : List Node, Lower.Alike C D (fun _ _ _ => True)
    (Node.lowerDefs types layout ns) (Node.lowerDefs (types.rename ρ) layout' (Node.renameAll ρ ns))
  | [] => .pure fun _ _ => trivial
  | .varDecl x :: rest => alike_lowerVariable types hlayout (alike_lowerDefs rest) x
  | .funDecl x params (some body) :: rest =>
    alike_lowerFunction types hlayout (alike_lowerDefs rest)
      (fun hfg => alike_lower hfg body) x params
  | .funDecl _ _ none :: rest | .number _ :: rest | .logical _ :: rest | .string _ :: rest
  | .ident _ :: rest | .binary _ _ _ :: rest | .unary _ _ :: rest | .member _ _ :: rest
  | .call _ _ :: rest | .sequence _ :: rest | .within _ _ :: rest | .branch _ _ _ none :: rest
  | .branch _ _ _ (some _) :: rest | .whileLoop _ _ :: rest | .forLoop _ _ _ _ _ :: rest
  | .parDecl _ :: rest | .typeDecl _ :: rest => alike_lowerDefs rest
termination_by structural ns => ns

end

end

/-- A program that has code has code under other names that is alike. -/
theorem Source.Program.alike_of_lower {p : Source.Program} {layout layout' : Layout}
    {laid laid' supply : Supply} {chunks : List Chunk}
    (hlayout : LayoutState.Alike ρ C ⟨layout, laid⟩ ⟨layout', laid'⟩)
    (h : p.lower layout laid = .ok (chunks, supply)) :
    ∃ chunks' supply' D, (p.rename ρ).lower layout' laid' = .ok (chunks', supply') ∧ C ⊆ D ∧
      LowerState.Alike C D ⟨supply, chunks⟩ ⟨supply', chunks'⟩ := by
  have hstart : LowerState.Alike C C ⟨laid, []⟩ ⟨laid', []⟩ :=
    ⟨hlayout.supply, .nil, fun _ _ hlm => hlm⟩
  have hends := alike_lowerDefs p.types hlayout.layout p.defs C (List.Subset.refl _) _ _ hstart
  unfold Source.Program.lower at h ⊢
  obtain ⟨⟨_, s⟩, hs, h⟩ := Outcome.of_bind h
  cases h
  rw [hs] at hends
  rw [Source.Program.rename]
  cases ht : Node.lowerDefs (p.types.rename ρ) layout' (Node.renameAll ρ p.defs) ⟨laid', []⟩ with
  | error e =>
    rw [ht] at hends
    cases hends
  | ok r =>
    obtain ⟨_, t⟩ := r
    rw [ht] at hends
    cases hends with
    | ok hsub hst _ => exact ⟨t.chunks, t.supply, _, rfl, hsub, hst⟩

end TreeCode
