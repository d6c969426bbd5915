/-
# Sound code

Code is sound if nothing in it depends on the form it is run in: its names have data,
its moves go to memory or to temps below a bound, and the jumps of every block stay
inside that block. `Expr.Sound` and `Stmt.Sound` say so for trees. `Expr.Stable` and
`Stmt.Stable` say it without asking that temps have natural numbers, and that is enough for
lifting.

Lifting turns stable code into flat lists of instructions without blocks inside them.
Such a list is described by `Tame`: its jumps stay inside it, it places exactly the
labels of the tree it was made from, and its moves go to temps below a bound.
-/

import TreeCode.Proofs.IR.Plain
import TreeCode.Proofs.Machine.Control

namespace TreeCode

/-- Whether a temp is one of the first `k`. -/
def Temp.Below (k : Nat) (t : Temp) : Prop :=
  0 ≤ t.index ∧ t.index < k

end TreeCode

namespace TreeCode.IR

namespace Effect

/-- The label that an effect places. -/
def placed? : Effect → Option Label
  | .label l => some l
  | _ => none

/-- The labels that an effect may jump to. -/
def targets : Effect → List Label
  | .jump l => [l]
  | .cjump t f => [t, f]
  | _ => []

/-- Whether an effect places a label or may jump. -/
def isControl : Effect → Bool
  | .label _ => true
  | .jump _ => true
  | .cjump _ _ => true
  | _ => false

/-- The labels that some effects place. -/
def labels (es : List Effect) : List Label :=
  es.filterMap placed?

/-- The labels that some effects may jump to. -/
def jumps (es : List Effect) : List Label :=
  es.flatMap targets

/-- The labels and jumps among some effects. -/
def control (es : List Effect) : List Effect :=
  es.filter isControl

variable (a es b : List Effect)

@[simp]
theorem labels_append : labels (a ++ b) = labels a ++ labels b :=
  List.filterMap_append

@[simp]
theorem jumps_append : jumps (a ++ b) = jumps a ++ jumps b :=
  List.flatMap_append

@[simp]
theorem control_append : control (a ++ b) = control a ++ control b :=
  List.filter_append ..

theorem labels_control : labels (control es) = labels es := by
  induction es with
  | nil => rfl
  | cons e es ih =>
    simp only [labels, control] at ih ⊢
    cases e <;> simp only [List.filter_cons, isControl, if_true, if_false, Bool.false_eq_true,
      List.filterMap_cons, placed?, ih]

theorem jumps_control : jumps (control es) = jumps es := by
  induction es with
  | nil => rfl
  | cons e es ih =>
    simp only [jumps, control] at ih ⊢
    cases e <;> simp only [List.filter_cons, isControl, if_true, if_false, Bool.false_eq_true,
      List.flatMap_cons, targets, List.nil_append, ih]

theorem control_filter_isOld (n : Nat) (es : List Effect) :
    control (es.filter (isOld n)) = control es := by
  rw [control, List.filter_filter]
  congr 1
  funext e
  cases e <;> rfl

end Effect

open Effect (labels jumps control)

variable {code : List Stmt} {s : Stmt} {k n m : Nat}

theorem Refresh.control_eq {old new : List Effect} (h : Refresh old new n m) :
    control new = control old := by
  rw [← Effect.control_filter_isOld n new, h.kept n (Nat.le_refl n), Effect.control_filter_isOld]

/-- Calls neither place labels nor jump. -/
theorem Effect.control_of_calls {es : List Effect}
    (h : ∀ a ∈ es, (∃ t, a ∈ tally.read t) ∨ ∃ f first, a ∈ tally.call f first) :
    control es = [] := by
  refine List.filter_eq_nil_iff.2 fun a ha => ?_
  obtain ⟨_, ⟨⟩⟩ | ⟨f, first, hcall⟩ := h a ha
  cases List.mem_singleton.1 hcall
  exact Bool.false_ne_true

theorem Expr.control_of_plain {e : Expr} (h : e.plain = true) : control e.effects = [] :=
  Effect.control_of_calls fun a => Effect.tally.of_plain a h

theorem Expr.control_of_plainAll {es : List Expr} (h : Expr.plainAll es = true) :
    control (Expr.effectsAll es) = [] :=
  Effect.control_of_calls fun a => Effect.tally.of_plainAll a h

/-- What a plain instruction places and jumps to can be read off the instruction. -/
theorem Stmt.control_of_plain (h : s.plain = true) :
    labels s.effects = Block.placed [s] ∧ jumps s.effects = Block.targets s := by
  rw [← Effect.labels_control, ← Effect.jumps_control]
  have hquiet {es : List Effect} (hes : control es = []) :
      labels (control es) = [] ∧ jumps (control es) = [] := by
    rw [hes]
    exact ⟨rfl, rfl⟩
  cases s with
  | exp e => exact hquiet (Expr.control_of_plain h)
  | cjump c t f =>
    rw [Stmt.effects, Effect.control_append, Expr.control_of_plain h]
    exact ⟨rfl, rfl⟩
  | jump _ | label _ => exact ⟨rfl, rfl⟩
  | seq _ | absent => cases h
  | move d e =>
    cases d with
    | temp t =>
      refine hquiet ?_
      rw [Stmt.effects, Expr.moveEffects, Effect.control_append, Expr.control_of_plain h]
      rfl
    | mem a =>
      rw [Stmt.plain, Bool.and_eq_true] at h
      refine hquiet ?_
      rw [Stmt.effects, Expr.moveEffects, Effect.control_append, Effect.control_append,
        Expr.control_of_plain h.1, Expr.control_of_plain h.2]
      rfl
    | _ => cases h

theorem Stmt.PlainCode.labels_eq (h : PlainCode code) :
    labels (Stmt.effectsAll code) = Block.placed code := by
  induction code with
  | nil => rfl
  | cons s code ih =>
    rw [Stmt.effectsAll, Effect.labels_append, (Stmt.control_of_plain (h s (.head _))).1,
      ih fun i hi => h i (.tail _ hi), ← Block.placed_append, List.singleton_append]

theorem Stmt.PlainCode.mem_jumps (h : PlainCode code) (hs : s ∈ code) {l : Label}
    (hl : l ∈ Block.targets s) : l ∈ jumps (Stmt.effectsAll code) := by
  induction code with
  | nil => cases hs
  | cons i code ih =>
    rw [Stmt.effectsAll, Effect.jumps_append, (Stmt.control_of_plain (h i (.head _))).2,
      List.mem_append]
    cases hs with
    | head => exact .inl hl
    | tail _ hs => exact .inr (ih (fun j hj => h j (.tail _ hj)) hs)

mutual

/-- An expression whose names satisfy `N`, whose temps are among the first `k`, and
whose blocks keep their jumps to themselves. -/
def Expr.Sound (N : Label → Prop) (k : Nat) : Expr → Prop
  | .const _ => True
  | .name l => N l
  | .temp t => t.Below k
  | .mem a => a.Sound N k
  | .binop _ x y => x.Sound N k ∧ y.Sound N k
  | .unop _ x => x.Sound N k
  | .call _ args => Expr.SoundAll N k args
  | .eseq s e => (s.Sound N k ∧ Block.Closed s.flatten) ∧ e.Sound N k

/-- A list of such expressions. -/
def Expr.SoundAll (N : Label → Prop) (k : Nat) : List Expr → Prop
  | [] => True
  | e :: es => e.Sound N k ∧ Expr.SoundAll N k es

/-- A statement with such expressions, whose moves go to memory or to temps other
than the frame pointer. -/
def Stmt.Sound (N : Label → Prop) (k : Nat) : Stmt → Prop
  | .absent => True
  | .exp e => e.Sound N k
  | .move (.temp t) e => (t ≠ Temp.fp ∧ t.Below k) ∧ e.Sound N k
  | .move (.mem a) e => a.Sound N k ∧ e.Sound N k
  | .move _ _ => False
  | .seq ss => Stmt.SoundAll N k ss
  | .cjump c _ _ => c.Sound N k
  | .jump _ => True
  | .label _ => True

/-- A list of such statements. -/
def Stmt.SoundAll (N : Label → Prop) (k : Nat) : List Stmt → Prop
  | [] => True
  | s :: ss => s.Sound N k ∧ Stmt.SoundAll N k ss

end

mutual

/-- An expression as in `Expr.Sound`, with any temps below `k`, also those with a negative
number. Nothing about lifting depends on the sign. -/
def Expr.Stable (N : Label → Prop) (k : Nat) : Expr → Prop
  | .const _ => True
  | .name l => N l
  | .temp t => t.index < k
  | .mem a => a.Stable N k
  | .binop _ x y => x.Stable N k ∧ y.Stable N k
  | .unop _ x => x.Stable N k
  | .call _ args => Expr.StableAll N k args
  | .eseq s e => (s.Stable N k ∧ Block.Closed s.flatten) ∧ e.Stable N k

/-- A list of such expressions. -/
def Expr.StableAll (N : Label → Prop) (k : Nat) : List Expr → Prop
  | [] => True
  | e :: es => e.Stable N k ∧ Expr.StableAll N k es

/-- A statement with such expressions, whose moves go to memory or to temps other
than the frame pointer. -/
def Stmt.Stable (N : Label → Prop) (k : Nat) : Stmt → Prop
  | .absent => True
  | .exp e => e.Stable N k
  | .move (.temp t) e => (t ≠ Temp.fp ∧ t.index < k) ∧ e.Stable N k
  | .move (.mem a) e => a.Stable N k ∧ e.Stable N k
  | .move _ _ => False
  | .seq ss => Stmt.StableAll N k ss
  | .cjump c _ _ => c.Stable N k
  | .jump _ => True
  | .label _ => True

/-- A list of such statements. -/
def Stmt.StableAll (N : Label → Prop) (k : Nat) : List Stmt → Prop
  | [] => True
  | s :: ss => s.Stable N k ∧ Stmt.StableAll N k ss

end

variable {N : Label → Prop} {k : Nat}

mutual

theorem Expr.Sound.stable : ∀ {e : Expr}, e.Sound N k → e.Stable N k
  | .const _, _ => trivial
  | .name _, h => h
  | .temp _, h => h.2
  | .mem a, h => Expr.Sound.stable (e := a) h
  | .unop _ x, h => Expr.Sound.stable (e := x) h
  | .binop _ _ _, h => ⟨Expr.Sound.stable h.1, Expr.Sound.stable h.2⟩
  | .call _ args, h => @Expr.SoundAll.stable args h
  | .eseq _ _, h => ⟨⟨Stmt.Sound.stable h.1.1, h.1.2⟩, Expr.Sound.stable h.2⟩

theorem Expr.SoundAll.stable : ∀ {es : List Expr},
    Expr.SoundAll N k es → Expr.StableAll N k es
  | [], _ => trivial
  | _ :: _, h => ⟨Expr.Sound.stable h.1, Expr.SoundAll.stable h.2⟩

theorem Stmt.Sound.stable : ∀ {s : Stmt}, s.Sound N k → s.Stable N k
  | .absent, _ => trivial
  | .exp e, h => Expr.Sound.stable (e := e) h
  | .move (.temp _) _, h => ⟨⟨h.1.1, h.1.2.2⟩, Expr.Sound.stable h.2⟩
  | .move (.mem _) _, h => ⟨Expr.Sound.stable h.1, Expr.Sound.stable h.2⟩
  | .seq ss, h => @Stmt.SoundAll.stable ss h
  | .cjump c _ _, h => Expr.Sound.stable (e := c) h
  | .jump _, _ | .label _, _ => trivial

theorem Stmt.SoundAll.stable : ∀ {ss : List Stmt},
    Stmt.SoundAll N k ss → Stmt.StableAll N k ss
  | [], _ => trivial
  | _ :: _, h => ⟨Stmt.Sound.stable h.1, Stmt.SoundAll.stable h.2⟩

end

mutual

/-- Labels on the top level of a block are among its labels. -/
theorem Stmt.placed_flatten : ∀ s : Stmt, (Block.placed s.flatten).Sublist (labels s.effects)
  | .absent => .slnil
  | .exp _ | .move _ _ => List.nil_sublist _
  | .seq ss => Stmt.placed_flattenAll ss
  | .cjump _ _ _ => List.nil_sublist _
  | .jump _ => .slnil
  | .label _ => List.Sublist.refl _

theorem Stmt.placed_flattenAll : ∀ ss : List Stmt,
    (Block.placed (Stmt.flattenAll ss)).Sublist (labels (Stmt.effectsAll ss))
  | [] => .slnil
  | s :: ss => by
    rw [Stmt.flattenAll, Stmt.effectsAll, Block.placed_append, Effect.labels_append]
    exact (Stmt.placed_flatten s).append (Stmt.placed_flattenAll ss)

end

/-- Effects whose assignments go to temps below `k` and whose jumps lead to labels
among them, apart from those in `out`. -/
structure Confined (k : Nat) (out : Label → Prop) (es : List Effect) : Prop where
  bounded : ∀ t : Temp, .assign t ∈ es → t.index < k
  inside : ∀ l ∈ jumps es, l ∈ labels es ∨ out l

namespace Confined

variable {k : Nat} {out out' : Label → Prop} {a b : List Effect}

theorem append (ha : Confined k out a) (hb : Confined k out b) : Confined k out (a ++ b) where
  bounded t ht := (List.mem_append.1 ht).elim (ha.bounded t) (hb.bounded t)
  inside l hl := by
    rw [Effect.jumps_append, List.mem_append] at hl
    rw [Effect.labels_append, List.mem_append]
    rcases hl with hl | hl
    · exact (ha.inside l hl).imp_left .inl
    · exact (hb.inside l hl).imp_left .inr

theorem mono (h : Confined k out a) (hout : ∀ l, out l → l ∈ labels a ∨ out' l) :
    Confined k out' a where
  bounded := h.bounded
  inside l hl := (h.inside l hl).elim .inl (hout l)

theorem nil : Confined k out [] where
  bounded _ h := by cases h
  inside _ h := by cases h

theorem single {e : Effect} (hbound : ∀ t : Temp, e = .assign t → t.index < k)
    (hjump : ∀ l ∈ e.targets, out l) : Confined k out [e] where
  bounded t ht := hbound t (List.mem_singleton.1 ht).symm
  inside l hl := by
    simp only [jumps, List.flatMap_cons, List.flatMap_nil, List.append_nil] at hl
    exact .inr (hjump l hl)

theorem assign {t : Temp} (h : t.index < k) : Confined k out [.assign t] :=
  single (fun _ heq => Effect.assign.inj heq ▸ h) fun _ hl => by cases hl

end Confined

/-- The labels that a list of instructions may jump to. -/
def Leaves (code : List Stmt) (l : Label) : Prop :=
  ∃ s ∈ code, l ∈ Block.targets s

/-- The jumps of a closed block stay among its effects. -/
theorem Confined.of_closed (h : Confined k (Leaves s.flatten) s.effects)
    (hclosed : Block.Closed s.flatten) : Confined k (fun _ => False) s.effects := by
  refine h.mono fun l hl => .inl ?_
  obtain ⟨i, hi, hl⟩ := hl
  exact (Stmt.placed_flatten s).subset (hclosed i hi l hl)

mutual

theorem Expr.Stable.confined : ∀ {e : Expr}, e.Stable N k →
    Confined k (fun _ => False) e.effects
  | .const _, _ | .name _, _ | .temp _, _ => .nil
  | .mem a, h => Expr.Stable.confined (e := a) h
  | .unop _ x, h => Expr.Stable.confined (e := x) h
  | .binop _ x y, h =>
    (Expr.Stable.confined (e := x) h.1).append (Expr.Stable.confined (e := y) h.2)
  | .call f args, h =>
    (Expr.StableAll.confined h).append (.single (fun _ h => by cases h) fun _ h => by cases h)
  | .eseq s e, h =>
    (Confined.of_closed (Stmt.Stable.confined h.1.1) h.1.2).append (Expr.Stable.confined h.2)

theorem Expr.StableAll.confined : ∀ {es : List Expr},
    Expr.StableAll N k es → Confined k (fun _ => False) (Expr.effectsAll es)
  | [], _ => .nil
  | e :: _, h => (Expr.Stable.confined (e := e) h.1).append (Expr.StableAll.confined h.2)

theorem Stmt.Stable.confined : ∀ {s : Stmt}, s.Stable N k →
    Confined k (Leaves s.flatten) s.effects
  | .absent, _ => .nil
  | .exp e, h => Confined.mono (Expr.Stable.confined (e := e) h) fun _ => False.elim
  | .move (.temp t) e, h =>
    (Confined.mono (Expr.Stable.confined (e := e) h.2) fun _ => False.elim).append (.assign h.1.2)
  | .move (.mem a) e, h =>
    Confined.append (.append (Confined.mono (Expr.Stable.confined (e := a) h.1) fun _ => False.elim)
      (Confined.mono (Expr.Stable.confined (e := e) h.2) fun _ => False.elim))
      (.single (fun _ h => by cases h) fun _ h => by cases h)
  | .seq ss, h => Stmt.StableAll.confined h
  | .cjump c t f, h =>
    Confined.append (Confined.mono (Expr.Stable.confined (e := c) h) fun _ => False.elim)
      (.single (fun _ h => by cases h) fun _ hl => ⟨_, List.mem_singleton.2 rfl, hl⟩)
  | .jump l, _ => .single (fun _ h => by cases h) fun _ hl => ⟨_, List.mem_singleton.2 rfl, hl⟩
  | .label _, _ => .single (fun _ h => by cases h) fun _ h => by cases h

theorem Stmt.StableAll.confined : ∀ {ss : List Stmt},
    Stmt.StableAll N k ss → Confined k (Leaves (Stmt.flattenAll ss)) (Stmt.effectsAll ss)
  | [], _ => .nil
  | s :: ss, h => by
    refine Confined.append (Confined.mono (Stmt.Stable.confined h.1) fun l hl => .inr ?_)
      (Confined.mono (Stmt.StableAll.confined h.2) fun l hl => .inr ?_)
    · obtain ⟨i, hi, hl⟩ := hl
      exact ⟨i, List.mem_append_left _ hi, hl⟩
    · obtain ⟨i, hi, hl⟩ := hl
      exact ⟨i, List.mem_append_right _ hi, hl⟩

end

/-- Flat code whose jumps stay inside it, which places the given labels and assigns
to temps below a bound. -/
structure Tame (code : List Stmt) (ls : List Label) (m : Nat) : Prop where
  closed : Block.Closed code
  placed : Block.placed code = ls
  bounded : ∀ t : Temp, .assign t ∈ Stmt.effectsAll code → t.index < m

/-- What lifting pulls in front of a plain value is tame. -/
theorem Tame.of_refresh {pre : Stmt} {old rest : List Effect} (hpre : Stmt.PlainCode pre.flatten)
    (hrest : control rest = []) (h : Refresh old (pre.effects ++ rest) n m)
    (hold : Confined k (fun _ => False) old) (hk : k ≤ n) : Tame pre.flatten (labels old) m := by
  have hcontrol : control pre.effects = control old := by
    rw [← h.control_eq, Effect.control_append, hrest, List.append_nil]
  have hlabels : labels pre.effects = labels old := by
    rw [← Effect.labels_control, hcontrol, Effect.labels_control]
  have hplaced : Block.placed pre.flatten = labels old := by
    rw [← hpre.labels_eq, Stmt.effectsAll_flatten, hlabels]
  refine ⟨fun s hs l hl => ?_, hplaced, fun t ht => ?_⟩
  · have hjump : l ∈ jumps old := by
      rw [← Effect.jumps_control, ← hcontrol, Effect.jumps_control, ← Stmt.effectsAll_flatten]
      exact hpre.mem_jumps hs hl
    rw [hplaced]
    exact (hold.inside l hjump).elim id False.elim
  · rw [Stmt.effectsAll_flatten] at ht
    have hle := h.le
    rcases h.fresh t (List.mem_append_left _ ht) with hmem | hrange
    · have hlt := hold.bounded t hmem
      omega
    · exact hrange.2

mutual

/-- The moves of stable code go to targets. -/
theorem Expr.Stable.aimed : ∀ {e : Expr}, e.Stable N k → e.aimed = true
  | .const _, _ | .name _, _ | .temp _, _ => rfl
  | .mem a, h => Expr.Stable.aimed (e := a) h
  | .unop _ x, h => Expr.Stable.aimed (e := x) h
  | .binop _ _ _, h => Bool.and_eq_true_iff.2 ⟨Expr.Stable.aimed h.1, Expr.Stable.aimed h.2⟩
  | .call _ args, h => Expr.StableAll.aimed (l := args) h
  | .eseq _ _, h => Bool.and_eq_true_iff.2 ⟨Stmt.Stable.aimed h.1.1, Expr.Stable.aimed h.2⟩

theorem Expr.StableAll.aimed : ∀ {l : List Expr},
    Expr.StableAll N k l → Expr.aimedAll l = true
  | [], _ => rfl
  | _ :: _, h => Bool.and_eq_true_iff.2 ⟨Expr.Stable.aimed h.1, Expr.StableAll.aimed h.2⟩

theorem Stmt.Stable.aimed : ∀ {s : Stmt}, s.Stable N k → s.aimed = true
  | .absent, _ => rfl
  | .exp e, h => Expr.Stable.aimed (e := e) h
  | .move (.temp _) e, h => Expr.Stable.aimed (e := e) h.2
  | .move (.mem _) _, h =>
    Bool.and_eq_true_iff.2 ⟨Expr.Stable.aimed h.1, Expr.Stable.aimed h.2⟩
  | .seq ss, h => Stmt.StableAll.aimed (l := ss) h
  | .cjump c _ _, h => Expr.Stable.aimed (e := c) h
  | .jump _, _ | .label _, _ => rfl

theorem Stmt.StableAll.aimed : ∀ {l : List Stmt},
    Stmt.StableAll N k l → Stmt.aimedAll l = true
  | [], _ => rfl
  | _ :: _, h => Bool.and_eq_true_iff.2 ⟨Stmt.Stable.aimed h.1, Stmt.StableAll.aimed h.2⟩

end

theorem Expr.Sound.confined {e : Expr} (h : e.Sound N k) :
    Confined k (fun _ => False) e.effects :=
  h.stable.confined

theorem Expr.SoundAll.confined {es : List Expr} (h : Expr.SoundAll N k es) :
    Confined k (fun _ => False) (Expr.effectsAll es) :=
  h.stable.confined

theorem Stmt.Sound.confined {s : Stmt} (h : s.Sound N k) :
    Confined k (Leaves s.flatten) s.effects :=
  h.stable.confined

theorem Expr.Sound.aimed {e : Expr} (h : e.Sound N k) : e.aimed = true :=
  h.stable.aimed

theorem Expr.SoundAll.aimed {es : List Expr} (h : Expr.SoundAll N k es) :
    Expr.aimedAll es = true :=
  h.stable.aimed

section

variable {n : Nat} (hn : k ≤ n)

include hn

theorem Expr.Stable.tame_lift {e : Expr} (h : e.Stable N k) :
    Tame (e.lift n).1.pre.flatten (labels e.effects) (e.lift n).2 :=
  .of_refresh (Expr.plain_lift h.aimed n).pre
    (Expr.control_of_plain (Expr.plain_lift h.aimed n).value) (e.refreshes_lift n) h.confined hn

theorem Expr.Stable.tame_operand {e : Expr} (h : e.Stable N k) :
    Tame (e.liftOperand n).1.pre.flatten (labels e.effects) (e.liftOperand n).2 :=
  have hplain := Lifted.Plain.operand (e := e) (Expr.plain_lift h.aimed) n
  .of_refresh hplain.pre (Expr.control_of_plain hplain.value)
    (e.refreshes_liftOperand n) h.confined hn

theorem Expr.StableAll.tame_lift {es : List Expr} (h : Expr.StableAll N k es) :
    Tame (Expr.liftAll es n).1.1.flatten (labels (Expr.effectsAll es)) (Expr.liftAll es n).2 :=
  .of_refresh (Expr.plain_liftAll h.aimed n).1
    (Expr.control_of_plainAll (Expr.plain_liftAll h.aimed n).2) (Expr.refresh_liftAll es n)
      h.confined hn

/-- What lifting pulls in front of two operands is tame. -/
theorem Expr.Stable.tame_before {x y : Expr} (hx : x.Stable N k) (hy : y.Stable N k) :
    let x' := x.liftOperand n
    let y' := y.liftOperand x'.2
    Tame (x'.1.before y'.1.pre y'.2).1.pre.flatten (labels (x.effects ++ y.effects))
      (x'.1.before y'.1.pre y'.2).2 := by
  have hplain := Lifted.Plain.operand (e := x) (Expr.plain_lift hx.aimed) n
  have hplain' := Lifted.Plain.operand (e := y) (Expr.plain_lift hy.aimed) (x.liftOperand n).2
  have hbefore := hplain.before hplain'.pre (y.liftOperand (x.liftOperand n).2).2
  refine .of_refresh hbefore.pre ?_ (Lifted.refresh_before (x.refreshes_liftOperand n)
    (y.refreshes_liftOperand _)) (hx.confined.append hy.confined) hn
  rw [Effect.control_append, Expr.control_of_plain hbefore.value,
    Expr.control_of_plain hplain'.value, List.append_nil]

/-- Lifting a stable block gives tame code. -/
theorem Stmt.Stable.tame_lift {s : Stmt} (h : s.Stable N k) (hclosed : Block.Closed s.flatten) :
    Tame (s.lift n).1.flatten (labels s.effects) (s.lift n).2 := by
  have hrefresh : Refresh s.effects ((s.lift n).1.effects ++ []) n (s.lift n).2 := by
    rw [List.append_nil]
    exact Stmt.refresh_lift s n
  exact .of_refresh (Stmt.plain_lift h.aimed n) rfl hrefresh (h.confined.of_closed hclosed) hn

end

end TreeCode.IR
