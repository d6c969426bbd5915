/-
# The two readings of a node agree

A node is lowered for its effect where a statement is wanted, and for its value where an
expression is. Several kinds of nodes are lowered in quite different ways for the two:
an assignment stores its value at once or keeps address and value in temps, a choice
runs one of two statements or leaves one of two values in a temp, and a sequence is a
list of statements or a list of statements before an expression.

`Lowers.readings_follow` compares the two: executing the code for the effect does what
evaluating the code for the value and dropping it does. Parts that are lowered for the
same reading on both sides are compared by `Lowers.twice`.
-/

import TreeCode.Proofs.Lowering.Twice
import TreeCode.Proofs.Scope
import TreeCode.Sample

namespace TreeCode

open IR (Expr Stmt)
open Source (Node Symbol)

namespace Meaning

/-- The value of a choice is dropped where it is chosen. -/
theorem drop_choose (c x y : Exec Word) : drop (choose c x y) = choose c (drop x) (drop y) := by
  unfold drop choose
  rw [bind_assoc]
  congr 1
  ext v
  by_cases hv : v = 0
  · rw [if_pos hv, if_pos hv]
  · rw [if_neg hv, if_neg hv]

theorem drop_bind {α : Type} (x : Exec α) (y : α → Exec Word) :
    drop (x >>= y) = x >>= fun a => drop (y a) :=
  bind_assoc x y _

/-- Nothing but the value is dropped. -/
theorem drop_looksAlike (x : Exec Word) (s : State) : Exec.LooksAlike (drop x s) (x s) := by
  cases hx : x s with
  | ok v t =>
    have hdrop : drop x s = .ok () t := Exec.bind_of_ok hx
    rw [hdrop]
    exact .ok (.refl t)
  | error e t =>
    have hdrop : drop x s = .error e t := Exec.bind_of_error hx
    rw [hdrop]
    cases e with
    | fault f => exact .fault rfl (.refl t)
    | defect d => exact .defect (.refl t)
    | outOfFuel => exact .lost

end Meaning

namespace Exec.Follows

variable {d : Nat}

theorem drop {x y : Exec Word} (h : Follows d x y) :
    Follows d (Meaning.drop x) (Meaning.drop y) :=
  h.bind fun _ => .pure ()

theorem choose {α : Type} {c c' : Exec Word} {x y x' y' : Exec α} (hc : Follows d c c')
    (hx : Follows d x x') (hy : Follows d y y') :
    Follows d (Meaning.choose c x y) (Meaning.choose c' x' y') :=
  hc.bind fun _ => .ite hy hx

/-- A statement inside an expression whose value is dropped. -/
theorem drop_eseq {setup : Setup} {x : Exec Unit} {y : Exec Word} {st : Stmt} {e : Expr}
    (hst : Performs setup d x st) (he : Computes setup d y e) :
    Follows d (x >>= fun _ => Meaning.drop y)
      (Meaning.drop (eval setup (fullRun setup) (.eseq st e))) := by
  rw [← Meaning.drop_bind]
  exact (hst.eseq he).drop

end Exec.Follows

section

variable {types : TypeTable} {layout : Layout} {setup : Setup} {d : Nat}

open Exec (Computes Follows Performs eval full fullRun)

/-- The effects of a list end with those of its last part. -/
theorem Lowers.effects_append {f : FrameRecord} {after : List Node} : ∀ {before : List Node}
    {s s' : LowerState} {ss : List Stmt},
    Lowers types layout (.effects f (before ++ after)) s (.stmts ss) s' →
    ∃ first s₁ rest, Lowers types layout (.effects f before) s (.stmts first) s₁ ∧
      Lowers types layout (.effects f after) s₁ (.stmts rest) s' ∧ ss = first ++ rest
  | [], s, s', ss, h => ⟨[], s, ss, .noEffect, h, rfl⟩
  | n :: before, s, s', ss, h => by
    cases h with
    | effects hst hss =>
      obtain ⟨first, s₁, rest, hfirst, hrest, rfl⟩ := effects_append hss
      exact ⟨_ :: first, s₁, rest, .effects hst hfirst, hrest, rfl⟩

/-- The effect of a sequence is that of its last item, after those of the others. -/
theorem Lowers.effects_concat (setup : Setup) {f : FrameRecord} {before : List Node}
    {last : Node} {s s' : LowerState} {ss : List Stmt} (hs : Temp.firstFree ≤ s.supply.temps)
    (h : Lowers types layout (.effects f (before ++ [last])) s (.stmts ss) s') :
    ∃ first s₁ st, Lowers types layout (.effects f before) s (.stmts first) s₁ ∧
      Lowers types layout (.effect f last) s₁ (.stmt st) s' ∧
      full setup (.ofList (Stmt.flattenAll ss)) 0 =
        full setup (.ofList (Stmt.flattenAll first)) 0 >>= fun _ =>
          full setup (.ofList st.flatten) 0 := by
  have hnodup := (Stmt.placed_flattenAll ss).nodup h.grows.nodup
  obtain ⟨first, s₁, rest, hfirst, hrest, rfl⟩ := h.effects_append
  cases hrest with
  | effects hst hnil =>
    cases hnil with
    | noEffect =>
      refine ⟨first, s₁, _, hfirst, hst, ?_⟩
      rw [Stmt.flattenAll_append] at hnodup ⊢
      simp only [Stmt.flattenAll, List.append_nil] at hnodup ⊢
      exact Exec.full_append (hfirst.sound_of_temps hs).2
        (hst.sound_of_temps (Nat.le_trans hs hfirst.grows.le)).2 hnodup

variable (types layout setup d) in
/-- Executing a node for its effect does what evaluating it and dropping its value does,
wherever the two are lowered. -/
def ReadsAlike (n : Node) : Prop :=
  ∀ ⦃f : FrameRecord⦄ ⦃s s' t t' : LowerState⦄ ⦃st : Stmt⦄ ⦃e : Expr⦄,
    Lowers types layout (.effect f n) s (.stmt st) s' →
    Lowers types layout (.value f n) t (.expr e) t' → s.supply.InStep t.supply →
    Follows d (full setup (.ofList st.flatten) 0)
        (Meaning.drop (eval setup (fullRun setup) e)) ∧
      s'.supply.InStep t'.supply

namespace ReadsAlike

variable {n : Node} {valued : Bool} {c thenArm : Node}

/-- A node that is computed for its value. -/
theorem of_isDropped (hdropped : n.isDropped = true) : ReadsAlike types layout setup d n := by
  intro f s s' t t' st e heffect hvalue hst
  obtain ⟨e', he', hcode⟩ := heffect.effect_of_isDropped hdropped
  cases hcode
  obtain ⟨he, hst'⟩ := he'.twice setup d hvalue hst
  refine ⟨?_, hst'⟩
  change Follows d (full setup (.ofList [.exp e']) 0) _
  rw [Exec.full_ofList_exp]
  exact Follows.drop he

/-- A node that has only an effect. -/
theorem of_isEffect (heffect : n.isEffect types = true) : ReadsAlike types layout setup d n := by
  intro f s s' t t' st e hs hvalue hst
  obtain ⟨st', hs', hcode⟩ := hvalue.value_of_isEffect heffect
  cases hcode
  obtain ⟨hfull, hst'⟩ := hs.twice setup d hs' hst
  refine ⟨?_, hst'⟩
  have hzero : Computes setup d (pure 0) (.const 0) := .pure 0
  have hcode := Follows.drop_eseq hfull hzero
  rwa [show (fun _ : Unit => Meaning.drop (pure 0)) = pure from rfl, bind_pure] at hcode

/-- An assignment: the address is computed before the value, on both sides. -/
theorem assign (target source : Node) :
    ReadsAlike types layout setup d (.binary .assign target source) := by
  intro f s s' t t' st e heffect hvalue hst
  cases heffect with
  | dropped h => cases h
  | assign _ ha hv =>
    cases hvalue with
    | operation _ h => exact absurd rfl h
    | aggregate h | load h | zero h => cases h
    | assigned _ haddr ht ha' hv' =>
      obtain ⟨hx, hst₁⟩ := ha.twice setup d ha' ((hst.symm.temp haddr).temp ht).symm
      obtain ⟨hy, hst'⟩ := hv.twice setup d hv' hst₁
      refine ⟨?_, hst'⟩
      have hstored := Follows.stored hx.left hy.left
      rw [← Exec.full_ofList_move] at hstored
      exact hstored.symm.trans
        (Lowers.assigned_follows haddr ht ha' hv' hst.right hx hy).drop

/-- A choice with one arm has no value of its own. -/
theorem ifThen : ReadsAlike types layout setup d (.branch valued c thenArm none) := by
  by_cases hvoid : (Node.branch valued c thenArm none).isEffect types = true
  · exact of_isEffect hvoid
  intro f s s' t t' st e _ hvalue
  cases hvalue with
  | zero h => exact absurd h hvoid
  | aggregate h | load h => cases h

/-- A choice between two nodes. -/
theorem branch {elseArm : Node} (hthen : ReadsAlike types layout setup d thenArm)
    (helse : ReadsAlike types layout setup d elseArm) :
    ReadsAlike types layout setup d (.branch valued c thenArm (some elseArm)) := by
  by_cases hvoid : (Node.branch valued c thenArm (some elseArm)).isEffect types = true
  · exact of_isEffect hvoid
  intro f s s' t t' st e heffect hvalue hst
  cases heffect with
  | dropped h => cases h
  | ifElse hl hm hc hend hfirst hsecond =>
    cases hvalue with
    | zero h => exact absurd h hvoid
    | aggregate h | load h => cases h
    | chosen hv ht hl' hm' hend' hc' ha hb =>
      have hst₁ := (hst.label hl).label hm
      have hst₂ := (((hst₁.symm.temp ht).label hl').label hm').label hend'
      obtain ⟨htest, hst₃⟩ := hc.twice setup d hc' hst₂.symm
      obtain ⟨hx, hst₄⟩ := hthen hfirst ha (hst₃.label hend)
      obtain ⟨hy, hst'⟩ := helse hsecond hb hst₄
      refine ⟨?_, hst'⟩
      have hleft := Lowers.ifElse_follows hl hm hc hend hfirst hsecond hst.left htest.left
        hx.left hy.left
      have ha' := (ha.twice setup d ha (.refl hst₃.right)).1
      have hb' := (hb.twice setup d hb (.refl hst₄.right)).1
      have hright := Lowers.chosen_follows hv ht hl' hm' hend' hc' ha hb hst.right
        htest.symm.left ha' hb'
      have hdropped := hright.drop
      rw [Meaning.drop_choose] at hdropped
      exact (hleft.symm.trans (.choose htest hx hy)).trans hdropped

/-- A sequence: its last item is read as the sequence is. -/
theorem sequence {items : List Node} (h : ∀ item ∈ items, ReadsAlike types layout setup d item) :
    ReadsAlike types layout setup d (.sequence items) := by
  by_cases hvoid : (Node.sequence items).isEffect types = true
  · exact of_isEffect hvoid
  intro f s s' t t' st e heffect hvalue hst
  cases heffect with
  | dropped h => cases h
  | sequence hss =>
    rcases List.eq_nil_or_concat items with rfl | ⟨before, last, rfl⟩
    · obtain ⟨hcode, rfl⟩ := hvalue.value_nil
      cases hcode
      cases hss with
      | noEffect =>
        refine ⟨?_, hst⟩
        change Follows d (full setup (.ofList []) 0) (pure ())
        rw [Exec.full_ofList_nil]
        exact .pure ()
    · rw [List.concat_eq_append] at *
      have hlast : (last.ty types).isVoid = false := by
        rw [Node.isEffect, List.getLast?_concat] at hvoid
        exact Bool.not_eq_true _ ▸ hvoid
      obtain ⟨ss', t₁, e', hss', he', hcode⟩ := hvalue.value_concat hlast
      cases hcode
      obtain ⟨first, s₁, st, hfirst, hst₁, hfull⟩ := hss.effects_concat setup hst.left
      obtain ⟨hbefore, hin⟩ := hfirst.twice setup d hss' hst
      obtain ⟨hend, hin'⟩ := h last (List.mem_append_right _ (.head _)) hst₁ he' hin
      refine ⟨?_, hin'⟩
      change Follows d (full setup (.ofList (Stmt.flattenAll _)) 0) _
      rw [hfull]
      have hself := (he'.twice setup d he' (.refl hin.right)).1
      have hjoin : Performs setup d (full setup (.ofList (Stmt.flattenAll first)) 0)
          (Stmt.join ss') := by
        rw [Performs, Stmt.flatten_join]
        exact hbefore
      exact (Follows.bind hjoin.left fun _ => hend).trans (Follows.drop_eseq hjoin hself)

/-- A node with definitions is read as its body is. -/
theorem within {body : Node} {defs : List Node} (h : ReadsAlike types layout setup d body) :
    ReadsAlike types layout setup d (.within body defs) := by
  intro f s s' t t' st e heffect hvalue hst
  cases heffect with
  | dropped h => cases h
  | withinEffect hdefs hbody =>
    cases hvalue with
    | withinValue hdefs' hbody' => exact h hbody hbody' (hdefs.twice setup d hdefs' hst).2
    | aggregate h | load h | zero h => cases h

end ReadsAlike

/-- The two readings of every node agree. -/
theorem readsAlike (n : Node) : ReadsAlike types layout setup d n := by
  refine Node.inductOn (P := ReadsAlike types layout setup d) (fun n hchildren _ => ?_) n
  cases n with
  | number _ | logical _ | string _ | ident _ | member _ _ | unary _ _ | call _ _ =>
    exact .of_isDropped rfl
  | binary op left right =>
    by_cases hop : op = .assign
    · subst hop
      exact .assign left right
    · apply ReadsAlike.of_isDropped
      cases op <;> first | rfl | exact absurd rfl hop
  | whileLoop _ _ | forLoop _ _ _ _ _ => exact .of_isEffect rfl
  | branch valued c thenArm elseArm =>
    cases elseArm with
    | none => exact .ifThen
    | some elseArm =>
      exact .branch (hchildren thenArm (.tail _ (.head _)))
        (hchildren elseArm (.tail _ (.tail _ (.head _))))
  | sequence items => exact .sequence hchildren
  | within body defs => exact .within (hchildren body (.head _))
  | funDecl _ _ _ | varDecl _ | parDecl _ | typeDecl _ =>
    intro f s s' t t' st e heffect
    cases heffect with
    | dropped h => cases h

end

/-- Lowering for effect and lowering for value agree. If a node can be lowered for both from
the same state, then on every machine, whatever its program and state, executing the
statement and evaluating the expression both end or neither does. They yield something or
stop for the same cause, and leave the same memory, output, registers and counters behind.
The state of lowering is one that draws no temps of the machine's own, as all of them do in
a compilation. -/
theorem Source.Node.readings_agree {types : TypeTable} {layout : Layout} {f : FrameRecord}
    {n : Node} {s s₁ s₂ : LowerState} {st : Stmt} {e : Expr}
    (hs : Temp.firstFree ≤ s.supply.temps)
    (heffect : (n.lower types layout f).effect s = .ok (st, s₁))
    (hvalue : (n.lower types layout f).value s = .ok (e, s₂)) (setup : Setup) (state : State) :
    Exec.EndsAlike (fun fuel => Exec.block setup fuel (.ofStmt st) 0)
      (fun fuel => Exec.eval setup (fun b => Exec.block setup fuel b 0) e) state := by
  have hderived : Derived types layout f n := derived f n
  have hreads : ReadsAlike types layout setup state.depth n := readsAlike n
  obtain ⟨hfollows, -⟩ := hreads (hderived.effect heffect) (hderived.value hvalue) (.refl hs)
  have hmatch := hfollows state state ⟨.refl state, rfl, trivial⟩
  apply Exec.endsAlike_of_full
  exact hmatch.trans (Meaning.drop_looksAlike _ state) fun _ _ _ _ _ _ h h' => h.2.view.trans h'

namespace Sample

open Source.Node (number ident binary call sequence branch)

/-- A global variable. -/
def cell : Symbol :=
  integer 2 "cell"

/-- The function that prints a number. -/
def printer : FrameRecord :=
  ⟨0, none, 1, .ofName "put_int", integer 3 "put_int", [argument], none, 0, false⟩

/-- A layout with one function and one variable. -/
def desk : Layout :=
  ⟨#[printer], [cell], [(cell.id, .global (.ofName "cell") 8)]⟩

/-- A number is printed, and then one is divided by the variable if that is zero. -/
def hazard : Node :=
  sequence [
    call printer.decl [number 7],
    branch true (ident cell) (number 1)
      (assign (ident cell) (binary .div (number 1) (ident cell)))]

/-- A machine without functions of its own. -/
def bench : Setup :=
  ⟨⟨[], [], [⟨.ofName "cell", 0, 8, []⟩], 8⟩, 64, 8, false⟩

/-- The memory of a new machine is zero. -/
def blank : State :=
  Machine.initialState 64 ⟨Array.replicate 64 0⟩

/-- Both readings print the number and then fail to divide. -/
theorem hazard_reads_alike :
    ∃ st s₁ e s₂, (hazard.lower [] desk printer).effect ⟨.empty, []⟩ = .ok (st, s₁) ∧
      (hazard.lower [] desk printer).value ⟨.empty, []⟩ = .ok (e, s₂) ∧
      Exec.EndsAlike (fun fuel => Exec.block bench fuel (.ofStmt st) 0)
        (fun fuel => Exec.eval bench (fun b => Exec.block bench fuel b 0) e) blank ∧
      (Behaviour.ofResult? (Exec.eval bench (fun b => Exec.block bench 20 b 0) e blank)).map
        (fun b => (b.ending, b.output)) = some (.faulted (.zeroDivisor 1 .div), #[55]) := by
  have hstmt : ((hazard.lower [] desk printer).effect ⟨.empty, []⟩).toOption.isSome = true := by
    decide +kernel
  have hexpr : (((hazard.lower [] desk printer).value ⟨.empty, []⟩).toOption.bind fun r =>
      (Behaviour.ofResult? (Exec.eval bench (fun b => Exec.block bench 20 b 0) r.1 blank)).map
        fun b => (b.ending, b.output)) = some (.faulted (.zeroDivisor 1 .div), #[55]) := by
    decide +kernel
  obtain ⟨⟨st, s₁⟩, hst⟩ := Option.isSome_iff_exists.1 hstmt
  obtain ⟨⟨e, s₂⟩, hvalue, hfault⟩ := Outcome.of_toOption_bind hexpr
  have heffect := Outcome.of_toOption hst
  exact ⟨st, s₁, e, s₂, heffect, hvalue,
    Source.Node.readings_agree (Nat.le_refl _) heffect hvalue bench blank, hfault⟩

end Sample

end TreeCode
