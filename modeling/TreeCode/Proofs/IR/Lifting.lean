/-
# Lifting preserves runs

Evaluating an expression in tree form does what its lifted form does: run the code
that was pulled in front of it, then evaluate what is left. `Expr.lift_sim` states
this for every stable expression, `Stmt.Segments` for every statement, one instruction
after the other, and `lift_block_sim` for whole blocks.

The comparison is relative to calls: it assumes that calls at the current depth do
alike, and `TreeCode.Proofs.Linear` discharges that by induction on the depth that is
left. Of the temps it relates those below the number at which lifting started; temps
taken by lifting are seen by lifted code only.
-/

import Mathlib.Data.List.Forall2
import TreeCode.Proofs.IR.Sound
import TreeCode.Proofs.Machine.Loop
import TreeCode.Proofs.Machine.Temps

namespace TreeCode.Exec

open IR (Expr Lifted Stmt)
open IR.Effect (labels)

variable {α β : Type}

/-- Two activations with the same temps below a number. -/
def AgreeBelow (k : Nat) (a b : Activation) : Prop :=
  ∀ t : Temp, t.index < k → a.temps.get t = b.temps.get t

/-- The setups of a program in two forms, seen from calls `d` deep: names have the
same data and calls do alike. -/
structure Paired (tree linear : Setup) (N : Label → Prop) (k d : Nat) : Prop where
  pos : 0 < k
  name : ∀ l, N l →
    ∃ a, tree.program.address? l = some a ∧ linear.program.address? l = some a
  call : ∀ l args, Sim (Rel (AgreeBelow k) d) (call tree (fullRun tree) l args)
    (call linear (fullRun linear) l args) (Same (AgreeBelow k) d)

/-- `x` does what running some instructions and then `y` does. -/
def Yields (linear : Setup) (k d : Nat) (x : Exec α) (pre : List Stmt) (y : Exec α) : Prop :=
  Sim (Rel (AgreeBelow k) d) x (full linear (Block.ofList pre) 0 >>= fun _ => y)
    (Same (AgreeBelow k) d)

theorem full_ofList_nil (setup : Setup) : full setup (Block.ofList []) 0 = pure () :=
  full_of_none rfl

theorem full_ofList_move (setup : Setup) (d e : Expr) :
    full setup (Block.ofList [.move d e]) 0 = move setup (fullRun setup) d e := by
  have hend : full setup (Block.ofList [.move d e]) 1 = pure () := full_of_none rfl
  have hget : (Block.ofList [.move d e])[0]? = some (.move d e) := rfl
  rw [full_of_some hget, step]
  simp only [bind_assoc, pure_bind]
  rw [show (0 : Nat) + 1 = 1 from rfl, hend]
  exact bind_pure_unit

/-- Moving a value into a fresh temp happens on the lifted side only. -/
theorem move_temp_eq (setup : Setup) {t : Temp} (h : t ≠ Temp.fp) (e : Expr) :
    move setup (fullRun setup) (.temp t) e =
      eval setup (fullRun setup) e >>= fun w => writeTemp t w := by
  simp only [move, if_neg h]

/-- One computation after another, with both values. -/
def both (x : Exec α) (y : Exec β) : Exec (α × β) := do
  let a ← x
  let b ← y
  return (a, b)

section

variable {tree linear : Setup} {N : Label → Prop} {k d : Nat}

theorem fresh_ne_fp (hk : 0 < k) {n : Nat} (hn : k ≤ n) : (⟨n⟩ : Temp) ≠ Temp.fp := by
  intro h
  have hzero : (n : Int) = 0 := congrArg Temp.index h
  omega

theorem Rel.writeTemp_right {s t : State} (h : Rel (AgreeBelow k) d s t) {n : Nat} (hn : k ≤ n)
    (w : Word) :
    Rel (AgreeBelow k) d s { t with activation.temps := t.activation.temps.set ⟨n⟩ w } := by
  refine ⟨{ h.view with }, h.depth, fun u hu => ?_⟩
  have hne : u ≠ ⟨n⟩ := by
    rintro rfl
    have hlt : (n : Int) < k := hu
    omega
  simp only [Temps.get_set, if_neg hne]
  exact h.activation u hu

theorem writeTemp_eq (t : Temp) (w : Word) (s : State) :
    writeTemp t w s = .ok () { s with activation.temps := s.activation.temps.set t w } := rfl

theorem readTemp_eq {t : Temp} (h : t ≠ Temp.fp) (s : State) :
    readTemp t s = .ok (tempValue t s) s := by
  unfold readTemp
  rw [if_neg h]

theorem readTemp_agree {t : Temp} (ht : t.index < k) :
    Sim (Rel (AgreeBelow k) d) (readTemp t) (readTemp t) (Same (AgreeBelow k) d) := by
  intro u v h
  unfold readTemp
  split
  · exact .ok ⟨h.view.fp, h⟩
  · exact .ok ⟨h.activation t ht, h⟩

theorem writeTemp_agree (t : Temp) (w : Word) :
    Sim (Rel (AgreeBelow k) d) (writeTemp t w) (writeTemp t w) (Same (AgreeBelow k) d) := by
  intro u v h
  refine .ok ⟨rfl, { h.view with }, h.depth, fun t' ht' => ?_⟩
  simp only [Temps.get_set, h.activation t' ht']

namespace Yields

theorem of_nil {x y : Exec α}
    (h : Sim (Rel (AgreeBelow k) d) x y (Same (AgreeBelow k) d)) : Yields linear k d x [] y := by
  unfold Yields
  rw [full_ofList_nil, pure_bind]
  exact h

variable {x : Exec Word} {pre : List Stmt}

theorem bind {x y : Exec α} {f g : α → Exec β} (h : Yields linear k d x pre y)
    (hf : ∀ a, Sim (Rel (AgreeBelow k) d) (f a) (g a) (Same (AgreeBelow k) d)) :
    Yields linear k d (x >>= f) pre (y >>= g) := by
  have hbind := Sim.bind h (f := f) (g := g) (R := Same (AgreeBelow k) d) fun a b => by
    rintro s t ⟨rfl, hst⟩
    exact hf a s t hst
  rwa [bind_assoc] at hbind

/-- An operand that is a call leaves its value in a temp. -/
theorem saved {e : Expr} (h : Yields linear k d x pre (eval linear (fullRun linear) e)) (hk : 0 < k)
    {n : Nat} (hn : k ≤ n) (hclosed : Block.Closed pre) (hnodup : (Block.placed pre).Nodup) :
    Yields linear k d x (pre ++ [.move (.temp ⟨n⟩) e])
      (eval linear (fullRun linear) (.temp ⟨n⟩)) := by
  have hne := fresh_ne_fp hk hn
  unfold Yields at h ⊢
  rw [full_append hclosed (Block.closed_single rfl)
    (by simpa only [Block.placed_append, Block.placed_move, List.append_nil] using hnodup),
    full_ofList_move, move_temp_eq linear hne]
  simp only [bind_assoc]
  rw [← bind_assoc]
  -- after the value is known, the lifted side writes the temp and reads it back
  rw [← bind_pure x]
  refine h.bind fun a b => ?_
  rintro s t ⟨rfl, hst⟩
  have hread : (writeTemp ⟨n⟩ a >>= fun _ => readTemp ⟨n⟩) t =
      .ok a { t with activation.temps := t.activation.temps.set ⟨n⟩ a } := by
    rw [bind_of_ok (writeTemp_eq ⟨n⟩ a t), readTemp_eq hne]
    simp only [tempValue, Temps.get_set, if_true]
  simp only [eval, hread]
  exact .ok ⟨rfl, hst.writeTemp_right hn a⟩

/-- Code that keeps a temp may run between a write of the temp and its use. -/
theorem readTemp_after {t : Temp} (ht : t ≠ Temp.fp) {code : List Stmt}
    (hcode : .assign t ∉ Stmt.effectsAll code) (f : Word → Exec β) (s : State) :
    (full linear (Block.ofList code) 0 >>= fun _ => readTemp t >>= f) s =
      (full linear (Block.ofList code) 0 >>= fun _ => f (tempValue t s)) s := by
  cases h : full linear (Block.ofList code) 0 s with
  | error e s' => rw [bind_of_error h, bind_of_error h]
  | ok a s' =>
    have hkeeps : tempValue t s' = tempValue t s := full_keeps linear hcode 0 s a s' h
    rw [bind_of_ok h, bind_of_ok h, bind_of_ok (readTemp_eq ht s'), hkeeps]

/-- Two operands one after the other, the first saved if the code of the second could
change it. -/
theorem before {y z : Exec β} {X : Lifted} {later : Stmt} {ls ls' : List Label} {m m' : Nat}
    (hx : Yields linear k d x X.pre.flatten (eval linear (fullRun linear) X.value))
    (hy : Yields linear k d y later.flatten z) (hX : IR.Tame X.pre.flatten ls m)
    (hlater : IR.Tame later.flatten ls' m') (hnodup : (ls ++ ls').Nodup)
    (hfixed : X.value.isFixed = true → ∃ w, eval linear (fullRun linear) X.value = pure w)
    (hk : 0 < k) (hm : k ≤ m') :
    Yields linear k d (both x y) (X.before later m').1.pre.flatten
      (both (eval linear (fullRun linear) (X.before later m').1.value) z) := by
  have happend : full linear (Block.ofList (X.pre.flatten ++ later.flatten)) 0 =
      full linear (Block.ofList X.pre.flatten) 0 >>= fun _ =>
        full linear (Block.ofList later.flatten) 0 := by
    refine full_append hX.closed hlater.closed ?_
    rw [Block.placed_append, hX.placed, hlater.placed]
    exact hnodup
  have hsecond : ∀ a : Word, Sim (Rel (AgreeBelow k) d) (y >>= fun b => pure (a, b))
      (full linear (Block.ofList later.flatten) 0 >>= fun _ => z >>= fun b => pure (a, b))
      (Same (AgreeBelow k) d) := fun a =>
    hy.bind (f := fun b => pure (a, b)) fun b => Neutral.pure (a, b) _ _
  unfold Yields both
  by_cases hcomm : later.commutes X.value = true
  · rw [Lifted.before_of_commutes hcomm]
    rw [Stmt.commutes, Bool.or_eq_true] at hcomm
    simp only [Stmt.flatten_andThen]
    rcases hcomm with hnop | hfix
    · rw [Stmt.flatten_of_isNop hnop] at hsecond ⊢
      rw [List.append_nil]
      refine hx.bind fun a => ?_
      simpa only [full_ofList_nil, pure_bind] using hsecond a
    · obtain ⟨w, hw⟩ := hfixed hfix
      unfold Yields at hx
      rw [hw] at hx ⊢
      rw [happend]
      have hbind := Sim.bind hx (R := Same (AgreeBelow k) d)
        (f := fun a => y >>= fun b => pure (a, b))
        (g := fun a => full linear (Block.ofList later.flatten) 0 >>= fun _ =>
          z >>= fun b => pure (a, b)) fun a a' => by
            rintro s t ⟨rfl, hst⟩
            exact hsecond a s t hst
      simpa only [bind_assoc, pure_bind] using hbind
  · rw [Lifted.before_of_not_commutes hcomm]
    have hne := fresh_ne_fp hk hm
    have hkeep : .assign ⟨m'⟩ ∉ Stmt.effectsAll later.flatten := by
      intro hmem
      have hlt : (m' : Int) < m' := hlater.bounded ⟨m'⟩ hmem
      omega
    have hsaved : full linear
        (Block.ofList (X.pre.flatten ++ [.move (.temp ⟨m'⟩) X.value] ++ later.flatten)) 0 =
        full linear (Block.ofList X.pre.flatten) 0 >>= fun _ =>
          eval linear (fullRun linear) X.value >>= fun w => writeTemp ⟨m'⟩ w >>= fun _ =>
            full linear (Block.ofList later.flatten) 0 := by
      have hplaced : Block.placed (X.pre.flatten ++ [.move (.temp ⟨m'⟩) X.value]) = ls := by
        rw [Block.placed_append, Block.placed_move, List.append_nil, hX.placed]
      have hclosed : Block.Closed (X.pre.flatten ++ [.move (.temp ⟨m'⟩) X.value]) :=
        hX.closed.append (Block.closed_single rfl)
      rw [full_append hclosed hlater.closed
          (by rw [Block.placed_append, hplaced, hlater.placed]; exact hnodup),
        full_append hX.closed (Block.closed_single rfl)
          (by rw [hplaced]; exact (List.nodup_append.1 hnodup).1),
        full_ofList_move, move_temp_eq linear hne]
      simp only [bind_assoc]
    have hflat : ((X.pre.andThen (.move (.temp ⟨m'⟩) X.value)).andThen later).flatten =
        X.pre.flatten ++ [.move (.temp ⟨m'⟩) X.value] ++ later.flatten := by
      rw [Stmt.flatten_andThen, Stmt.flatten_andThen]
      rfl
    rw [hflat, hsaved]
    have hbind := Sim.bind hx (R := Same (AgreeBelow k) d)
      (f := fun a => y >>= fun b => pure (a, b))
      (g := fun a => writeTemp ⟨m'⟩ a >>= fun _ =>
        full linear (Block.ofList later.flatten) 0 >>= fun _ =>
          readTemp ⟨m'⟩ >>= fun a => z >>= fun b => pure (a, b)) fun a a' => by
        rintro s t ⟨rfl, hst⟩
        rw [bind_of_ok (writeTemp_eq ⟨m'⟩ a t), readTemp_after hne hkeep]
        simp only [tempValue, Temps.get_set, if_true]
        exact hsecond a _ _ (hst.writeTemp_right hm a)
    simpa only [bind_assoc, eval] using hbind

end Yields

end

/-- An instruction, and the instructions that lifting turns it into: those that run
first, and the last one, which does what the instruction does. -/
structure Segment (tree linear : Setup) (k d : Nat) (i : Stmt) (pre : List Stmt)
    (last : Stmt) : Prop where
  act : Yields linear k d (act tree (fullRun tree) i) pre (Exec.act linear (fullRun linear) last)
  closed : Block.Closed pre
  label : ∀ l, i = .label l → pre = [] ∧ last = .label l

/-- Code whose instructions are turned into segments one by one. -/
def Segments (tree linear : Setup) (k d : Nat) (code lifted : List Stmt) : Prop :=
  ∃ segs : List (List Stmt), lifted = segs.flatten ∧
    List.Forall₂ (fun i seg => ∃ pre last, seg = pre ++ [last] ∧
      Segment tree linear k d i pre last) code segs

section

variable {tree linear : Setup} {k d : Nat}

theorem Segments.nil : Segments tree linear k d [] [] :=
  ⟨[], rfl, .nil⟩

variable {code : List Stmt} {segs : List (List Stmt)} {seg : List Stmt} {i : Stmt} {j : Nat}

theorem Segments.single {last : Stmt} {pre : List Stmt} (h : Segment tree linear k d i pre last) :
    Segments tree linear k d [i] (pre ++ [last]) :=
  ⟨[pre ++ [last]], (List.append_nil _).symm, .cons ⟨pre, last, rfl, h⟩ .nil⟩

theorem Segments.unchanged (h : Segment tree linear k d i [] i) :
    Segments tree linear k d [i] [i] :=
  .single h

theorem Segments.append {a a' b b' : List Stmt} (ha : Segments tree linear k d a a')
    (hb : Segments tree linear k d b b') : Segments tree linear k d (a ++ b) (a' ++ b') := by
  obtain ⟨segs, rfl, hsegs⟩ := ha
  obtain ⟨segs', rfl, hsegs'⟩ := hb
  exact ⟨segs ++ segs', List.flatten_append.symm, List.rel_append hsegs hsegs'⟩

/-- The position at which a segment starts. -/
def segmentStart (segs : List (List Stmt)) (j : Nat) : Nat :=
  (segs.take j).flatten.length

theorem flatten_eq_of_getElem? (h : segs[j]? = some seg) :
    segs.flatten = (segs.take j).flatten ++ seg ++ (segs.drop (j + 1)).flatten := by
  obtain ⟨hlt, rfl⟩ := List.getElem?_eq_some_iff.1 h
  conv_lhs => rw [← List.take_append_drop j segs, List.drop_eq_getElem_cons hlt]
  rw [List.flatten_append, List.flatten_cons, List.append_assoc]

theorem segmentStart_succ (h : segs[j]? = some seg)
    : segmentStart segs (j + 1) = segmentStart segs j + seg.length := by
  unfold segmentStart
  rw [List.take_add_one, h, List.flatten_append, List.length_append]
  simp only [Option.toList, List.flatten_cons, List.flatten_nil, List.append_nil]

/-- The instructions of some code and their segments. -/
abbrev SegmentList (tree linear : Setup) (k d : Nat) (code : List Stmt)
    (segs : List (List Stmt)) : Prop :=
  List.Forall₂ (fun i seg => ∃ pre last, seg = pre ++ [last] ∧
    Segment tree linear k d i pre last) code segs

section

variable (h : SegmentList tree linear k d code segs)
include h

theorem SegmentList.get? (hi : code[j]? = some i) :
    ∃ pre last, segs[j]? = some (pre ++ [last]) ∧ Segment tree linear k d i pre last := by
  obtain ⟨hlt, rfl⟩ := List.getElem?_eq_some_iff.1 hi
  have hlt' : j < segs.length := h.length_eq ▸ hlt
  obtain ⟨pre, last, hseg, hsegment⟩ := h.get hlt hlt'
  exact ⟨pre, last, by rw [List.getElem?_eq_getElem hlt']; exact congrArg some hseg, hsegment⟩

/-- Control goes to the segment of the instruction that it goes to. -/
theorem SegmentList.position? (hcode : (Block.placed code).Nodup)
    (hlifted : (Block.placed segs.flatten).Nodup) {l : Label} (hl : l ∈ Block.placed code) :
    ∃ j, (Block.ofList code).position? l = some j ∧
      (Block.ofList segs.flatten).position? l = some (segmentStart segs j) := by
  obtain ⟨j, hj⟩ := List.mem_iff_getElem?.1 (Block.mem_placed.1 hl)
  refine ⟨j, Block.position?_of_nodup hcode hj, Block.position?_of_nodup hlifted ?_⟩
  obtain ⟨pre, last, hseg, hsegment⟩ := h.get? hj
  obtain ⟨rfl, rfl⟩ := hsegment.label l rfl
  rw [segmentStart, flatten_eq_of_getElem? hseg, List.append_assoc,
    List.getElem?_append_right (Nat.le_refl _), Nat.sub_self]
  rfl

/-- Executing an instruction in a block, and executing its segment. -/
theorem SegmentList.round (hclosed : Block.Closed code) (hcode : (Block.placed code).Nodup)
    (hlifted : (Block.placed segs.flatten).Nodup) (hi : code[j]? = some i) :
    ∃ y, Does linear 1 (Block.ofList segs.flatten) (segmentStart segs j) y ∧
      Sim (Rel (AgreeBelow k) d) (step tree (fullRun tree) (Block.ofList code) j i) y
        (fun next s next' t => Rel (AgreeBelow k) d s t ∧ next' = segmentStart segs next) := by
  obtain ⟨pre, last, hseg, hsegment⟩ := h.get? hi
  have hflat := flatten_eq_of_getElem? hseg
  have hembed : Block.Embeds (Block.ofList segs.flatten) (segmentStart segs j) pre := by
    have hsplit : segs.flatten =
        (segs.take j).flatten ++ pre ++ (last :: (segs.drop (j + 1)).flatten) := by
      rw [hflat]
      simp only [List.append_assoc, List.singleton_append]
    rw [hsplit] at hlifted ⊢
    exact Block.Embeds.of_append hsegment.closed hlifted
  have hlast : (Block.ofList segs.flatten)[segmentStart segs j + pre.length]? = some last := by
    rw [Block.getElem?_ofList, hflat, List.append_assoc, segmentStart,
      List.getElem?_append_right (Nat.le_add_right _ _), Nat.add_sub_cancel_left,
      List.append_assoc, List.getElem?_append_right (Nat.le_refl _), Nat.sub_self]
    rfl
  refine ⟨_, Does.embedded_instruction hembed hlast, ?_⟩
  simp only [step_eq]
  rw [← bind_assoc]
  refine hsegment.act.with_runs.bind fun r r' => ?_
  rintro s t ⟨⟨rfl, hst⟩, s₀, -, -, hact, -⟩
  cases r with
  | none =>
    refine .ok ⟨hst, ?_⟩
    rw [segmentStart_succ hseg, List.length_append, List.length_singleton, Nat.add_assoc]
  | some l =>
    have hl : l ∈ Block.placed code :=
      hclosed i (List.mem_of_getElem? hi) l (mem_targets_of_act tree _ hact)
    obtain ⟨j', hpos, hpos'⟩ := h.position? hcode hlifted hl
    simp only [goto, target_of_some hpos, target_of_some hpos']
    exact .ok ⟨hst, rfl⟩

end

/-- Blocks do what the segments of their instructions do. -/
theorem Segments.full_sim {lifted : List Stmt} (h : Segments tree linear k d code lifted)
    (hclosed : Block.Closed code) (hcode : (Block.placed code).Nodup)
    (hlifted : (Block.placed lifted).Nodup) :
    Sim (Rel (AgreeBelow k) d) (full tree (Block.ofList code) 0)
      (full linear (Block.ofList lifted) 0) (fun _ s _ t => Rel (AgreeBelow k) d s t) := by
  obtain ⟨segs, rfl, hsegs⟩ := h
  have hround : ∀ j, RoundSim linear (instructionRound tree (Block.ofList code))
      (Block.ofList segs.flatten) (segmentStart segs) (Rel (AgreeBelow k) d) j := by
    intro j
    cases hget : code[j]? with
    | none =>
      left
      have hlen : segs.length ≤ j := hsegs.length_eq ▸ List.getElem?_eq_none_iff.1 hget
      refine ⟨by simp only [instructionRound, Block.getElem?_ofList, hget], ?_⟩
      rw [Block.getElem?_ofList, segmentStart, List.take_of_length_le hlen]
      exact List.getElem?_eq_none_iff.2 (Nat.le_refl _)
    | some i =>
      right
      obtain ⟨y, hdoes, hsim⟩ := SegmentList.round hsegs hclosed hcode hlifted hget
      refine ⟨y, hdoes, ?_⟩
      have hsome := Sim.bind hsim (f := fun next => pure (some next)) (g := pure)
        (R := fun r s next t => Rel (AgreeBelow k) d s t ∧
          Resumes (Block.ofList segs.flatten) (segmentStart segs) next r)
        fun next next' s t hpost => .ok hpost
      simpa only [instructionRound, Block.getElem?_ofList, hget, bind_pure] using hsome
  rw [full_eq_forever]
  exact forever_sim (proper_instructionRound tree _) hround 0

end

section

variable {tree linear : Setup} {N : Label → Prop} {k d : Nat}
  (hp : Paired tree linear N k d)

include hp

/-- A fixed value is known before any code runs. -/
theorem fixed_lift : ∀ {e : Expr}, e.Stable N k → ∀ n, (e.lift n).1.value.isFixed = true →
    ∃ w, eval linear (fullRun linear) (e.lift n).1.value = pure w
  | .const w, _, _, _ => ⟨w, rfl⟩
  | .name l, h, _, _ => by
    obtain ⟨a, -, ha⟩ := hp.name l h
    refine ⟨a, ?_⟩
    change eval linear (fullRun linear) (.name l) = pure a
    simp only [eval, ha]
  | .eseq s _, h, n, hfixed => fixed_lift h.2 (s.lift n).2 hfixed
  | .temp _, _, _, hfixed | .mem _, _, _, hfixed | .unop _ _, _, _, hfixed
  | .binop _ _ _, _, _, hfixed | .call _ _, _, _, hfixed => by cases hfixed

variable {e : Expr} {n : Nat}

theorem fixed_operand (h : e.Stable N k) (n : Nat)
    (hfixed : (e.liftOperand n).1.value.isFixed = true) :
    ∃ w, eval linear (fullRun linear) (e.liftOperand n).1.value = pure w := by
  by_cases hcall : e.isCall = true
  · rw [Expr.liftOperand, Lifted.operand_of_call hcall] at hfixed
    cases hfixed
  · rw [Expr.liftOperand, Lifted.operand_of_not_call hcall] at hfixed ⊢
    exact fixed_lift hp h n hfixed

/-- Operands do what they do as expressions. -/
theorem operand_sim {x : Exec Word} (h : e.Stable N k) (hnodup : (labels e.effects).Nodup)
    (hsim : ∀ n, k ≤ n → Yields linear k d x (e.lift n).1.pre.flatten
      (eval linear (fullRun linear) (e.lift n).1.value)) (hn : k ≤ n) :
    Yields linear k d x (e.liftOperand n).1.pre.flatten
      (eval linear (fullRun linear) (e.liftOperand n).1.value) := by
  by_cases hcall : e.isCall = true
  · have htame := h.tame_lift (n := n + 1) (by omega)
    rw [Expr.liftOperand, Lifted.operand_of_call hcall, Stmt.flatten_andThen]
    exact (hsim (n + 1) (by omega)).saved hp.pos hn htame.closed (htame.placed ▸ hnodup)
  · rw [Expr.liftOperand, Lifted.operand_of_not_call hcall]
    exact hsim n hn

theorem pair_sim {β : Type} {x : Expr} {later : Stmt} {y z : Exec β} {ls : List Label} {m : Nat}
    (hx : x.Stable N k) (hnodup : (labels x.effects ++ ls).Nodup)
    (hsim : ∀ n, k ≤ n → Yields linear k d (eval tree (fullRun tree) x)
      (x.lift n).1.pre.flatten (eval linear (fullRun linear) (x.lift n).1.value)) (hn : k ≤ n)
    (hy : Yields linear k d y later.flatten z) (hlater : IR.Tame later.flatten ls m) (hm : k ≤ m) :
    Yields linear k d (both (eval tree (fullRun tree) x) y)
      ((x.liftOperand n).1.before later m).1.pre.flatten
      (both (eval linear (fullRun linear) ((x.liftOperand n).1.before later m).1.value) z) :=
  (operand_sim hp hx (List.nodup_append.1 hnodup).1 hsim hn).before hy (hx.tame_operand hn)
    hlater hnodup (fixed_operand hp hx n) hp.pos hm

omit hp in
theorem act_move_mem (setup : Setup) (a e : Expr) :
    act setup (fullRun setup) (.move (.mem a) e) =
      both (eval setup (fullRun setup) a) (eval setup (fullRun setup) e) >>= fun p =>
        store p.1 p.2 >>= fun _ => pure none := by
  simp only [act, move, both, bind_assoc, pure_bind]

/-- A store becomes one segment: both operands, then the store itself. -/
theorem store_segments {a : Expr} (ha : a.Stable N k) (he : e.Stable N k)
    (hnodup : (labels (a.effects ++ e.effects)).Nodup)
    (hsim : ∀ n, k ≤ n → Yields linear k d (eval tree (fullRun tree) a)
      (a.lift n).1.pre.flatten (eval linear (fullRun linear) (a.lift n).1.value))
    (hsim' : ∀ n, k ≤ n → Yields linear k d (eval tree (fullRun tree) e)
      (e.lift n).1.pre.flatten (eval linear (fullRun linear) (e.lift n).1.value)) (hn : k ≤ n) :
    Segments tree linear k d [.move (.mem a) e]
      ((Expr.mem a).liftMove ⟨e, e.lift⟩ n).1.flatten := by
  rw [IR.Effect.labels_append] at hnodup
  have hle := (a.refreshes_liftOperand n).le
  have hn' : k ≤ (a.liftOperand n).2 := by omega
  have hle' := (e.refreshes_liftOperand (a.liftOperand n).2).le
  have hboth := pair_sim hp ha hnodup hsim hn
    (operand_sim hp he (List.nodup_append.1 hnodup).2.1 hsim' hn') (he.tame_operand hn') (by omega)
  rw [Expr.liftMove_mem, Stmt.flatten_andThen]
  refine .single ⟨?_, (ha.tame_before hn he).closed, fun m hm => by cases hm⟩
  rw [act_move_mem, act_move_mem]
  refine hboth.bind fun p => ?_
  exact (Neutral.bind (Neutral.of_plain (.store p.1 p.2)) fun _ => Neutral.pure none) _ _

-- a list of statements needs `hp` through its statements only
set_option linter.unusedSectionVars false

mutual

/-- An expression does what its lifted form does. -/
theorem lift_sim : ∀ {e : Expr}, e.Stable N k → (labels e.effects).Nodup → ∀ n, k ≤ n →
    Yields linear k d (eval tree (fullRun tree) e) (e.lift n).1.pre.flatten
      (eval linear (fullRun linear) (e.lift n).1.value)
  | .const w, _, _, _, _ => .of_nil (Neutral.pure w _ _)
  | .name l, h, _, n, _ => by
    obtain ⟨a, htree, hlinear⟩ := hp.name l h
    change Yields linear k d (eval tree (fullRun tree) (.name l)) []
      (eval linear (fullRun linear) (.name l))
    simp only [eval, htree, hlinear]
    exact .of_nil (Neutral.pure a _ _)
  | .temp _, h, _, _, _ => .of_nil (readTemp_agree h)
  | .mem a, h, hnodup, n, hn =>
    (operand_sim hp (e := a) h hnodup (lift_sim h hnodup) hn).bind fun w =>
      Neutral.of_plain (.load w) _ _
  | .unop op x, h, hnodup, n, hn =>
    (operand_sim hp (e := x) h hnodup (lift_sim h hnodup) hn).bind fun w =>
      Neutral.of_plain (.unary op w) _ _
  | .binop op x y, h, hnodup, n, hn => by
    rw [Expr.effects, IR.Effect.labels_append] at hnodup
    have hsplit := List.nodup_append.1 hnodup
    have hle := (x.refreshes_liftOperand n).le
    have hle' := (y.refreshes_liftOperand (x.liftOperand n).2).le
    have hn' : k ≤ (x.liftOperand n).2 := by omega
    have hy := operand_sim hp h.2 hsplit.2.1 (lift_sim h.2 hsplit.2.1) hn'
    have hboth := pair_sim hp h.1 hnodup (lift_sim h.1 hsplit.1) hn hy (h.2.tame_operand hn')
      (by omega)
    have hop := hboth.bind (f := fun p => binary op p.1 p.2) (g := fun p => binary op p.1 p.2)
      fun p => Neutral.of_plain (.binary op p.1 p.2) _ _
    simp only [both, bind_assoc, pure_bind] at hop
    exact hop
  | .call f args, h, hnodup, n, hn => by
    rw [Expr.effects, IR.Effect.labels_append] at hnodup
    exact (liftAll_sim h (List.nodup_append.1 hnodup).1 n hn).bind fun args => hp.call f args
  | .eseq s e, h, hnodup, n, hn => by
    rw [Expr.effects, IR.Effect.labels_append] at hnodup
    have hsplit := List.nodup_append.1 hnodup
    have hs := h.1.1.tame_lift hn h.1.2
    have hle := (Stmt.refresh_lift s n).le
    have hn' : k ≤ (s.lift n).2 := by omega
    have he := h.2.tame_lift hn'
    have hblock := (segments h.1.1 hsplit.1 n hn).full_sim h.1.2
      ((Stmt.placed_flatten s).nodup hsplit.1) (hs.placed ▸ hsplit.1)
    have happend : full linear (Block.ofList (_ ++ _)) 0 = _ := full_append hs.closed he.closed
      (by rw [Block.placed_append, hs.placed, he.placed]; exact hnodup)
    change Yields linear k d (eval tree (fullRun tree) (.eseq s e))
      ((s.lift n).1.andThen (e.lift (s.lift n).2).1.pre).flatten
      (eval linear (fullRun linear) (e.lift (s.lift n).2).1.value)
    unfold Yields
    rw [Stmt.flatten_andThen, happend, bind_assoc]
    intro u v huv
    change Matches _ ((fullRun tree (.ofStmt s) >>= fun _ =>
      setLocation u.location >>= fun _ => eval tree (fullRun tree) e) u) _
    refine hblock.bind (fun _ _ u' v' huv' => ?_) u v huv
    exact lift_sim h.2 hsplit.2.1 (s.lift n).2 hn' { u' with location := u.location } v'
      ⟨{ huv'.view with }, huv'.depth, huv'.activation⟩

/-- Operands do what their lifted forms do. -/
theorem liftAll_sim : ∀ {es : List Expr}, Expr.StableAll N k es →
    (labels (Expr.effectsAll es)).Nodup → ∀ n, k ≤ n →
    Yields linear k d (evalAll tree (fullRun tree) es) (Expr.liftAll es n).1.1.flatten
      (evalAll linear (fullRun linear) (Expr.liftAll es n).1.2)
  | [], _, _, _, _ => .of_nil (Neutral.pure _ _ _)
  | e :: es, h, hnodup, n, hn => by
    rw [Expr.effectsAll, IR.Effect.labels_append] at hnodup
    have hsplit := List.nodup_append.1 hnodup
    have hle := (e.refreshes_liftOperand n).le
    have hle' := (Expr.refresh_liftAll es (e.liftOperand n).2).le
    have hn' : k ≤ (e.liftOperand n).2 := by omega
    have hes := liftAll_sim h.2 hsplit.2.1 (e.liftOperand n).2 hn'
    have hboth := pair_sim hp h.1 hnodup (lift_sim h.1 hsplit.1) hn hes (h.2.tame_lift hn')
      (by omega)
    have hcons := hboth.bind (f := fun p => pure (p.1 :: p.2)) (g := fun p => pure (p.1 :: p.2))
      fun p => Neutral.pure (p.1 :: p.2) _ _
    simp only [both, bind_assoc, pure_bind] at hcons
    exact hcons

/-- The instructions of a statement are turned into segments. -/
theorem segments : ∀ {s : Stmt}, s.Stable N k → (labels s.effects).Nodup → ∀ n, k ≤ n →
    Segments tree linear k d s.flatten (s.lift n).1.flatten
  | .absent, _, _, _, _ => .nil
  | .label l, _, _, _, _ =>
    .unchanged ⟨.of_nil (Neutral.pure none _ _), Block.closed_nil, fun m hm => by
      cases hm
      exact ⟨rfl, rfl⟩⟩
  | .jump l, _, _, _, _ =>
    .unchanged ⟨.of_nil (Neutral.pure (some l) _ _), Block.closed_nil, fun m hm => by cases hm⟩
  | .exp e, h, hnodup, n, hn => by
    change Segments tree linear k d [.exp e]
      ((e.lift n).1.pre.andThen (.exp (e.lift n).1.value)).flatten
    rw [Stmt.flatten_andThen]
    refine .single ⟨?_, (Expr.Stable.tame_lift (e := e) hn h).closed, fun m hm => by cases hm⟩
    exact (lift_sim (e := e) h hnodup n hn).bind fun _ => Neutral.pure none _ _
  | .cjump c t f, h, hnodup, n, hn => by
    rw [Stmt.effects, IR.Effect.labels_append] at hnodup
    have hc := (List.nodup_append.1 hnodup).1
    change Segments tree linear k d [.cjump c t f]
      ((c.liftOperand n).1.pre.andThen (.cjump (c.liftOperand n).1.value t f)).flatten
    rw [Stmt.flatten_andThen]
    refine .single ⟨?_, (Expr.Stable.tame_operand (e := c) hn h).closed, fun m hm => by cases hm⟩
    exact (operand_sim hp (e := c) h hc (lift_sim h hc) hn).bind fun v =>
      Neutral.pure (some (if v = 0 then f else t)) _ _
  | .move (.temp t) e, h, hnodup, n, hn => by
    rw [Stmt.effects, Expr.moveEffects, IR.Effect.labels_append] at hnodup
    have he := lift_sim h.2 (List.nodup_append.1 hnodup).1 n hn
    change Segments tree linear k d [.move (.temp t) e]
      ((e.lift n).1.pre.andThen (.move (.temp t) (e.lift n).1.value)).flatten
    rw [Stmt.flatten_andThen]
    refine .single ⟨?_, (h.2.tame_lift hn).closed, fun m hm => by cases hm⟩
    have hwrite := (he.bind fun w => writeTemp_agree t w).bind (f := fun _ => pure none)
      (g := fun _ => pure none) fun _ => Neutral.pure (none : Option Label) _ _
    simpa only [act, move_temp_eq _ h.1.1] using hwrite
  | .move (.mem a) e, h, hnodup, n, hn => by
    rw [Stmt.effects, Expr.moveEffects, IR.Effect.labels_append] at hnodup
    have hpair := (List.nodup_append.1 hnodup).1
    have hsplit := List.nodup_append.1 (IR.Effect.labels_append _ _ ▸ hpair)
    exact store_segments hp h.1 h.2 hpair (lift_sim h.1 hsplit.1) (lift_sim h.2 hsplit.2.1) hn
  | .seq ss, h, hnodup, n, hn => segmentsAll h hnodup n hn

theorem segmentsAll : ∀ {ss : List Stmt}, Stmt.StableAll N k ss →
    (labels (Stmt.effectsAll ss)).Nodup → ∀ n, k ≤ n →
    Segments tree linear k d (Stmt.flattenAll ss) (Stmt.liftAll ss n).1.flatten
  | [], _, _, _, _ => .nil
  | s :: ss, h, hnodup, n, hn => by
    rw [Stmt.effectsAll, IR.Effect.labels_append] at hnodup
    have hsplit := List.nodup_append.1 hnodup
    have hle := (Stmt.refresh_lift s n).le
    change Segments tree linear k d (s.flatten ++ Stmt.flattenAll ss)
      ((s.lift n).1.andThen (Stmt.liftAll ss (s.lift n).2).1).flatten
    rw [Stmt.flatten_andThen]
    exact (segments h.1 hsplit.1 n hn).append (segmentsAll h.2 hsplit.2.1 _ (by omega))

end

end

end TreeCode.Exec
