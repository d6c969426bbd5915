/-
# Faults of sound code

Code that refers to a label can fault because nothing is there: a jump without a target
in its block, a name without data, a call without a function. `Exec.FaultsIn` says which
causes the faults of a computation have. Sound code never misses a target or a datum; if
it only calls functions from a given set, then the only labels it can miss are labels of
that set without code.
-/

import TreeCode.Proofs.Linear

namespace TreeCode

open IR (Effect Expr Stmt)

namespace Exec

variable {α β : Type}

/-- The faults of a computation have causes of which `P` holds. -/
def FaultsIn (P : FaultCause → Prop) (x : Exec α) : Prop :=
  ∀ s f s', x s = .error (.fault f) s' → P f.cause

namespace FaultsIn

variable {P : FaultCause → Prop}

/-- A computation that yields a value or stops for another reason. -/
theorem of_not_fault {x : Exec α} (h : ∀ s f s', x s ≠ .error (.fault f) s') : FaultsIn P x :=
  fun s f s' heq => absurd heq (h s f s')

theorem pure (a : α) : FaultsIn P (Pure.pure a : Exec α) :=
  of_not_fault fun _ _ _ h => nomatch h

theorem bind {x : Exec α} {g : α → Exec β} (hx : FaultsIn P x) (hg : ∀ a, FaultsIn P (g a)) :
    FaultsIn P (x >>= g) := by
  intro s f s' h
  cases hxs : x s with
  | ok a t => exact hg a t f s' ((bind_of_ok hxs).symm.trans h)
  | error e t =>
    rw [bind_of_error hxs] at h
    cases h
    exact hx s f _ hxs

theorem fault {c : FaultCause} (h : P c) : FaultsIn P (fault c : Exec α) := by
  intro s f s' heq
  cases heq
  exact h

theorem defect (d : Defect) : FaultsIn P (defect d : Exec α) :=
  of_not_fault fun _ _ _ h => nomatch h

theorem get : FaultsIn P (MonadState.get : Exec State) :=
  of_not_fault fun _ _ _ h => nomatch h

theorem readTemp (t : Temp) : FaultsIn P (readTemp t) := by
  refine of_not_fault fun s f s' h => ?_
  unfold Exec.readTemp at h
  split at h <;> cases h

theorem of_basic {x : Exec α} (h : Basic P x) : FaultsIn P x :=
  Pervasive.basic (C := FaultsIn P) {
    pure := pure
    bind := bind
    defect := defect
    fault := fault
    look := fun _ => of_not_fault fun _ _ _ h => nomatch h
    put := fun _ _ => of_not_fault fun _ _ _ h => nomatch h
    print := fun _ => of_not_fault fun _ _ _ h => nomatch h
    countCall := of_not_fault fun _ _ _ h => nomatch h } h

theorem target {b : Block} {l : Label} {i : Nat} (h : b[i]? = some (.label l)) :
    FaultsIn P (target b l) := by
  obtain ⟨j, hj⟩ := Block.exists_position? h
  refine of_basic (.target fun hnone => ?_)
  rw [hj] at hnone
  cases hnone

section

-- causes that have nothing to do with labels do not matter
variable (hP : ∀ c : FaultCause, c.kind ≠ .unresolvedLabel → P c)

include hP

theorem badAddress (c : FaultCause) (h : c.kind = .badAddress) : P c :=
  hP c (by rw [h]; nofun)

theorem load (addr : Word) : FaultsIn P (load addr) :=
  of_basic (.load addr (badAddress hP _ rfl))

theorem store (addr value : Word) : FaultsIn P (store addr value) :=
  of_basic (.store addr value (badAddress hP _ rfl))

theorem binary (op : IR.Op) (x y : Word) : FaultsIn P (binary op x y) :=
  of_basic (.binary (fun _ => hP _ nofun) y)

theorem fill (frame : Frame) (base link : Word) (args : List Word) :
    FaultsIn P (fill frame base link args) :=
  (store hP _ _).bind fun _ => (of_basic (.storeAll (badAddress hP) _ _)).bind fun _ =>
    get.bind fun _ => store hP _ _

theorem leave (frame : Frame) (caller : Activation) (l : Location) :
    FaultsIn P (leave frame caller l) :=
  get.bind fun _ => (load hP _).bind fun _ => of_not_fault fun _ _ _ h => nomatch h

theorem invoke (setup : Setup) {run : Block → Exec Unit} {f : Function}
    (hbody : FaultsIn P (run f.body)) (link : Word) (args : List Word) :
    FaultsIn P (invoke setup run f link args) :=
  (of_basic (.reserve setup _ _ (hP _ nofun) (hP _ nofun))).bind fun _ =>
    (fill hP _ _ _ _).bind fun _ => get.bind fun _ => get.bind fun _ =>
      bind (of_not_fault fun _ _ _ h => nomatch h) fun _ => hbody.bind fun _ => leave hP _ _ _

end

end FaultsIn

end Exec

/-- The functions that are called among some effects are in a set. -/
def IR.Effect.CallsIn (C : Label → Prop) (es : List Effect) : Prop :=
  ∀ l first, .call l first ∈ es → C l

theorem IR.Effect.CallsIn.of_append {C : Label → Prop} {a b : List Effect}
    (h : CallsIn C (a ++ b)) : CallsIn C a ∧ CallsIn C b :=
  ⟨fun l first hmem => h l first (List.mem_append_left _ hmem),
    fun l first hmem => h l first (List.mem_append_right _ hmem)⟩

/-- A block that finds its names, its targets and, in a set, the functions it calls. -/
structure IR.Stmt.Refers (N : Label → Prop) (k : Nat) (C : Label → Prop) (s : Stmt) : Prop where
  sound : s.Sound N k
  closed : Block.Closed s.flatten
  calls : Effect.CallsIn C s.effects

/-- A setup in which the names of `N` have data, a function from `C` that is not there
faults with a cause of `P`, and functions refer to nothing else. -/
structure Setup.Resolves (setup : Setup) (N : Label → Prop) (k : Nat) (C : Label → Prop)
    (P : FaultCause → Prop) : Prop where
  others : ∀ c : FaultCause, c.kind ≠ .unresolvedLabel → P c
  names : ∀ l, N l → ∃ a, setup.program.address? l = some a
  absent : ∀ l, C l → setup.program.function? l = none → Builtin.ofName? l.name = none →
    P (.noFunction l.name)
  bodies : ∀ f ∈ setup.program.functions, ∃ s : Stmt, s.Refers N k C ∧ f.body = .ofStmt s

variable {N C : Label → Prop} {k : Nat}

mutual

/-- Every instruction of a sound statement is sound. -/
theorem IR.Stmt.Sound.of_mem_flatten : ∀ {s i : Stmt}, s.Sound N k → i ∈ s.flatten → i.Sound N k
  | .absent, _, _, hi => nomatch hi
  | .seq _, _, h, hi => IR.Stmt.SoundAll.of_mem_flattenAll h hi
  | .exp _, _, h, hi | .move _ _, _, h, hi | .cjump _ _ _, _, h, hi | .jump _, _, h, hi
  | .label _, _, h, hi => List.mem_singleton.1 hi ▸ h

theorem IR.Stmt.SoundAll.of_mem_flattenAll : ∀ {ss : List Stmt} {i : Stmt},
    Stmt.SoundAll N k ss → i ∈ Stmt.flattenAll ss → i.Sound N k
  | [], _, _, hi => nomatch hi
  | _ :: _, _, h, hi => (List.mem_append.1 hi).elim (IR.Stmt.Sound.of_mem_flatten h.1)
      (IR.Stmt.SoundAll.of_mem_flattenAll h.2)

end

namespace Setup.Resolves

variable {setup : Setup} {P : FaultCause → Prop}

open Exec (FaultsIn)
open IR.Effect (CallsIn)

section

variable {run : Block → Exec Unit} (h : setup.Resolves N k C P)
  (hrun : ∀ s : Stmt, s.Refers N k C → FaultsIn P (run (.ofStmt s)))
include h hrun

theorem call {l : Label} (hl : C l) (args : List Word) :
    FaultsIn P (Exec.call setup run l args) := by
  unfold Exec.call
  cases hf : setup.program.function? l with
  | some f =>
    obtain ⟨s, hs, hbody⟩ := h.bodies f (List.mem_of_find?_eq_some hf)
    cases args with
    | nil => exact .defect _
    | cons hops args =>
      exact FaultsIn.get.bind fun _ =>
        (FaultsIn.of_basic (.followLinks (FaultsIn.badAddress h.others) _ _)).bind fun _ =>
          .invoke h.others setup (hbody ▸ hrun s hs) _ _
  | none =>
    dsimp only
    cases hb : Builtin.ofName? l.name with
    | none => exact .fault (h.absent l hl hf hb)
    | some b =>
      refine .bind (.of_not_fault fun _ _ _ h => nomatch h) fun _ => ?_
      cases args with
      | nil => exact .defect _
      | cons _ args => exact .of_basic (.builtin (FaultsIn.badAddress h.others) b args)

-- lists need `h` through their members only
set_option linter.unusedSectionVars false in
mutual

theorem eval : ∀ {e : Expr}, e.Sound N k → CallsIn C e.effects →
    FaultsIn P (Exec.eval setup run e)
  | .const n, _, _ => .pure n
  | .name l, hs, _ => by
    obtain ⟨a, ha⟩ := h.names l hs
    unfold Exec.eval
    rw [ha]
    exact .pure a
  | .temp t, _, _ => .readTemp t
  | .mem a, hs, hc => (eval (e := a) hs hc).bind fun _ => .load h.others _
  | .binop _ x y, hs, hc =>
    (eval (e := x) hs.1 hc.of_append.1).bind fun _ =>
      (eval (e := y) hs.2 hc.of_append.2).bind fun _ => .binary h.others _ _ _
  | .unop _ x, hs, hc => (eval (e := x) hs hc).bind fun _ => .of_basic (.unary _ _)
  | .call f args, hs, hc =>
    (evalAll hs hc.of_append.1).bind fun _ =>
      h.call hrun (hc.of_append.2 f _ (List.mem_singleton.2 rfl)) _
  | .eseq s e, hs, hc =>
    .bind (.of_not_fault fun _ _ _ h => nomatch h) fun _ =>
      (hrun s ⟨hs.1.1, hs.1.2, hc.of_append.1⟩).bind fun _ =>
        .bind (.of_not_fault fun _ _ _ h => nomatch h) fun _ =>
          eval (e := e) hs.2 hc.of_append.2

theorem evalAll : ∀ {es : List Expr},
    Expr.SoundAll N k es → CallsIn C (Expr.effectsAll es) →
      FaultsIn P (Exec.evalAll setup run es)
  | [], _, _ => .pure []
  | e :: _, hs, hc =>
    (eval (e := e) hs.1 hc.of_append.1).bind fun _ =>
      (evalAll hs.2 hc.of_append.2).bind fun _ => .pure _

end

theorem move {d e : Expr} (hs : (Stmt.move d e).Sound N k)
    (hc : CallsIn C (Stmt.move d e).effects) :
    FaultsIn P (Exec.move setup run d e) := by
  cases d with
  | temp t =>
    unfold Exec.move
    dsimp only
    split
    · exact .defect _
    · exact (h.eval hrun hs.2 hc.of_append.1).bind fun _ =>
        .of_not_fault fun _ _ _ h => nomatch h
  | mem a =>
    exact (h.eval hrun hs.1 hc.of_append.1.of_append.1).bind fun _ =>
      (h.eval hrun hs.2 hc.of_append.1.of_append.2).bind fun _ => .store h.others _ _
  | _ => exact .defect _

/-- An instruction of a block finds what it refers to. -/
theorem step {s i : Stmt} (hs : s.Refers N k C) (hi : i ∈ s.flatten) (pc : Nat) :
    FaultsIn P (Exec.step setup run (.ofStmt s) pc i) := by
  have hsound := hs.sound.of_mem_flatten hi
  have hcalls : CallsIn C i.effects := fun l first hmem =>
    hs.calls l first (Stmt.effectsAll_flatten s ▸ Stmt.mem_effectsAll hi hmem)
  have htarget : ∀ l ∈ Block.targets i, FaultsIn P (Exec.target (.ofStmt s) l) := by
    intro l hl
    obtain ⟨j, hj⟩ := List.getElem?_of_mem (Block.mem_placed.1 (hs.closed i hi l hl))
    exact .target (i := j) (List.getElem?_toArray.trans hj)
  cases i with
  | absent | seq _ => exact .defect _
  | label _ => exact .pure _
  | jump l => exact htarget l (List.mem_singleton.2 rfl)
  | cjump c t f =>
    refine (h.eval hrun hsound hcalls.of_append.1).bind fun v => ?_
    split
    · exact htarget f (by simp [Block.targets])
    · exact htarget t (by simp [Block.targets])
  | exp e => exact (h.eval hrun hsound hcalls).bind fun _ => .pure _
  | move d e => exact (h.move hrun hsound hcalls).bind fun _ => .pure _

end

/-- A block finds what it refers to, for as long as it runs. -/
theorem block (h : setup.Resolves N k C P) (fuel : Nat) : ∀ {s : Stmt}, s.Refers N k C →
    ∀ pc, FaultsIn P (Exec.block setup fuel (.ofStmt s) pc) := by
  induction fuel with
  | zero => exact fun _ _ => .of_not_fault (by rintro _ _ _ ⟨⟩)
  | succ fuel ih =>
    intro s hs pc
    unfold Exec.block
    cases hi : (Block.ofStmt s)[pc]? with
    | none => exact .pure ()
    | some i =>
      have hmem : i ∈ s.flatten := by
        rw [Block.ofStmt, List.getElem?_toArray] at hi
        exact List.mem_of_getElem? hi
      refine .bind (.of_not_fault (by rintro _ _ _ ⟨⟩)) fun _ => ?_
      exact (h.step (fun b hb => ih hb 0) hs hmem pc).bind fun next => ih hs next

/-- A run finds what it refers to, apart from the function it is asked for. -/
theorem enter (h : setup.Resolves N k C P) {name : String}
    (hentry : setup.program.lookup? name = none → P (.noEntry name)) (fuel : Nat) (arg : Word) :
    FaultsIn P (Machine.enter setup fuel name arg) := by
  unfold Machine.enter
  cases hf : setup.program.lookup? name with
  | none => exact .fault (hentry hf)
  | some f =>
    obtain ⟨s, hs, hbody⟩ := h.bodies f (List.mem_of_find?_eq_some hf)
    exact .invoke h.others setup (hbody ▸ h.block fuel hs 0) _ _

end Setup.Resolves

end TreeCode
