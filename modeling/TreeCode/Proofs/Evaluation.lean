/-
# Lifting preserves evaluation

Operands are evaluated from left to right as they stand, or in lifted form: the code that
lifting pulls in front of them runs, and then what is left of them is evaluated. Both ways
end with the same values or stop for the same cause, and what they leave behind differs in
the temps that lifting drew only. This holds of all stable operands, whether a lowering
makes such operands or not, and from every state of every machine.

Fuel bounds both ways, each by its own amount. `Approaches` ties such computations to the
one with enough fuel, about which `liftAll_sim` and `lift_sim` speak.
-/

import TreeCode.Proofs.IR.Lifting
import TreeCode.Proofs.Machine.Equivalence

namespace TreeCode.Exec

open IR (Expr Stmt)
open IR.Effect (labels)

variable {α β : Type}

namespace Matches

variable {Q : α → State → β → State → Prop} {r : EStateM.Result Stop State β} {s : State}

theorem of_ok {a : α} (h : Matches Q (.ok a s) r) : ∃ b t, r = .ok b t ∧ Q a s b t := by
  cases h with
  | ok h => exact ⟨_, _, rfl, h⟩

theorem of_fault {f : Fault} (h : Matches Q (.error (.fault f) s) r) :
    ∃ g t, r = .error (.fault g) t ∧ f.cause = g.cause ∧ SameView s t := by
  cases h with
  | fault hc hv => exact ⟨_, _, rfl, hc, hv⟩

theorem of_defect {e : Defect} (h : Matches Q (.error (.defect e) s) r) :
    ∃ t, r = .error (.defect e) t ∧ SameView s t := by
  cases h with
  | defect hv => exact ⟨_, rfl, hv⟩

end Matches

/-- Computations with growing fuel that end, if they end, as a computation with enough fuel
does. They may differ in what is kept for reports. -/
def Approaches (d : Nat) (x : Nat → Exec α) (y : Exec α) : Prop :=
  ∃ q : Nat → Exec α, (∀ n, Sim (Rel Eq d) (x n) (q n) (Same Eq d)) ∧ Tends q y

namespace Approaches

variable {d : Nat}

theorem bind {x : Nat → Exec α} {y : Exec α} {f : Nat → α → Exec β} {g : α → Exec β}
    (hx : Approaches d x y) (hf : ∀ a, Approaches d (fun n => f n a) (g a)) :
    Approaches d (fun n => x n >>= f n) (y >>= g) := by
  obtain ⟨q, hq, htends⟩ := hx
  choose p hp hptends using hf
  refine ⟨fun n => q n >>= fun a => p a n, fun n => (hq n).bind fun a b => ?_, htends.bind hptends⟩
  rintro s t ⟨rfl, hst⟩
  exact hp a n s t hst

theorem block (setup : Setup) (b : Block) (pc : Nat) :
    Approaches d (fun n => Exec.block setup n b pc) (full setup b pc) :=
  ⟨fun n => quiet setup n b pc, fun n => block_sim_quiet setup n d b pc, tends_full setup b pc⟩

theorem eval (setup : Setup) (e : Expr) :
    Approaches d (fun n => Exec.eval setup (fun b => Exec.block setup n b 0) e)
      (Exec.eval setup (fullRun setup) e) :=
  ⟨_, fun n => (runs_quiet setup n d).eval e, tends_eval setup e⟩

theorem evalAll (setup : Setup) (es : List Expr) :
    Approaches d (fun n => Exec.evalAll setup (fun b => Exec.block setup n b 0) es)
      (Exec.evalAll setup (fullRun setup) es) :=
  ⟨_, fun n => (runs_quiet setup n d).evalAll es, (runs_full setup).evalAll es⟩

variable {x : Nat → Exec α} {y : Exec α} {s : State}

theorem matches_limit (h : Approaches s.depth x y) {n : Nat} (hfin : Finished (x n s)) :
    Matches (Same Eq s.depth) (x n s) (y s) := by
  obtain ⟨q, hq, htends⟩ := h
  have hmatch := hq n s s ⟨.refl s, rfl, rfl⟩
  rw [htends.below n s (hmatch.finished_iff.1 hfin)]
  exact hmatch

theorem exists_finished (h : Approaches s.depth x y) (hfin : Finished (y s)) :
    ∃ n, Finished (x n s) := by
  obtain ⟨q, hq, htends⟩ := h
  obtain ⟨n, hn⟩ := htends.reached s hfin
  have hmatch := hq n s s ⟨.refl s, rfl, rfl⟩
  rw [hn n (Nat.le_refl n)] at hmatch
  exact ⟨n, hmatch.finished_iff.2 hfin⟩

end Approaches

/-- Two computations with growing fuel, started in one state: they end with the same values,
in states that look alike and have the same temps below `k`, and they stop for the same
causes, in states that look alike. -/
structure Reproduces (k : Nat) (x y : Nat → Exec α) (s : State) : Prop where
  value_iff : ∀ a, (∃ n t, x n s = .ok a t) ↔ ∃ n t, y n s = .ok a t
  value : ∀ n m a b t u, x n s = .ok a t → y m s = .ok b u →
    a = b ∧ SameView t u ∧ AgreeBelow k t.activation u.activation
  fault_iff : ∀ c, (∃ n f t, x n s = .error (.fault f) t ∧ f.cause = c) ↔
    ∃ n f t, y n s = .error (.fault f) t ∧ f.cause = c
  fault : ∀ n m f g t u, x n s = .error (.fault f) t → y m s = .error (.fault g) u →
    f.cause = g.cause ∧ SameView t u
  defect_iff : ∀ e, (∃ n t, x n s = .error (.defect e) t) ↔ ∃ n t, y n s = .error (.defect e) t

theorem agreeBelow_equivalence (k : Nat) : Equivalence (AgreeBelow k) where
  refl _ _ _ := rfl
  symm h t ht := (h t ht).symm
  trans h h' t ht := (h t ht).trans (h' t ht)

/-- Outcomes with the same values, and the same temps below `k`. -/
abbrev SameBelow (k d : Nat) : EStateM.Result Stop State α → EStateM.Result Stop State α → Prop :=
  Matches (Same (AgreeBelow k) d)

section

variable {k d : Nat} {r r' r'' : EStateM.Result Stop State α}

theorem SameBelow.symm (h : SameBelow k d r r') : SameBelow k d r' r := by
  refine (Matches.symm h).mono ?_
  rintro b t a s ⟨rfl, hrel⟩
  exact ⟨rfl, hrel.symm (agreeBelow_equivalence k)⟩

theorem SameBelow.trans (h : SameBelow k d r r') (h' : SameBelow k d r' r'') :
    SameBelow k d r r'' := by
  refine Matches.trans h h' ?_
  rintro a s b t c u ⟨rfl, hrel⟩ ⟨rfl, hrel'⟩
  exact ⟨rfl, hrel.trans (agreeBelow_equivalence k) hrel'⟩

theorem SameBelow.of_eq (h : Matches (Same Eq d) r r') : SameBelow k d r r' := by
  refine h.mono ?_
  rintro a s b t ⟨rfl, hrel⟩
  exact ⟨rfl, hrel.view, hrel.depth, fun u _ => by rw [hrel.activation]⟩

end

section

variable {k : Nat} {x y : Nat → Exec α} {x' y' : Exec α} {s : State}
  (hx : Approaches s.depth x x') (hy : Approaches s.depth y y')
  (h : SameBelow k s.depth (x' s) (y' s))

include hx hy h

theorem sameBelow_of_finished {n m : Nat} (hn : Finished (x n s)) (hm : Finished (y m s)) :
    SameBelow k s.depth (x n s) (y m s) :=
  (SameBelow.of_eq (hx.matches_limit hn)).trans
    (h.trans (SameBelow.of_eq (hy.matches_limit hm)).symm)

/-- Where the first computation ends, so does the second. -/
theorem exists_sameBelow {n : Nat} (hn : Finished (x n s)) :
    ∃ m, SameBelow k s.depth (x n s) (y m s) := by
  have hlimit : Finished (x' s) := (hx.matches_limit hn).finished_iff.1 hn
  obtain ⟨m, hm⟩ := hy.exists_finished (h.finished_iff.1 hlimit)
  exact ⟨m, sameBelow_of_finished hx hy h hn hm⟩

theorem exists_value {a : α} (hvalue : ∃ n t, x n s = .ok a t) : ∃ n t, y n s = .ok a t := by
  obtain ⟨n, t, hn⟩ := hvalue
  obtain ⟨m, hm⟩ := exists_sameBelow hx hy h (hn ▸ finished_ok a t : Finished (x n s))
  rw [hn] at hm
  obtain ⟨b, u, hu, rfl, -⟩ := hm.of_ok
  exact ⟨m, u, hu⟩

theorem exists_fault {c : FaultCause}
    (hfault : ∃ n f t, x n s = .error (.fault f) t ∧ f.cause = c) :
    ∃ n f t, y n s = .error (.fault f) t ∧ f.cause = c := by
  obtain ⟨n, f, t, hn, rfl⟩ := hfault
  obtain ⟨m, hm⟩ := exists_sameBelow hx hy h
    (hn ▸ finished_error (by simp) t : Finished (x n s))
  rw [hn] at hm
  obtain ⟨g, u, hu, hcause, -⟩ := hm.of_fault
  exact ⟨m, g, u, hu, hcause.symm⟩

theorem exists_defect {e : Defect} (hdefect : ∃ n t, x n s = .error (.defect e) t) :
    ∃ n t, y n s = .error (.defect e) t := by
  obtain ⟨n, t, hn⟩ := hdefect
  obtain ⟨m, hm⟩ := exists_sameBelow hx hy h
    (hn ▸ finished_error (by simp) t : Finished (x n s))
  rw [hn] at hm
  obtain ⟨u, hu, -⟩ := hm.of_defect
  exact ⟨m, u, hu⟩

/-- What holds with enough fuel holds of the ends that are reached. -/
theorem Reproduces.of_approaches : Reproduces k x y s where
  value_iff a := ⟨exists_value hx hy h, exists_value hy hx h.symm⟩
  value n m a b t u hn hm := by
    have hboth := sameBelow_of_finished hx hy h (n := n) (m := m) (hn ▸ finished_ok a t)
      (hm ▸ finished_ok b u)
    rw [hn, hm] at hboth
    cases hboth with
    | ok hsame => exact ⟨hsame.1, hsame.2.view, hsame.2.activation⟩
  fault_iff c := ⟨exists_fault hx hy h, exists_fault hy hx h.symm⟩
  fault n m f g t u hn hm := by
    have hboth := sameBelow_of_finished hx hy h (n := n) (m := m)
      (hn ▸ finished_error (by simp) t) (hm ▸ finished_error (by simp) u)
    rw [hn, hm] at hboth
    cases hboth with
    | fault hcause hview => exact ⟨hcause, hview⟩
  defect_iff e := ⟨exists_defect hx hy h, exists_defect hy hx h.symm⟩

end

/-- A machine is paired with itself. -/
theorem Paired.self (setup : Setup) {k : Nat} (hk : 0 < k) (d : Nat) :
    Paired setup setup (fun l => ∃ a, setup.program.address? l = some a) k d where
  pos := hk
  name l hl := by
    obtain ⟨a, ha⟩ := hl
    exact ⟨a, ha, ha⟩
  call l args := Neutral.call setup l args (AgreeBelow k) d

/-- Run a statement before a computation, with the same fuel. -/
def runBefore (setup : Setup) (pre : Stmt) (x : Nat → Exec α) (n : Nat) : Exec α := do
  block setup n (.ofStmt pre) 0
  x n

theorem Approaches.runBefore {d : Nat} {x : Nat → Exec α} {y : Exec α} (setup : Setup) (pre : Stmt)
    (h : Approaches d x y) :
    Approaches d (Exec.runBefore setup pre x) (full setup (.ofStmt pre) 0 >>= fun _ => y) :=
  (Approaches.block setup _ 0).bind fun _ => h

/-- Operands, and single expressions, are evaluated alike as they stand and in lifted form.
Temps below `k` may occur in them, and lifting draws temps from `k` on. -/
theorem lifted_evaluation_reproduces (setup : Setup) {k : Nat} (hk : 0 < k) :
    (∀ es : List Expr, Expr.StableAll (fun l => ∃ a, setup.program.address? l = some a) k es →
      (labels (Expr.effectsAll es)).Nodup → ∀ s : State,
      Reproduces k (fun n => evalAll setup (fun b => block setup n b 0) es)
        (runBefore setup (Expr.liftAll es k).1.1 fun n =>
          evalAll setup (fun b => block setup n b 0) (Expr.liftAll es k).1.2) s) ∧
    ∀ e : Expr, e.Stable (fun l => ∃ a, setup.program.address? l = some a) k →
      (labels e.effects).Nodup → ∀ s : State,
      Reproduces k (fun n => eval setup (fun b => block setup n b 0) e)
        (runBefore setup (e.lift k).1.pre fun n =>
          eval setup (fun b => block setup n b 0) (e.lift k).1.value) s := by
  refine ⟨fun es hes hnodup s => ?_, fun e he hnodup s => ?_⟩
  · refine .of_approaches (.evalAll setup es) (.runBefore setup _ (.evalAll setup _)) ?_
    exact liftAll_sim (Paired.self setup hk s.depth) hes hnodup k (Nat.le_refl k) s s
      ⟨.refl s, rfl, fun _ _ => rfl⟩
  · refine .of_approaches (.eval setup e) (.runBefore setup _ (.eval setup _)) ?_
    exact lift_sim (Paired.self setup hk s.depth) he hnodup k (Nat.le_refl k) s s
      ⟨.refl s, rfl, fun _ _ => rfl⟩

/-- A machine without functions. -/
def bareSetup : Setup :=
  ⟨⟨[], [], [], 0⟩, 16, 1, false⟩

/-- Two loads of a word, with code between them that branches and changes the word. -/
def loadsAroundStore : List Expr :=
  let skip : Label := .ofName "skip"
  let done : Label := .ofName "done"
  [.mem (.const 0),
    .eseq (.seq [.move (.temp ⟨-1⟩) (.const 5), .cjump (.mem (.const 0)) skip done, .label skip,
      .move (.temp ⟨-1⟩) (.const 6), .label done, .move (.mem (.const 0)) (.temp ⟨-1⟩)])
      (.mem (.const 0))]

theorem exists_ok_of_run' {x : Exec α} {s : State} {a : α} (h : EStateM.run' x s = some a) :
    ∃ t, x s = .ok a t := by
  unfold EStateM.run' EStateM.run at h
  cases hx : x s with
  | ok b t =>
    rw [hx] at h
    exact ⟨t, by rw [Option.some.inj h]⟩
  | error e t =>
    rw [hx] at h
    cases h

theorem lifted_evaluation_reproduces_loadsAroundStore :
    ∃ n t, runBefore bareSetup (Expr.liftAll loadsAroundStore 2).1.1 (fun n =>
      evalAll bareSetup (fun b => block bareSetup n b 0) (Expr.liftAll loadsAroundStore 2).1.2) n
      (Machine.initialState 16 (Machine.initialMemory 16 #[])) = .ok [0, 5] t := by
  have hstable : Expr.StableAll (fun l => ∃ a, bareSetup.program.address? l = some a) 2
      loadsAroundStore :=
    ⟨trivial, ⟨⟨⟨⟨⟨by decide, by decide⟩, trivial⟩, trivial, trivial,
      ⟨⟨by decide, by decide⟩, trivial⟩, trivial, ⟨trivial, show (-1 : Int) < 2 by decide⟩,
      trivial⟩, by unfold Block.Closed; decide⟩, trivial⟩, trivial⟩
  have htree : EStateM.run' (evalAll bareSetup (fun b => block bareSetup 10 b 0) loadsAroundStore)
      (Machine.initialState 16 (Machine.initialMemory 16 #[])) = some [0, 5] := by
    decide +kernel
  obtain ⟨t, ht⟩ := exists_ok_of_run' htree
  have hlift := (lifted_evaluation_reproduces bareSetup (k := 2) (by decide)).1 loadsAroundStore
    hstable (by decide) (Machine.initialState 16 (Machine.initialMemory 16 #[]))
  exact (hlift.value_iff [0, 5]).1 ⟨10, t, ht⟩

end TreeCode.Exec
