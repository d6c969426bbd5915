/-
# Inside a run

Once a function is entered, the count of calls does not go down again, and no fault is for
want of a function to start with. Both hold of any code, sound or not, so that the end of a
run tells whether its first function was entered.
-/

import TreeCode.Proofs.Machine.Limit

namespace TreeCode.Exec

open IR (Expr Stmt)

variable {α β : Type}

/-- No call is taken back between a state and an outcome, and the outcome is no fault for
want of a function to start with. -/
inductive Since (s : State) : EStateM.Result Stop State α → Prop
  | ok {a t} : s.stats.calls ≤ t.stats.calls → Since s (.ok a t)
  | fault {f t} : s.stats.calls ≤ t.stats.calls → (∀ name, f.cause ≠ .noEntry name) →
      Since s (.error (.fault f) t)
  | defect {d t} : s.stats.calls ≤ t.stats.calls → Since s (.error (.defect d) t)
  | lost {t} : s.stats.calls ≤ t.stats.calls → Since s (.error .outOfFuel t)

theorem Since.trans {s t : State} {r : EStateM.Result Stop State α}
    (hst : s.stats.calls ≤ t.stats.calls) (h : Since t r) : Since s r := by
  cases h with
  | ok h => exact .ok (Nat.le_trans hst h)
  | fault h hf => exact .fault (Nat.le_trans hst h) hf
  | defect h => exact .defect (Nat.le_trans hst h)
  | lost h => exact .lost (Nat.le_trans hst h)

/-- A computation takes no call back, and it does not fault for want of a function to start
with. -/
def Inside (x : Exec α) : Prop :=
  ∀ s, Since s (x s)

namespace Inside

theorem pure (a : α) : Inside (Pure.pure a : Exec α) :=
  fun _ => .ok (Nat.le_refl _)

theorem bind {x : Exec α} {g : α → Exec β} (hx : Inside x) (hg : ∀ a, Inside (g a)) :
    Inside (x >>= g) := by
  intro s
  have hs := hx s
  cases h : x s with
  | ok a t =>
    rw [h] at hs
    rw [bind_of_ok h]
    cases hs with
    | ok hst => exact (hg a t).trans hst
  | error e t =>
    rw [h] at hs
    rw [bind_of_error h]
    cases hs with
    | fault hst hf => exact .fault hst hf
    | defect hst => exact .defect hst
    | lost hst => exact .lost hst

theorem fault {c : FaultCause} (h : c.arises) : Inside (fault c : Exec α) := by
  refine fun s => .fault (Nat.le_refl _) ?_
  rintro name rfl
  exact h

theorem defect (d : Defect) : Inside (defect d : Exec α) :=
  fun _ => .defect (Nat.le_refl _)

theorem of_plain {x : Exec α} (h : Plain x) : Inside x :=
  Pervasive.basic (C := Inside) {
    pure := pure
    bind := bind
    defect := defect
    fault := fault
    look := fun _ _ => .ok (Nat.le_refl _)
    put := fun _ _ _ => .ok (Nat.le_refl _)
    print := fun _ _ => .ok (Nat.le_refl _)
    countCall := fun _ => .ok (Nat.le_succ _) } h

theorem get : Inside (MonadState.get : Exec State) :=
  fun _ => .ok (Nat.le_refl _)

theorem fill (frame : Frame) (base link : Word) (args : List Word) :
    Inside (fill frame base link args) :=
  (of_plain (.store _ _)).bind fun _ => (of_plain (.storeAll _ _)).bind fun _ =>
    get.bind fun _ => of_plain (.store _ _)

theorem leave (frame : Frame) (caller : Activation) (l : Location) :
    Inside (leave frame caller l) :=
  get.bind fun _ => (of_plain (.load _)).bind fun _ _ => .ok (Nat.le_refl _)

variable (setup : Setup) {run : Block → Exec Unit}

theorem invoke (hrun : ∀ b, Inside (run b)) (f : Function) (link : Word) (args : List Word) :
    Inside (invoke setup run f link args) :=
  (of_plain (.reserve _ _ _)).bind fun _ => (fill _ _ _ _).bind fun _ => get.bind fun _ =>
    get.bind fun _ => bind (fun _ => .ok (Nat.le_succ _)) fun _ =>
      (hrun _).bind fun _ => leave _ _ _

/-- Evaluation stays inside a run. -/
def bond : Bond Unit where
  rel _ y := Inside y
  plain := of_plain
  readTemp t := by
    intro s
    unfold Exec.readTemp
    split <;> exact .ok (Nat.le_refl _)
  writeTemp _ _ := fun _ => .ok (Nat.le_refl _)
  bind := bind
  inner hx he := bind (fun _ => .ok (Nat.le_refl _)) fun _ => hx.bind fun _ =>
    bind (fun _ => .ok (Nat.le_refl _)) fun _ => he

theorem block (fuel : Nat) : ∀ (b : Block) (pc : Nat), Inside (block setup fuel b pc) := by
  induction fuel with
  | zero => exact fun _ _ _ => .lost (Nat.le_refl _)
  | succ fuel ih =>
    intro b pc
    unfold Exec.block
    cases b[pc]? with
    | none => exact pure ()
    | some stmt =>
      have hruns : bond.Runs (fun _ => setup) setup
          (fun _ inner => Exec.block setup fuel inner 0)
          fun inner => Exec.block setup fuel inner 0 :=
        bond.runs (fun _ => rfl) (fun inner => ih inner 0) get
          (invoke setup fun inner => ih inner 0)
      refine bind (fun s => ?_) fun _ => bind (hruns.step b pc stmt) fun next => ih b next
      unfold Exec.start
      dsimp only
      split <;> exact .ok (Nat.le_refl _)

end Inside

/-- A computation meets defects only after a call. -/
def Admitted (x : Exec α) : Prop :=
  ∀ s d s', x s = .error (.defect d) s' → s.stats.calls < s'.stats.calls

namespace Admitted

/-- A computation that meets no defect at all. -/
theorem of_regular {x : Exec α} (h : ∀ s d s', x s ≠ .error (.defect d) s') : Admitted x :=
  fun s d s' heq => absurd heq (h s d s')

theorem bind {x : Exec α} {g : α → Exec β} (hinside : Inside x) (hx : Admitted x)
    (hg : ∀ a, Admitted (g a)) : Admitted (x >>= g) := by
  intro s d s' heq
  have hs := hinside s
  cases h : x s with
  | ok a t =>
    rw [h] at hs
    cases hs with
    | ok hst => exact Nat.lt_of_le_of_lt hst (hg a t d s' ((bind_of_ok h).symm.trans heq))
  | error e t =>
    rw [bind_of_error h] at heq
    cases heq
    exact hx s d _ h

theorem get : Admitted (MonadState.get : Exec State) :=
  of_regular (by rintro _ _ _ ⟨⟩)

theorem store (addr value : Word) : Admitted (store addr value) := by
  refine of_regular fun s d s' h => ?_
  unfold Exec.store at h
  split at h <;> cases h

theorem storeAll (base : Word) : ∀ slots, Admitted (storeAll base slots)
  | [] => of_regular (by rintro _ _ _ ⟨⟩)
  | (_, _) :: rest => bind (.of_plain (.store _ _)) (store _ _) fun _ => storeAll base rest

theorem fill (frame : Frame) (base link : Word) (args : List Word) :
    Admitted (fill frame base link args) :=
  bind (.of_plain (.store _ _)) (store _ _) fun _ =>
    bind (.of_plain (.storeAll _ _)) (storeAll _ _) fun _ => bind .get get fun _ => store _ _

theorem reserve (setup : Setup) {frame : Frame} {count : Nat}
    (h : count = frame.params.length) : Admitted (reserve setup frame count) := by
  refine of_regular fun s d s' heq => ?_
  unfold Exec.reserve at heq
  dsimp only at heq
  split at heq
  · cases heq
  split at heq
  · cases heq
  rw [if_neg (not_not_intro h)] at heq
  cases heq

/-- Whatever happens in a new frame happens after a call. -/
theorem enter (setup : Setup) (frame : Frame) (base : Word) {x : Exec α} (h : Inside x) :
    Admitted (enter setup frame base >>= fun _ => x) := by
  intro s d s' heq
  obtain ⟨t, ht, hcalls⟩ : ∃ t, Exec.enter setup frame base s = .ok () t ∧
      t.stats.calls = s.stats.calls + 1 := ⟨_, rfl, rfl⟩
  rw [bind_of_ok ht] at heq
  have hsince := h t
  rw [heq] at hsince
  cases hsince with
  | defect hlt => omega

/-- A call that passes as many arguments as there are parameters meets no defect before the
function is entered. -/
theorem invoke (setup : Setup) {run : Block → Exec Unit} (hrun : ∀ b, Inside (run b))
    {f : Function} {args : List Word} (hargs : args.length = f.frame.params.length)
    (link : Word) : Admitted (invoke setup run f link args) :=
  bind (.of_plain (.reserve _ _ _)) (reserve setup hargs) fun _ =>
    bind (.fill _ _ _ _) (fill _ _ _ _) fun _ => bind .get get fun _ => bind .get get fun _ =>
      enter setup _ _ ((hrun _).bind fun _ => .leave _ _ _)

end Admitted

end TreeCode.Exec
