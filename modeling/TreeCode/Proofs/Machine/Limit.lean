/-
# Runs without a bound

Every run has a bound on its length, its fuel. Statements about programs are about
runs that are given enough of it. This module removes the bound: `full` executes a
block with as much fuel as its run needs, and stands for divergence by one fixed
outcome when no amount is enough. It satisfies the equation of the recursion
without fuel, so that later proofs never mention fuel again.

The place of the running instruction, the number of instructions and the trace
serve reports only. `quiet` is execution without them; `TreeCode.Proofs.Machine.Relation`
shows that nothing else depends on them.
-/

import TreeCode.Proofs.Machine.Operations

namespace TreeCode.Exec

variable {α β : Type}

/-- An outcome of the program itself: the fuel did not run out. -/
def Finished (r : EStateM.Result Stop State α) : Prop :=
  ∀ s, r ≠ .error .outOfFuel s

theorem finished_ok (a : α) (s : State) :
    Finished (.ok a s : EStateM.Result Stop State α) := by
  intro t h
  cases h

theorem finished_error {e : Stop} (h : e ≠ .outOfFuel) (s : State) :
    Finished (.error e s : EStateM.Result Stop State α) := by
  intro t heq
  cases heq
  exact h rfl

theorem finished_error_iff {e : Stop} {s : State} :
    Finished (.error e s : EStateM.Result Stop State α) ↔ e ≠ .outOfFuel :=
  ⟨fun h he => h s (he ▸ rfl), fun h => finished_error h s⟩

theorem bind_of_ok {x : Exec α} {f : α → Exec β} {s t : State} {a : α}
    (h : x s = .ok a t) : (x >>= f) s = f a t := by
  change EStateM.bind x f s = f a t
  simp only [EStateM.bind, h]

theorem bind_of_error {x : Exec α} {f : α → Exec β} {s t : State} {e : Stop}
    (h : x s = .error e t) : (x >>= f) s = .error e t := by
  change EStateM.bind x f s = .error e t
  simp only [EStateM.bind, h]

/-- Both halves of a computation that yields a value do. -/
theorem bind_eq_ok {x : Exec α} {f : α → Exec β} {s s' : State} {b : β}
    (h : (x >>= f) s = .ok b s') : ∃ a t, x s = .ok a t ∧ f a t = .ok b s' := by
  cases hx : x s with
  | ok a t => exact ⟨a, t, rfl, (bind_of_ok hx).symm.trans h⟩
  | error e t =>
    rw [bind_of_error hx] at h
    cases h

/-- A computation that never runs out of fuel. -/
def Settled (x : Exec α) : Prop :=
  ∀ s, Finished (x s)

namespace Settled

theorem pure (a : α) : Settled (Pure.pure a : Exec α) := fun s => finished_ok a s

theorem fault (c : FaultCause) : Settled (fault c : Exec α) :=
  fun _ => finished_error (by simp) _

theorem defect (d : Defect) : Settled (defect d : Exec α) :=
  fun _ => finished_error (by simp) _

theorem bind {x : Exec α} {f : α → Exec β} (hx : Settled x) (hf : ∀ a, Settled (f a)) :
    Settled (x >>= f) := by
  intro s
  cases h : x s with
  | ok a t =>
    rw [bind_of_ok h]
    exact hf a t
  | error e t =>
    rw [bind_of_error h]
    exact finished_error_iff.2 (finished_error_iff.1 (h ▸ hx s))

/-- Operations end. -/
theorem of_plain {x : Exec α} (h : Plain x) : Settled x :=
  Pervasive.basic (C := Settled) {
    pure := pure
    bind := bind
    defect := defect
    fault := fun _ => fault _
    look := fun _ _ => finished_ok _ _
    put := fun _ _ _ => finished_ok _ _
    print := fun _ _ => finished_ok _ _
    countCall := fun _ => finished_ok _ _ } h

theorem get : Settled (MonadState.get : Exec State) := fun s => finished_ok s s

theorem readTemp (t : Temp) : Settled (readTemp t) := by
  intro s
  unfold Exec.readTemp
  split <;> exact finished_ok _ _

theorem writeTemp (t : Temp) (w : Word) : Settled (writeTemp t w) := fun _ => finished_ok _ _

theorem location : Settled location := fun _ => finished_ok _ _

theorem setLocation (l : Location) : Settled (setLocation l) := fun _ => finished_ok _ _

theorem fill (frame : Frame) (base link : Word) (args : List Word) :
    Settled (fill frame base link args) :=
  bind (of_plain (.store _ _)) fun _ => bind (of_plain (.storeAll _ _)) fun _ =>
    bind get fun _ => of_plain (.store _ _)

theorem enter (setup : Setup) (frame : Frame) (base : Word) : Settled (enter setup frame base) :=
  fun _ => finished_ok _ _

theorem resume (frame : Frame) (caller : Activation) (l : Location) (fp : Word) :
    Settled (resume frame caller l fp) :=
  fun _ => finished_ok _ _

theorem leave (frame : Frame) (caller : Activation) (l : Location) :
    Settled (leave frame caller l) :=
  bind get fun _ => bind (of_plain (.load _)) fun _ => resume _ _ _ _

end Settled

/-- `y` does whatever `x` does, where `x` does not run out of fuel. -/
def Below (x y : Exec α) : Prop :=
  ∀ s, Finished (x s) → y s = x s

namespace Below

theorem refl (x : Exec α) : Below x x := fun _ _ => rfl

theorem bind {x y : Exec α} {f g : α → Exec β} (hx : Below x y) (hf : ∀ a, Below (f a) (g a)) :
    Below (x >>= f) (y >>= g) := by
  intro s hfin
  cases h : x s with
  | ok a t =>
    have hy : y s = .ok a t := by rw [hx s (h ▸ finished_ok a t), h]
    rw [bind_of_ok h] at hfin ⊢
    rw [bind_of_ok hy, hf a t hfin]
  | error e t =>
    rw [bind_of_error h] at hfin ⊢
    have hy : y s = .error e t := by
      rw [hx s (h ▸ finished_error_iff.2 (finished_error_iff.1 hfin)), h]
    rw [bind_of_error hy]

end Below

/-- The state that stands for the end of a run that has none. -/
def lostState : State :=
  Machine.initialState 0 ⟨#[]⟩

/-- The computation without an end. -/
def diverge : Exec α := fun _ =>
  .error .outOfFuel lostState

/-- Where a computation has no end, it has the outcome that stands for that. -/
def Proper (x : Exec α) : Prop :=
  ∀ s, ¬ Finished (x s) → x s = diverge s

/-- Computations with growing fuel, and the computation that has enough of it. -/
structure Tends (x : Nat → Exec α) (y : Exec α) : Prop where
  below : ∀ n, Below (x n) y
  reached : ∀ s, Finished (y s) → ∃ n, ∀ m, n ≤ m → x m s = y s
  lost : Proper y

namespace Tends

/-- A computation without fuel is its own limit. -/
theorem of_proper {x : Exec α} (h : Proper x) : Tends (fun _ => x) x where
  below _ := Below.refl x
  reached _ _ := ⟨0, fun _ _ => rfl⟩
  lost := h

theorem const {x : Exec α} (h : Settled x) : Tends (fun _ => x) x :=
  of_proper fun s hs => absurd (h s) hs

theorem bind {x : Nat → Exec α} {y : Exec α} {f : Nat → α → Exec β} {g : α → Exec β}
    (hx : Tends x y) (hf : ∀ a, Tends (fun n => f n a) (g a)) :
    Tends (fun n => x n >>= f n) (y >>= g) where
  below n := (hx.below n).bind fun a => (hf a).below n
  reached s hfin := by
    cases h : y s with
    | ok a t =>
      rw [bind_of_ok h] at hfin ⊢
      obtain ⟨i, hi⟩ := hx.reached s (h ▸ finished_ok a t)
      obtain ⟨j, hj⟩ := (hf a).reached t hfin
      refine ⟨max i j, fun m hm => ?_⟩
      rw [bind_of_ok ((hi m (by omega)).trans h), hj m (by omega)]
    | error e t =>
      rw [bind_of_error h] at hfin ⊢
      obtain ⟨i, hi⟩ := hx.reached s (h ▸ finished_error_iff.2 (finished_error_iff.1 hfin))
      exact ⟨i, fun m hm => bind_of_error ((hi m hm).trans h)⟩
  lost s hs := by
    cases h : y s with
    | ok a t =>
      rw [bind_of_ok h] at hs ⊢
      exact (hf a).lost t hs
    | error e t =>
      rw [bind_of_error h] at hs ⊢
      have hy : ¬ Finished (y s) := fun hfin =>
        hs (finished_error_iff.2 (finished_error_iff.1 (h ▸ hfin)))
      have hlost := hx.lost s hy
      rw [h] at hlost
      cases hlost
      rfl

/-- There is at most one computation with enough fuel. -/
theorem unique {x : Nat → Exec α} {y z : Exec α} (hy : Tends x y) (hz : Tends x z) : y = z := by
  funext s
  by_cases h : Finished (y s)
  · obtain ⟨n, hn⟩ := hy.reached s h
    have hx : x n s = y s := hn n (Nat.le_refl n)
    rw [hz.below n s (hx ▸ h), hx]
  · by_cases h' : Finished (z s)
    · obtain ⟨n, hn⟩ := hz.reached s h'
      have hx : x n s = z s := hn n (Nat.le_refl n)
      rw [hy.below n s (hx ▸ h'), hx]
    · rw [hy.lost s h, hz.lost s h']

/-- One unit of fuel more or less does not matter in the long run. -/
theorem succ {x : Nat → Exec α} {y : Exec α} (h : Tends x y) : Tends (fun n => x (n + 1)) y where
  below n := h.below (n + 1)
  reached s hs := by
    obtain ⟨n, hn⟩ := h.reached s hs
    exact ⟨n, fun m hm => hn (m + 1) (by omega)⟩
  lost := h.lost

end Tends

/-- Fuel that is enough stays enough. -/
def Ascending (x : Nat → Exec α) : Prop :=
  ∀ n, Below (x n) (x (n + 1))

theorem Ascending.le {x : Nat → Exec α} (h : Ascending x) {n m : Nat} (hnm : n ≤ m) :
    Below (x n) (x m) := by
  induction hnm with
  | refl => exact Below.refl _
  | step _ ih =>
    intro s hs
    have hm := ih s hs
    rw [h _ s (hm ▸ hs), hm]

open Classical in
/-- The computation with as much fuel as it needs. -/
noncomputable def limit (x : Nat → Exec α) : Exec α := fun s =>
  if h : ∃ n, Finished (x n s) then x h.choose s else diverge s

theorem tends_limit {x : Nat → Exec α} (hx : Ascending x) : Tends x (limit x) := by
  have below : ∀ n, Below (x n) (limit x) := by
    intro n s hs
    have h : ∃ n, Finished (x n s) := ⟨n, hs⟩
    rw [limit, dif_pos h]
    rcases Nat.le_total n h.choose with hle | hle
    · exact hx.le hle s hs
    · exact (hx.le hle s h.choose_spec).symm
  refine ⟨below, fun s hs => ?_, fun s hs => ?_⟩
  · by_cases h : ∃ n, Finished (x n s)
    · refine ⟨h.choose, fun m hm => ?_⟩
      rw [limit, dif_pos h]
      exact hx.le hm s h.choose_spec
    · rw [limit, dif_neg h] at hs
      exact absurd rfl (hs lostState)
  · by_cases h : ∃ n, Finished (x n s)
    · rw [limit, dif_pos h] at hs
      exact absurd h.choose_spec hs
    · rw [limit, dif_neg h]

/-- A relation between computations that depend on an index and computations that
do not, which passes through sequencing. Evaluation respects every such relation,
because it is put together by sequencing. -/
structure Congruence (ι : Type) where
  rel : ∀ {α : Type}, (ι → Exec α) → Exec α → Prop
  const : ∀ {α : Type} {x : Exec α}, Settled x → rel (fun _ => x) x
  lost : ∀ {α : Type}, rel (fun _ => (diverge : Exec α)) diverge
  bind : ∀ {α β : Type} {x : ι → Exec α} {y : Exec α} {f : ι → α → Exec β} {g : α → Exec β},
    rel x y → (∀ a, rel (fun i => f i a) (g a)) → rel (fun i => x i >>= f i) (y >>= g)

namespace Congruence

/-- Doing less with less fuel. -/
def below : Congruence Unit where
  rel x y := Below (x ()) y
  const _ := Below.refl _
  lost := Below.refl _
  bind hx hf := hx.bind hf

/-- Doing the same in the long run. -/
def tends : Congruence Nat where
  rel := Tends
  const := Tends.const
  lost := Tends.of_proper fun _ _ => rfl
  bind := Tends.bind

variable {ι : Type} (C : Congruence ι) (setup : Setup) {run : ι → Block → Exec Unit}
  {run' : Block → Exec Unit}

theorem invoke (h : ∀ b, C.rel (fun i => run i b) (run' b)) (f : Function) (link : Word)
    (args : List Word) :
    C.rel (fun i => invoke setup (run i) f link args) (Exec.invoke setup run' f link args) := by
  refine C.bind (C.const (.of_plain (.reserve _ _ _))) fun _ => ?_
  refine C.bind (C.const (Settled.fill _ _ _ _)) fun _ => ?_
  refine C.bind (C.const Settled.get) fun _ => C.bind (C.const Settled.get) fun _ => ?_
  refine C.bind (C.const (Settled.enter _ _ _)) fun _ => ?_
  exact C.bind (h f.body) fun _ => C.const (Settled.leave _ _ _)

theorem plain {α : Type} {x : Exec α} (h : Plain x) : C.rel (fun _ => x) x :=
  C.const (.of_plain h)

theorem pure {α : Type} (a : α) : C.rel (fun _ => Pure.pure a) (Pure.pure a) :=
  C.const (.pure a)

/-- Evaluation respects what passes through sequencing. -/
def bond : Bond ι where
  rel := C.rel
  plain := C.plain
  readTemp t := C.const (.readTemp t)
  writeTemp t w := C.const (.writeTemp t w)
  bind := C.bind
  inner hx he := C.bind (C.const .location) fun _ => C.bind hx fun _ =>
    C.bind (C.const (.setLocation _)) fun _ => he

theorem runs (h : ∀ b, C.rel (fun i => run i b) (run' b)) :
    C.bond.Runs (fun _ => setup) setup run run' :=
  C.bond.runs (fun _ => rfl) h (C.const .get) (C.invoke setup h)

end Congruence

variable (setup : Setup)

/-- Execute a block from a position on, without keeping the running instruction,
the number of instructions or a trace. -/
def quiet : Nat → Block → Nat → Exec Unit
  | 0, _, _ => throw .outOfFuel
  | fuel + 1, b, pc =>
    match b[pc]? with
    | none => pure ()
    | some stmt => do
      let next ← step setup (fun inner => quiet fuel inner 0) b pc stmt
      quiet fuel b next

theorem quiet_ascending (b : Block) (pc : Nat) : Ascending (fun n => quiet setup n b pc) := by
  intro n
  induction n generalizing b pc with
  | zero => exact fun s hs => absurd rfl (hs s)
  | succ n ih =>
    simp only [quiet]
    cases b[pc]? with
    | none => exact Below.refl _
    | some stmt =>
      have hrun : ∀ inner, Congruence.below.rel
          (fun u => (fun (_ : Unit) inner => quiet setup n inner 0) u inner)
          ((fun inner => quiet setup (n + 1) inner 0) inner) := fun inner => ih inner 0
      exact ((Congruence.below.runs setup hrun).step b pc stmt).bind fun next => ih b next

/-- Execute a block from a position on with as much fuel as that needs. -/
noncomputable def full (b : Block) (pc : Nat) : Exec Unit :=
  limit fun n => quiet setup n b pc

theorem tends_full (b : Block) (pc : Nat) :
    Tends (fun n => quiet setup n b pc) (full setup b pc) :=
  tends_limit (quiet_ascending setup b pc)

/-- Evaluation inside an execution with enough fuel. -/
noncomputable def fullRun (b : Block) : Exec Unit :=
  full setup b 0

theorem runs_full : Congruence.tends.bond.Runs (fun _ => setup) setup
    (fun n inner => quiet setup n inner 0) (fullRun setup) :=
  Congruence.tends.runs setup fun inner => tends_full setup inner 0

/-- Execution with enough fuel satisfies the equation of the recursion. -/
theorem full_eq (b : Block) (pc : Nat) :
    full setup b pc =
      match b[pc]? with
      | none => pure ()
      | some stmt => step setup (fullRun setup) b pc stmt >>= full setup b := by
  refine ((tends_full setup b pc).succ).unique ?_
  simp only [quiet]
  cases b[pc]? with
  | none => exact Tends.const (Settled.pure ())
  | some stmt =>
    exact ((runs_full setup).step b pc stmt).bind fun next => tends_full setup b next

end TreeCode.Exec
