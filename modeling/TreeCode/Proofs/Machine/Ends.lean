/-
# The end of a run

`Machine.Ends` says how a run ends, with its result and the machine that it leaves. Fuel that
is enough stays enough, with the same outcome, the place of the running instruction, the
number of instructions and the trace included. So a run ends in one way at most.
-/

import TreeCode.Proofs.Machine.Behaviour

namespace TreeCode

namespace Exec

theorem block_ascending (setup : Setup) (b : Block) (pc : Nat) :
    Ascending (fun n => block setup n b pc) := by
  intro n
  induction n generalizing b pc with
  | zero =>
    intro s hs
    exact absurd rfl (hs s)
  | succ n ih =>
    simp only [block]
    cases b[pc]? with
    | none => exact Below.refl _
    | some stmt =>
      have hrun : ∀ inner, Congruence.below.rel
          (fun u => (fun (_ : Unit) inner => block setup n inner 0) u inner)
          ((fun inner => block setup (n + 1) inner 0) inner) := fun inner => ih inner 0
      apply (Below.refl (start setup pc stmt)).bind
      intro _
      exact ((Congruence.below.runs setup hrun).step b pc stmt).bind fun next => ih b next

end Exec

namespace Machine

theorem enter_ascending (setup : Setup) (name : String) (arg : Word) :
    Exec.Ascending (fun n => enter setup n name arg) := by
  intro n
  simp only [enter]
  cases setup.program.lookup? name with
  | none => exact Exec.Below.refl _
  | some f =>
    have hrun : ∀ b, Exec.Congruence.below.rel
        (fun u => (fun (_ : Unit) b => Exec.block setup n b 0) u b)
        ((fun b => Exec.block setup (n + 1) b 0) b) :=
      fun b => Exec.block_ascending setup b 0 n
    exact Exec.Congruence.below.invoke setup hrun f 0 [arg]

variable {m : Machine} {name : String} {arg : Word} {r : Except RunError Word × Machine}

/-- A new machine is in the state before a run. -/
theorem state_of_new {p : Program} {o : Options} (h : new p o = .ok m) :
    ∃ memory, m.state = initialState m.setup.memorySize memory := by
  unfold new at h
  dsimp only at h
  split at h
  · cases h
  split at h
  · cases h
  split at h
  · cases h
  · cases h
    exact ⟨_, rfl⟩

/-- The outcome of a run, from how its first call ended. -/
def outcome (setup : Setup) : EStateM.Result Stop State Word → Except RunError Word × Machine
  | .ok value state => (.ok value, ⟨setup, { state with status := .halted }⟩)
  | .error stop state => (.error (.stopped stop), ⟨setup, state⟩)

theorem run_eq_outcome (h : m.state.started = false) (fuel : Nat) (name : String) (arg : Word) :
    m.run fuel name arg = outcome m.setup (enter m.setup fuel name arg m.startState) := by
  unfold run startState
  rw [h, if_neg Bool.false_ne_true]
  dsimp only
  cases enter m.setup fuel name arg { m.state with started := true, status := .running } with
  | ok _ _ | error _ _ => rfl

/-- The run of a machine has the given outcome, with as much fuel as it needs. -/
def Ends (m : Machine) (name : String) (arg : Word) (r : Except RunError Word × Machine) : Prop :=
  ∃ fuel, m.run fuel name arg = r ∧ r.1 ≠ .error (.stopped .outOfFuel)

/-- A run that has not been started before ends as its first call does. -/
theorem ends_iff (h : m.state.started = false) :
    m.Ends name arg r ↔ ∃ fuel x, enter m.setup fuel name arg m.startState = x ∧
      Exec.Finished x ∧ outcome m.setup x = r := by
  constructor
  · rintro ⟨fuel, rfl, hfuel⟩
    refine ⟨fuel, _, rfl, ?_, (run_eq_outcome h fuel name arg).symm⟩
    intro s hs
    rw [run_eq_outcome h, hs] at hfuel
    exact hfuel rfl
  · rintro ⟨fuel, x, hx, hfinished, rfl⟩
    refine ⟨fuel, by rw [run_eq_outcome h, hx], ?_⟩
    cases x with
    | ok value s => exact fun heq => by cases heq
    | error stop s =>
      intro heq
      simp only [outcome, Except.error.injEq, RunError.stopped.injEq] at heq
      exact hfinished s (by rw [heq])

/-- A run ends in one way. -/
theorem Ends.unique (h : m.state.started = false) {r' : Except RunError Word × Machine}
    (hr : m.Ends name arg r) (hr' : m.Ends name arg r') : r' = r := by
  obtain ⟨n, x, hx, hfinished, rfl⟩ := (ends_iff h).1 hr
  obtain ⟨n', x', hx', hfinished', rfl⟩ := (ends_iff h).1 hr'
  have hle : ∀ {i j : Nat}, i ≤ j → Exec.Finished (enter m.setup i name arg m.startState) →
      enter m.setup j name arg m.startState = enter m.setup i name arg m.startState :=
    fun hij => (enter_ascending m.setup name arg).le hij m.startState
  rcases Nat.le_total n n' with hnn | hnn
  · rw [← hx', ← hx, hle hnn (hx ▸ hfinished)]
  · rw [← hx', ← hx, hle hnn (hx' ▸ hfinished')]

theorem Ends.iff_eq (h : m.state.started = false) (hr : m.Ends name arg r)
    (r' : Except RunError Word × Machine) : m.Ends name arg r' ↔ r' = r := by
  constructor
  · exact hr.unique h
  · rintro rfl
    exact hr

/-- Behaviours are how runs end, seen from outside. -/
theorem behaves_iff_ends {b : Behaviour} :
    m.Behaves name arg b ↔ ∃ r, m.Ends name arg r ∧ Behaviour.ofRun? r = some b := by
  constructor
  · rintro ⟨fuel, hb⟩
    refine ⟨_, ⟨fuel, rfl, fun hfuel => ?_⟩, hb⟩
    rcases hrun : m.run fuel name arg with ⟨result, last⟩
    rw [hrun] at hb hfuel
    simp only at hfuel
    subst hfuel
    cases hb
  · rintro ⟨_, ⟨fuel, rfl, -⟩, hb⟩
    exact ⟨fuel, hb⟩

end Machine

end TreeCode
