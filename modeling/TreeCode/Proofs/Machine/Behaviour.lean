/-
# Behaviour of a run

A behaviour is everything about a run that two forms of a program have in common: how
it ended, what it printed, the memory it left and its counters of calls and stack. The
number of instructions and the place of a fault are not part of it.

`Machine.Behaves` says that a machine has a behaviour with some amount of fuel. There
is at most one, and it is that of the run with as much fuel as it needs.
-/

import TreeCode.Proofs.Machine.Relation

namespace TreeCode

/-- How a run ended. -/
inductive Ending where
  | returned (value : Word)
  | faulted (cause : FaultCause)
  | broken (defect : Defect)
  /-- The machine had run before. -/
  | refused
deriving DecidableEq

/-- What a run shows of itself. -/
structure Behaviour where
  ending : Ending
  output : Array UInt8
  memory : Memory
  calls : Nat
  maxDepth : Nat
  peakStack : Word

namespace Behaviour

/-- An ending together with the state that it leaves. -/
def ofState (e : Ending) (s : State) : Behaviour :=
  ⟨e, s.output, s.memory, s.stats.calls, s.stats.maxDepth, s.stats.peakStack⟩

/-- The behaviour of a run, unless its fuel ran out. -/
def ofRun? : Except RunError Word × Machine → Option Behaviour
  | (.ok v, m) => some (ofState (.returned v) m.state)
  | (.error .alreadyRun, m) => some (ofState .refused m.state)
  | (.error (.stopped (.fault f)), m) => some (ofState (.faulted f.cause) m.state)
  | (.error (.stopped (.defect d)), m) => some (ofState (.broken d) m.state)
  | (.error (.stopped .outOfFuel), _) => none

/-- The behaviour that an outcome shows. -/
def ofResult? : EStateM.Result Stop State Word → Option Behaviour
  | .ok v s => some (ofState (.returned v) s)
  | .error (.fault f) s => some (ofState (.faulted f.cause) s)
  | .error (.defect d) s => some (ofState (.broken d) s)
  | .error .outOfFuel _ => none

theorem ofState_of_sameView (e : Ending) {s t : State} (h : SameView s t) :
    ofState e s = ofState e t := by
  simp only [ofState, h.output, h.memory, h.calls, h.maxDepth, h.peakStack]

/-- Outcomes that correspond show the same behaviour. -/
theorem ofResult?_of_matches {A : Activation → Activation → Prop} {d : Nat}
    {x y : EStateM.Result Stop State Word} (h : Exec.Matches (Exec.Same A d) x y) :
    ofResult? x = ofResult? y := by
  cases h with
  | ok h =>
    obtain ⟨rfl, hrel⟩ := h
    exact congrArg some (ofState_of_sameView _ hrel.view)
  | fault hc hv =>
    simp only [ofResult?, hc]
    exact congrArg some (ofState_of_sameView _ hv)
  | defect hv => exact congrArg some (ofState_of_sameView _ hv)
  | lost => rfl

theorem finished_of_ofResult? {x : EStateM.Result Stop State Word} {b : Behaviour}
    (h : ofResult? x = some b) : Exec.Finished x := by
  rintro s rfl
  cases h

/-- A behaviour that is shown with enough fuel is shown without a bound. -/
theorem exists_iff_of_tends {x : Nat → Exec Word} {y : Exec Word} (h : Exec.Tends x y)
    (s : State) (b : Behaviour) :
    (∃ n, ofResult? (x n s) = some b) ↔ ofResult? (y s) = some b := by
  constructor
  · rintro ⟨n, hn⟩
    rw [h.below n s (finished_of_ofResult? hn)]
    exact hn
  · intro hb
    obtain ⟨n, hn⟩ := h.reached s (finished_of_ofResult? hb)
    exact ⟨n, by rw [hn n (Nat.le_refl n), hb]⟩

end Behaviour

namespace Exec

/-- Call the function of a name with one argument, with as much fuel as that needs. -/
noncomputable def fullEnter (setup : Setup) (name : String) (arg : Word) : Exec Word :=
  match setup.program.lookup? name with
  | none => fault (.noEntry name)
  | some f => invoke setup (fullRun setup) f 0 [arg]

/-- The same call with a bound on the fuel, leaving out what only serves reports. -/
def quietEnter (setup : Setup) (fuel : Nat) (name : String) (arg : Word) : Exec Word :=
  match setup.program.lookup? name with
  | none => fault (.noEntry name)
  | some f => invoke setup (fun b => quiet setup fuel b 0) f 0 [arg]

theorem tends_fullEnter (setup : Setup) (name : String) (arg : Word) :
    Tends (fun n => quietEnter setup n name arg) (fullEnter setup name arg) := by
  unfold quietEnter fullEnter
  cases setup.program.lookup? name with
  | none => exact Tends.const (Settled.fault _)
  | some f => exact Congruence.tends.invoke setup (fun b => tends_full setup b 0) f 0 [arg]

theorem enter_sim_quietEnter (setup : Setup) (n : Nat) (name : String) (arg : Word) (d : Nat) :
    Sim (Rel Eq d) (Machine.enter setup n name arg) (quietEnter setup n name arg)
      (Same Eq d) := by
  unfold Machine.enter quietEnter
  cases setup.program.lookup? name with
  | none => exact Neutral.fault _ _ _
  | some f =>
    refine invoke_sim (B := Eq) (Setup.Alike.refl setup) (fun _ => rfl) (fun _ _ h => by rw [h])
      rfl (fun _ => ?_) 0 [arg]
    exact (block_sim_quiet setup n (d + 1) f.body 0).mono (fun _ _ h => h) fun _ _ _ _ h => h.2

end Exec

namespace Machine

/-- The machine has the given behaviour when it is run with enough fuel. -/
def Behaves (m : Machine) (name : String) (arg : Word) (b : Behaviour) : Prop :=
  ∃ fuel, Behaviour.ofRun? (m.run fuel name arg) = some b

variable {m : Machine}

theorem new_eq_ok {p : Program} {o : Options} (h : new p o = .ok m) :
    m.setup = o.setup p ∧ m.state.started = false := by
  unfold new at h
  dsimp only at h
  split at h
  · cases h
  split at h
  · cases h
  split at h
  · cases h
  · cases h
    exact ⟨rfl, rfl⟩

/-- The state in which a run starts. -/
def startState (m : Machine) : State :=
  { m.state with started := true, status := .running }

theorem ofRun?_run (h : m.state.started = false) (fuel : Nat) (name : String) (arg : Word) :
    Behaviour.ofRun? (m.run fuel name arg) =
      Behaviour.ofResult? (enter m.setup fuel name arg m.startState) := by
  unfold run startState
  rw [h, if_neg Bool.false_ne_true]
  dsimp only
  cases enter m.setup fuel name arg { m.state with started := true, status := .running } with
  | ok v s => rfl
  | error e s => cases e <;> rfl

/-- The behaviour of a machine is that of its run without a bound. -/
theorem behaves_iff (h : m.state.started = false) (name : String) (arg : Word) (b : Behaviour) :
    m.Behaves name arg b ↔
      Behaviour.ofResult? (Exec.fullEnter m.setup name arg m.startState) = some b := by
  have hquiet : ∀ n, Behaviour.ofRun? (m.run n name arg) =
      Behaviour.ofResult? (Exec.quietEnter m.setup n name arg m.startState) := by
    intro n
    rw [ofRun?_run h]
    exact Behaviour.ofResult?_of_matches (Exec.enter_sim_quietEnter m.setup n name arg
      m.startState.depth m.startState m.startState ⟨SameView.refl _, rfl, rfl⟩)
  rw [← Behaviour.exists_iff_of_tends (Exec.tends_fullEnter m.setup name arg)]
  simp only [Behaves, hquiet]

/-- A machine has at most one behaviour. -/
theorem Behaves.unique (h : m.state.started = false) {name : String} {arg : Word} {b b' : Behaviour}
    (hb : m.Behaves name arg b) (hb' : m.Behaves name arg b') : b = b' := by
  rw [behaves_iff h] at hb hb'
  exact Option.some.inj (hb.symm.trans hb')

end Machine

end TreeCode
