/-
# How final an ending is

A user of a machine can run it and look at it, in any order. A run is started at most once,
whatever is asked in between. From then on the machine never changes again, except that it
counts as faulted after a look at a word outside memory. So a fault of a run is final, and a
halted machine stays halted as long as nobody looks outside memory.

Looking outside memory counts as a fault of the machine, too, but it does not keep a machine
that has not run from running afterwards, and it takes a halted machine out of that state.
-/

import TreeCode.Compilation
import TreeCode.Proofs.Machine.Accord
import TreeCode.Proofs.Machine.Ends
import TreeCode.Proofs.Outcome
import TreeCode.Sample

namespace TreeCode

namespace Exec

variable {α β : Type}

/-- A computation that leaves it alone whether the machine has been started, however it
ends. -/
def KeepsStarted (x : Exec α) : Prop :=
  ∀ s, (final (x s)).started = s.started

theorem KeepsStarted.bind {x : Exec α} {f : α → Exec β} (hx : KeepsStarted x)
    (hf : ∀ a, KeepsStarted (f a)) : KeepsStarted (x >>= f) := by
  intro s
  have hs := hx s
  cases h : x s with
  | ok a t =>
    rw [h] at hs
    rw [bind_of_ok h]
    exact (hf a t).trans hs
  | error e t =>
    rw [h] at hs
    rw [bind_of_error h]
    exact hs

theorem Quiescent.keepsStarted {x : Exec α} (hx : Quiescent x) : KeepsStarted x :=
  fun s => (hx s).started

theorem KeepsStarted.invoke (setup : Setup) {run : Block → Exec Unit}
    (hrun : ∀ b, KeepsStarted (run b)) (f : Function) (link : Word) (args : List Word) :
    KeepsStarted (invoke setup run f link args) := by
  apply (Quiescent.of_plain (.reserve setup f.frame args.length)).keepsStarted.bind
  intro base
  apply (Quiescent.fill f.frame base link args).keepsStarted.bind
  intro _
  apply Quiescent.get.keepsStarted.bind
  intro caller
  apply Quiescent.get.keepsStarted.bind
  intro place
  have henter : KeepsStarted (enter setup f.frame base) := fun _ => rfl
  apply henter.bind
  intro _
  apply (hrun f.body).bind
  intro _
  apply Quiescent.get.keepsStarted.bind
  intro _
  exact (Quiescent.of_plain (.load _)).keepsStarted.bind fun _ _ => rfl

/-- Nothing that happens in a run changes whether the machine has been started. -/
def Accord.started (setup : Setup) : Accord setup setup where
  rel x _ := KeepsStarted x
  program := rfl
  traced := rfl
  quiescent := Quiescent.keepsStarted
  bind := KeepsStarted.bind
  invoke hrun := KeepsStarted.invoke setup hrun

end Exec

namespace Machine

/-- What a user can ask of a machine. -/
inductive Operation where
  | run (fuel : Nat) (name : String) (arg : Word)
  | word (addr : Word)
  | addressOf (name : String)
  | stats
  | digest
  | memory

/-- What a machine answers. -/
inductive Answer where
  | result (result : Except RunError Word)
  | word (word : Except Stop Word)
  | address (addr : Option Word)
  | stats (stats : Stats)
  | digest (digest : UInt64)
  | memory (memory : Memory)

/-- The answer to what is asked, and the machine afterwards. -/
def perform (m : Machine) : Operation → Answer × Machine
  | .run fuel name arg => (.result (m.run fuel name arg).1, (m.run fuel name arg).2)
  | .word addr => (.word (m.word addr).1, (m.word addr).2)
  | .addressOf name => (.address (m.addressOf? name), m)
  | .stats => (.stats m.state.stats, m)
  | .digest => (.digest m.digest, m)
  | .memory => (.memory m.state.memory, m)

/-- The machine after it was asked several things. -/
def after (m : Machine) : List Operation → Machine
  | [] => m
  | o :: rest => (m.perform o).2.after rest

/-- Whether something that is asked is a run. -/
def Operation.isRun : Operation → Bool
  | .run .. => true
  | _ => false

/-- Whether something that is asked is a look at a word outside memory. -/
def Operation.strays (memory : Memory) : Operation → Bool
  | .word addr => !memory.holdsWord addr
  | _ => false

/-- A machine that counts as faulted and is otherwise as it was. -/
def spoiled (m : Machine) : Machine :=
  { m with state := { m.state with status := .faulted } }

variable (ops : List Operation) (m : Machine)

theorem after_append (before later : List Operation) :
    m.after (before ++ later) = (m.after before).after later := by
  induction before generalizing m with
  | nil => rfl
  | cons o rest ih => exact ih (m.perform o).2

theorem spoiled_of_faulted {m : Machine} (h : m.state.status = .faulted) : m.spoiled = m := by
  obtain ⟨setup, state⟩ := m
  simp only [spoiled, ← h]

/-- Whatever a look at a word finds, the machine is spoiled or unchanged. -/
theorem word_snd (addr : Word) :
    (m.word addr).2 = if m.state.memory.holdsWord addr then m else m.spoiled := by
  unfold word Exec.load
  by_cases h : m.state.memory.holdsWord addr = true
  · simp only [if_pos h]
  · simp only [if_neg h]
    rfl

theorem run_of_started {m : Machine} (h : m.state.started = true) (fuel : Nat) (name : String)
    (arg : Word) : m.run fuel name arg = (.error .alreadyRun, m) := by
  rw [run, if_pos h]

/-- What is asked runs nothing: a run has been started before, or none is asked for. -/
def Idle (m : Machine) (ops : List Operation) : Prop :=
  m.state.started = true ∨ ops.any Operation.isRun = false

/-- What runs nothing can only spoil the machine. -/
theorem perform_of_idle {m : Machine} {o : Operation}
    (h : m.state.started = true ∨ o.isRun = false) :
    (m.perform o).2 = if o.strays m.state.memory then m.spoiled else m := by
  cases o with
  | run fuel name arg =>
    rcases h with h | h
    · simp only [perform, run_of_started h]
      rfl
    · cases h
  | word addr =>
    simp only [perform, word_snd, Operation.strays]
    by_cases haddr : m.state.memory.holdsWord addr = true <;> simp [haddr]
  | addressOf _ | stats | digest | memory => rfl

/-- Where nothing is run, the machine stays as it is, unless a look outside memory spoils
it. -/
theorem after_of_idle : ∀ {m : Machine}, m.Idle ops →
    m.after ops = if ops.any (·.strays m.state.memory) then m.spoiled else m := by
  induction ops with
  | nil =>
    intro m _
    rfl
  | cons o rest ih =>
    intro m h
    have hfirst : m.state.started = true ∨ o.isRun = false := by
      apply h.imp_right
      intro hnone
      exact (Bool.or_eq_false_iff.1 (List.any_cons ▸ hnone)).1
    have hrest : m.Idle rest := by
      apply h.imp_right
      intro hnone
      exact (Bool.or_eq_false_iff.1 (List.any_cons ▸ hnone)).2
    rw [after, perform_of_idle hfirst, List.any_cons]
    cases o.strays m.state.memory with
    | false => exact ih hrest
    | true =>
      -- the spoiled machine has the same memory, and it can be spoiled again
      have hspoiled := ih (m := m.spoiled) hrest
      simp only [if_true, Bool.true_or, hspoiled]
      split <;> rfl

/-- Every run that is asked for leaves the machine started. -/
theorem started_run (fuel : Nat) (name : String) (arg : Word) :
    (m.run fuel name arg).2.state.started = true := by
  cases hstarted : m.state.started with
  | true => rw [run_of_started hstarted, hstarted]
  | false =>
    have hkeeps := (Exec.Accord.started m.setup).enter fuel name arg m.startState
    rw [run_eq_outcome hstarted]
    cases h : enter m.setup fuel name arg m.startState with
    | ok _ _ | error _ _ =>
      rw [h] at hkeeps
      exact hkeeps

/-- A machine has been started exactly if a run has been asked of it. -/
theorem started_after : ∀ m : Machine,
    (m.after ops).state.started = (m.state.started || ops.any Operation.isRun) := by
  induction ops with
  | nil => simp [after]
  | cons o rest ih =>
    intro m
    rw [after, ih, List.any_cons, ← Bool.or_assoc]
    congr 1
    cases o with
    | run fuel name arg => simp [perform, started_run, Operation.isRun]
    | word addr =>
      simp only [perform, word_snd, Operation.isRun, Bool.or_false]
      split <;> rfl
    | addressOf _ | stats | digest | memory => simp [perform, Operation.isRun]

/-- Only a run makes a machine halt. -/
theorem started_of_halted : ∀ {m : Machine},
    (m.state.status = .halted → m.state.started = true) →
      (m.after ops).state.status = .halted → (m.after ops).state.started = true := by
  induction ops with
  | nil => exact fun h => h
  | cons o rest ih =>
    intro m h
    apply ih
    cases o with
    | run fuel name arg => exact fun _ => started_run m fuel name arg
    | word addr =>
      simp only [perform, word_snd]
      split
      · exact h
      · exact fun hhalted => absurd hhalted (by simp [spoiled])
    | addressOf _ | stats | digest | memory => exact h

/-- Endings are final, looks outside memory apart. Whatever was asked of a new machine, it has
been started exactly if a run was among it. If it has halted by then, it stays as it is as
long as no look strays outside memory, and a look that does makes it count as faulted and
changes nothing else. If it has faulted by then, and the run was before that or there is none
to come, then it stays as it is for ever; in particular it executes no further instruction. -/
theorem endings_final {p : Program} {o : Options} {m : Machine} (hm : new p o = .ok m)
    (before later : List Operation) :
    ((m.after before).state.started = before.any Operation.isRun) ∧
      ((m.after before).state.status = .halted →
        m.after (before ++ later) =
          if later.any (·.strays (m.after before).state.memory) then (m.after before).spoiled
          else m.after before) ∧
      ((m.after before).state.status = .faulted →
        (before.any Operation.isRun = true ∨ later.any Operation.isRun = false) →
        m.after (before ++ later) = m.after before) := by
  have hnew : m.state.started = false := (new_eq_ok hm).2
  have hstarted : (m.after before).state.started = before.any Operation.isRun := by
    rw [started_after, hnew, Bool.false_or]
  have hhalted : (m.after before).state.status = .halted →
      (m.after before).state.started = true := by
    apply started_of_halted before
    intro h
    obtain ⟨memory, hstate⟩ := state_of_new hm
    rw [hstate] at h
    cases h
  rw [after_append]
  refine ⟨hstarted, ?_, ?_⟩
  · intro h
    exact after_of_idle later (.inl (hhalted h))
  · intro h hidle
    rw [← hstarted] at hidle
    rw [after_of_idle later hidle]
    split
    · exact spoiled_of_faulted h
    · rfl

end Machine

namespace Sample

open Machine (Operation)

/-- Looks inside memory, at the counters and at the digest, and a second run. -/
def lookAround : List Operation :=
  [.word 8, .digest, .run 20 entryName 4, .stats, .word 88]

/-- A machine that has halted, and one that has faulted for want of an entry, do not change
any more, whatever they are asked. -/
theorem endings_kept :
    ∃ c m, factorial.compile = .ok c ∧ Machine.new c.linear ⟨96, 0, false⟩ = .ok m ∧
      (m.after [.run 20 entryName 3]).state.status = .halted ∧
      m.after ([.run 20 entryName 3] ++ lookAround) = m.after [.run 20 entryName 3] ∧
      (m.after [.run 20 "main" 3]).state.status = .faulted ∧
      m.after ([.run 20 "main" 3] ++ .word (-1) :: lookAround) = m.after [.run 20 "main" 3] := by
  have hrun : (factorial.compile.toOption.bind fun c =>
      (Machine.new c.linear ⟨96, 0, false⟩).toOption.map fun m =>
        decide ((m.after [.run 20 entryName 3]).state.status = .halted ∧
          lookAround.any (·.strays (m.after [.run 20 entryName 3]).state.memory) = false ∧
          (m.after [.run 20 "main" 3]).state.status = .faulted)) = some true := by
    decide +kernel
  obtain ⟨c, hc, hrun⟩ := Outcome.of_toOption_bind hrun
  obtain ⟨m, hm, hrun⟩ := Outcome.of_toOption_map hrun
  obtain ⟨hhalted, hinside, hfaulted⟩ := of_decide_eq_true hrun
  obtain ⟨-, hhalt, -⟩ := Machine.endings_final hm [.run 20 entryName 3] lookAround
  obtain ⟨-, -, hfault⟩ := Machine.endings_final hm [.run 20 "main" 3] (.word (-1) :: lookAround)
  refine ⟨c, m, hc, hm, hhalted, ?_, hfaulted, hfault hfaulted (.inl rfl)⟩
  rw [hhalt hhalted, hinside]
  rfl

/-- A look outside memory undoes an ending: a machine that has faulted by one runs its whole
program afterwards, and a machine that has halted counts as faulted after one. -/
theorem look_undoes_ending :
    ∃ c m, factorial.compile = .ok c ∧ Machine.new c.linear ⟨96, 0, false⟩ = .ok m ∧
      (m.after [.word (-1)]).state.status = .faulted ∧
      (m.after [.word (-1), .run 20 entryName 3]).state.status = .halted ∧
      (m.after [.word (-1), .run 20 entryName 3]).state.stats.instructions = 21 ∧
      (m.after [.run 20 entryName 3]).state.status = .halted ∧
      (m.after [.run 20 entryName 3, .word (-1)]).state.status = .faulted := by
  have hrun : (factorial.compile.toOption.bind fun c =>
      (Machine.new c.linear ⟨96, 0, false⟩).toOption.map fun m =>
        decide ((m.after [.word (-1)]).state.status = .faulted ∧
          (m.after [.word (-1), .run 20 entryName 3]).state.status = .halted ∧
          (m.after [.word (-1), .run 20 entryName 3]).state.stats.instructions = 21 ∧
          (m.after [.run 20 entryName 3]).state.status = .halted ∧
          (m.after [.run 20 entryName 3, .word (-1)]).state.status = .faulted)) =
        some true := by
    decide +kernel
  obtain ⟨c, hc, hrun⟩ := Outcome.of_toOption_bind hrun
  obtain ⟨m, hm, hrun⟩ := Outcome.of_toOption_map hrun
  exact ⟨c, m, hc, hm, of_decide_eq_true hrun⟩

end Sample

end TreeCode
