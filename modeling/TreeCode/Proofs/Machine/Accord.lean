/-
# Computations in accord

Execution is put together by sequencing from steps that leave the bookkeeping of calls
alone and from invocations, which do not. An `Accord` is a relation between the
computations of two machines for one program that holds between a calm step and itself
and passes through sequencing and invocation. Whole runs of the two machines are then
related as well: the induction over code and fuel is made here once.

A property of the runs of one machine is an accord of that machine with itself.
-/

import TreeCode.Proofs.Machine.Limit
import TreeCode.Proofs.Machine.Memory

namespace TreeCode.Exec

open IR (Expr Stmt)

variable {α β : Type}

/-- The state that an outcome leaves behind. -/
def final : EStateM.Result Stop State α → State
  | .ok _ s => s
  | .error _ s => s

/-- Two states between which no call was entered or left, and no run started. -/
structure Calm (s t : State) : Prop where
  depth : t.depth = s.depth
  maxDepth : t.stats.maxDepth = s.stats.maxDepth
  peakStack : t.stats.peakStack = s.stats.peakStack
  size : t.memory.size = s.memory.size
  started : t.started = s.started

namespace Calm

theorem refl (s : State) : Calm s s :=
  ⟨rfl, rfl, rfl, rfl, rfl⟩

theorem trans {s t u : State} (h : Calm s t) (h' : Calm t u) : Calm s u :=
  ⟨h'.depth.trans h.depth, h'.maxDepth.trans h.maxDepth, h'.peakStack.trans h.peakStack,
    h'.size.trans h.size, h'.started.trans h.started⟩

end Calm

/-- A computation that is calm, however it ends. -/
def Quiescent (x : Exec α) : Prop :=
  ∀ s, Calm s (final (x s))

namespace Quiescent

theorem pure (a : α) : Quiescent (Pure.pure a : Exec α) :=
  fun s => Calm.refl s

theorem bind {x : Exec α} {f : α → Exec β} (hx : Quiescent x) (hf : ∀ a, Quiescent (f a)) :
    Quiescent (x >>= f) := by
  intro s
  have hs := hx s
  cases h : x s with
  | ok a t =>
    rw [h] at hs
    rw [bind_of_ok h]
    exact hs.trans (hf a t)
  | error e t =>
    rw [h] at hs
    rw [bind_of_error h]
    exact hs

theorem fault (c : FaultCause) : Quiescent (fault c : Exec α) :=
  fun _ => ⟨rfl, rfl, rfl, rfl, rfl⟩

theorem defect (d : Defect) : Quiescent (defect d : Exec α) :=
  fun s => Calm.refl s

/-- Operations are calm. -/
theorem of_plain {x : Exec α} (h : Plain x) : Quiescent x :=
  Pervasive.basic (C := Quiescent) {
    pure := pure
    bind := bind
    defect := defect
    fault := fun _ => fault _
    look := fun _ s => Calm.refl s
    put := fun _ _ _ => by constructor <;> simp only [put, final, Memory.size_writeWord]
    print := fun _ _ => ⟨rfl, rfl, rfl, rfl, rfl⟩
    countCall := fun _ => ⟨rfl, rfl, rfl, rfl, rfl⟩ } h

theorem get : Quiescent (MonadState.get : Exec State) :=
  fun s => Calm.refl s

theorem readTemp (t : Temp) : Quiescent (readTemp t) := by
  intro s
  unfold Exec.readTemp
  split <;> exact Calm.refl s

theorem writeTemp (t : Temp) (w : Word) : Quiescent (writeTemp t w) :=
  fun _ => ⟨rfl, rfl, rfl, rfl, rfl⟩

theorem location : Quiescent location :=
  fun s => Calm.refl s

theorem setLocation (l : Location) : Quiescent (setLocation l) :=
  fun _ => ⟨rfl, rfl, rfl, rfl, rfl⟩

theorem fill (frame : Frame) (base link : Word) (args : List Word) :
    Quiescent (fill frame base link args) :=
  (of_plain (.store _ _)).bind fun _ => (of_plain (.storeAll _ _)).bind fun _ =>
    get.bind fun _ => of_plain (.store _ _)

theorem start (setup : Setup) (pc : Nat) (stmt : Stmt) : Quiescent (start setup pc stmt) := by
  intro s
  unfold Exec.start
  dsimp only
  split <;> exact ⟨rfl, rfl, rfl, rfl, rfl⟩

theorem outOfFuel : Quiescent (throw .outOfFuel : Exec α) :=
  fun s => Calm.refl s

end Quiescent

/-- A relation between computations of two machines for the same program, which holds
between a calm step and itself and passes through sequencing and invocation. -/
structure Accord (setup setup' : Setup) where
  rel : ∀ {α : Type}, Exec α → Exec α → Prop
  program : setup.program = setup'.program
  traced : setup.traced = setup'.traced
  quiescent : ∀ {α : Type} {x : Exec α}, Quiescent x → rel x x
  bind : ∀ {α β : Type} {x y : Exec α} {f g : α → Exec β},
    rel x y → (∀ a, rel (f a) (g a)) → rel (x >>= f) (y >>= g)
  invoke : ∀ {run run' : Block → Exec Unit}, (∀ b, rel (run b) (run' b)) →
    ∀ (f : Function) (link : Word) (args : List Word),
      rel (invoke setup run f link args) (invoke setup' run' f link args)

namespace Accord

variable {setup setup' : Setup} (A : Accord setup setup') {run run' : Block → Exec Unit}

/-- Evaluation respects an accord. -/
def bond : Bond Unit where
  rel x y := A.rel (x ()) y
  plain h := A.quiescent (.of_plain h)
  readTemp t := A.quiescent (.readTemp t)
  writeTemp t w := A.quiescent (.writeTemp t w)
  bind hx hf := A.bind hx hf
  inner hx he := A.bind (A.quiescent .location) fun _ => A.bind hx fun _ =>
    A.bind (A.quiescent (.setLocation _)) fun _ => he

theorem runs (h : ∀ b, A.rel (run b) (run' b)) :
    A.bond.Runs (fun _ => setup) setup' (fun _ => run) run' :=
  A.bond.runs (fun _ => A.program) h (A.quiescent .get) (A.invoke h)

/-- Blocks in accord, by induction on the fuel. -/
theorem block (fuel : Nat) : ∀ (b : Block) (pc : Nat),
    A.rel (block setup fuel b pc) (Exec.block setup' fuel b pc) := by
  induction fuel with
  | zero =>
    intro b pc
    exact A.quiescent .outOfFuel
  | succ fuel ih =>
    intro b pc
    unfold Exec.block
    cases b[pc]? with
    | none => exact A.quiescent (.pure ())
    | some stmt =>
      have hstart : start setup' pc stmt = start setup pc stmt := by
        unfold Exec.start
        rw [A.traced]
      dsimp only
      rw [hstart]
      apply A.bind (A.quiescent (.start setup pc stmt))
      intro _
      exact A.bind ((A.runs fun inner => ih inner 0).step b pc stmt) fun next => ih b next

/-- Whole runs in accord. -/
theorem enter (fuel : Nat) (name : String) (arg : Word) :
    A.rel (Machine.enter setup fuel name arg) (Machine.enter setup' fuel name arg) := by
  unfold Machine.enter
  rw [← A.program]
  cases setup.program.lookup? name with
  | none => exact A.quiescent (.fault _)
  | some f => exact A.invoke (fun b => A.block fuel b 0) f 0 [arg]

end Accord

end TreeCode.Exec
