/-
# Operations of the machine

Execution is put together by sequencing from a few operations and from calls. A computation
is `Basic` if it is made of operations on memory, output and counters alone; what holds of
these operations and passes through sequencing holds of operators, built-in functions, static
links and jumps.

A `Bond` is a relation between computations that evaluation respects. It is made to compare
two ways of running blocks; a property of the computations of one machine is a bond that does
not look at the other side.
-/

import TreeCode.Machine.Run

namespace TreeCode

open IR (Expr Op Stmt)

/-- Whether a fault comes up in the course of a run, and not for want of a function to start
with. -/
def FaultCause.arises : FaultCause → Prop
  | noEntry _ => False
  | _ => True

namespace Exec

/-- A computation that is made of operations on memory, output and counters. Its faults have
causes in `F`. -/
inductive Basic (F : FaultCause → Prop) : {α : Type} → Exec α → Prop
  | pure {α : Type} (a : α) : Basic F (pure a : Exec α)
  | bind {α β : Type} {x : Exec α} {f : α → Exec β} : Basic F x → (∀ a, Basic F (f a)) →
      Basic F (x >>= f)
  | defect {α : Type} (d : Defect) : Basic F (defect d : Exec α)
  | fault {α : Type} {c : FaultCause} : F c → Basic F (fault c : Exec α)
  | load (addr : Word) : F (.load addr) → Basic F (load addr)
  | store (addr value : Word) : F (.store addr) → Basic F (store addr value)
  | loadString (addr : Word) : F (.stringAt addr) → F (.unterminatedString addr) →
      Basic F (loadString addr)
  | reserve (setup : Setup) (frame : Frame) (count : Nat) :
      F (.depthLimit setup.maxDepth frame.label.name) →
      F (.frameTooLarge frame.label.name frame.size) → Basic F (reserve setup frame count)
  | print (bytes : List UInt8) : Basic F (print bytes)
  | countCall : Basic F countCall

namespace Basic

variable {F : FaultCause → Prop}

theorem unary (op : Op) (x : Word) : Basic F (unary op x) := by
  cases op <;> first | exact pure _ | exact defect _

theorem binary {op : Op} {x : Word} (h : op = .div ∨ op = .mod → F (.zeroDivisor x op))
    (y : Word) : Basic F (binary op x y) := by
  cases op <;> simp only [Exec.binary] <;> try exact pure _
  case div => split <;> first | exact fault (h (.inl rfl)) | exact pure _
  case mod => split <;> first | exact fault (h (.inr rfl)) | exact pure _
  all_goals exact defect _

theorem target {b : Block} {l : Label} (h : b.position? l = none → F (.noTarget l.name)) :
    Basic F (target b l) := by
  unfold Exec.target
  cases hl : b.position? l with
  | some pc => exact pure pc
  | none => exact fault (h hl)

variable (hF : ∀ c : FaultCause, c.kind = .badAddress → F c)

include hF

theorem storeAll (base : Word) : ∀ slots, Basic F (storeAll base slots)
  | [] => pure ()
  | (_, _) :: rest => bind (store _ _ (hF _ rfl)) fun _ => storeAll base rest

theorem followLinks : ∀ (n : Nat) (fp : Word), Basic F (followLinks n fp)
  | 0, _ => pure _
  | n + 1, _ => bind (load _ (hF _ rfl)) fun _ => followLinks n _

theorem builtin (b : Builtin) (args : List Word) : Basic F (b.apply args) := by
  cases b with
  | putInt =>
    cases args with
    | nil => exact defect _
    | cons n rest => exact bind (print _) fun _ => pure _
  | putStr =>
    cases args with
    | nil => exact defect _
    | cons addr rest =>
      exact bind (loadString _ (hF _ rfl) (hF _ rfl)) fun _ => bind (print _) fun _ => pure _
  | putNl => cases args <;> exact bind (print _) fun _ => pure _

end Basic

/-- What memory, the stack pointer and the depth of calls tell. -/
def look {α : Type} (g : Memory → Word → Nat → α) : Exec α := fun s =>
  .ok (g s.memory s.sp s.depth) s

theorem look_bind {α β : Type} (g : Memory → Word → Nat → α) (f : α → Exec β) (s : State) :
    (look g >>= f) s = f (g s.memory s.sp s.depth) s :=
  rfl

/-- Put a word into memory. -/
def put (addr value : Word) : Exec Unit := fun s =>
  .ok () { s with memory := s.memory.writeWord addr value }

/-- A property of computations that passes through sequencing and holds of the parts that
operations are made of. -/
structure Pervasive (F : FaultCause → Prop) (C : ∀ {α : Type}, Exec α → Prop) : Prop where
  pure : ∀ {α : Type} (a : α), C (pure a)
  bind : ∀ {α β : Type} {x : Exec α} {f : α → Exec β}, C x → (∀ a, C (f a)) → C (x >>= f)
  defect : ∀ {α : Type} (d : Defect), C (defect d : Exec α)
  fault : ∀ {α : Type} {c : FaultCause}, F c → C (fault c : Exec α)
  look : ∀ {α : Type} (g : Memory → Word → Nat → α), C (look g)
  put : ∀ addr value, C (put addr value)
  print : ∀ bytes, C (print bytes)
  countCall : C countCall

namespace Pervasive

variable {F : FaultCause → Prop} {C : ∀ {α : Type}, Exec α → Prop} (h : Pervasive F C) {α : Type}
include h

/-- A choice by what memory, the stack pointer and the depth of calls tell. -/
theorem choice (p : Memory → Word → Nat → Prop) [∀ m w d, Decidable (p m w d)] {x y : Exec α}
    (hx : C x) (hy : C y) : C fun s => if p s.memory s.sp s.depth then x s else y s := by
  have hchoice : (fun s => if p s.memory s.sp s.depth then x s else y s) =
      Exec.look (fun m w d => decide (p m w d)) >>= fun b => if b then x else y := by
    funext s
    rw [look_bind]
    by_cases hp : p s.memory s.sp s.depth <;> simp [hp]
  rw [hchoice]
  exact h.bind (h.look _) fun b => by cases b <;> assumption

theorem loadString {addr : Word} (hF : F (.stringAt addr)) (hF' : F (.unterminatedString addr)) :
    C (loadString addr) := by
  have hstring : Exec.loadString addr = fun s =>
      if (0 ≤ addr.toInt && addr.toInt < s.memory.size) = true then
        (Exec.look (fun m _ _ => m.stringFrom? addr.toInt.toNat) >>= fun found =>
          found.elim (Exec.fault (.unterminatedString addr)) Pure.pure) s
      else Exec.fault (.stringAt addr) s := by
    funext s
    unfold Exec.loadString
    split
    · rw [look_bind]
      cases s.memory.stringFrom? addr.toInt.toNat <;> rfl
    · rfl
  rw [hstring]
  refine h.choice (fun m _ _ => (0 ≤ addr.toInt && addr.toInt < m.size) = true)
    (h.bind (h.look _) fun found => ?_) (h.fault hF)
  cases found with
  | none => exact h.fault hF'
  | some bytes => exact h.pure bytes

/-- Operations have every such property. -/
theorem basic {x : Exec α} (hx : Basic F x) : C x := by
  induction hx with
  | pure a => exact h.pure a
  | bind _ _ hx hf => exact h.bind hx hf
  | defect d => exact h.defect d
  | fault hF => exact h.fault hF
  | load addr hF =>
    exact h.choice (fun m _ _ => m.holdsWord addr = true) (h.look fun m _ _ => m.readWord addr)
      (h.fault hF)
  | store addr _ hF =>
    exact h.choice (fun m _ _ => m.holdsWord addr = true) (h.put _ _) (h.fault hF)
  | loadString _ hF hF' => exact h.loadString hF hF'
  | reserve setup frame count hF hF' =>
    exact h.choice (fun _ _ depth => (depth : Int) ≥ setup.maxDepth) (h.fault hF)
      (h.choice (fun _ sp _ => sp - frame.size < setup.program.dataSize) (h.fault hF')
        (h.choice (fun _ _ _ => count ≠ frame.params.length) (h.defect _)
          (h.look fun _ sp _ => sp - frame.size)))
  | print bytes => exact h.print bytes
  | countCall => exact h.countCall

end Pervasive

/-- Operations with any fault that comes up in the course of a run. -/
abbrev Plain {α : Type} (x : Exec α) : Prop :=
  Basic FaultCause.arises x

namespace Plain

theorem load (addr : Word) : Plain (load addr) :=
  Basic.load addr trivial

theorem store (addr value : Word) : Plain (store addr value) :=
  Basic.store addr value trivial

theorem reserve (setup : Setup) (frame : Frame) (count : Nat) :
    Plain (reserve setup frame count) :=
  Basic.reserve setup frame count trivial trivial

theorem binary (op : Op) (x y : Word) : Plain (binary op x y) :=
  Basic.binary (fun _ => trivial) y

theorem target (b : Block) (l : Label) : Plain (target b l) :=
  Basic.target fun _ => trivial

theorem arises_of_badAddress (c : FaultCause) (h : c.kind = .badAddress) : c.arises := by
  cases c <;> trivial

theorem storeAll (base : Word) (slots : List (Word × Word)) : Plain (storeAll base slots) :=
  Basic.storeAll arises_of_badAddress base slots

theorem followLinks (n : Nat) (fp : Word) : Plain (followLinks n fp) :=
  Basic.followLinks arises_of_badAddress n fp

theorem builtin (b : Builtin) (args : List Word) : Plain (b.apply args) :=
  Basic.builtin arises_of_badAddress b args

end Plain

/-- A relation between computations that depend on an index and computations that do not. It
holds of operations, and it passes through sequencing and through blocks inside expressions. -/
structure Bond (ι : Type) where
  rel : ∀ {α : Type}, (ι → Exec α) → Exec α → Prop
  plain : ∀ {α : Type} {x : Exec α}, Plain x → rel (fun _ => x) x
  readTemp : ∀ t, rel (fun _ => readTemp t) (readTemp t)
  writeTemp : ∀ t w, rel (fun _ => writeTemp t w) (writeTemp t w)
  bind : ∀ {α β : Type} {x : ι → Exec α} {y : Exec α} {f : ι → α → Exec β} {g : α → Exec β},
    rel x y → (∀ a, rel (fun i => f i a) (g a)) → rel (fun i => x i >>= f i) (y >>= g)
  inner : ∀ {x : ι → Exec Unit} {y : Exec Unit} {e : ι → Exec Word} {e' : Exec Word},
    rel x y → rel e e' →
      rel (fun i => location >>= fun l => x i >>= fun _ => setLocation l >>= fun _ => e i)
        (location >>= fun l => y >>= fun _ => setLocation l >>= fun _ => e')

namespace Bond

variable {ι : Type} (B : Bond ι) {setup : ι → Setup} {setup' : Setup}
  {run : ι → Block → Exec Unit} {run' : Block → Exec Unit}

/-- The two sides run the same program, blocks and calls in step. -/
structure Runs (setup : ι → Setup) (setup' : Setup) (run : ι → Block → Exec Unit)
    (run' : Block → Exec Unit) : Prop where
  program : ∀ i, (setup i).program = setup'.program
  block : ∀ b, B.rel (fun i => run i b) (run' b)
  call : ∀ l args, B.rel (fun i => call (setup i) (run i) l args) (call setup' run' l args)

/-- Calls are in step if invocations are. -/
theorem runs (program : ∀ i, (setup i).program = setup'.program)
    (block : ∀ b, B.rel (fun i => run i b) (run' b)) (get : B.rel (fun _ => get) get)
    (invoke : ∀ f link args, B.rel (fun i => invoke (setup i) (run i) f link args)
      (invoke setup' run' f link args)) : B.Runs setup setup' run run' := by
  refine ⟨program, block, fun l args => ?_⟩
  simp only [Exec.call, program]
  cases setup'.program.function? l with
  | some f =>
    cases args with
    | nil => exact B.plain (.defect _)
    | cons hops args =>
      exact B.bind get fun _ => B.bind (B.plain (.followLinks _ _)) fun _ =>
        invoke f _ args
  | none =>
    cases Builtin.ofName? l.name with
    | none => exact B.plain (.fault trivial)
    | some b =>
      refine B.bind (B.plain .countCall) fun _ => ?_
      cases args with
      | nil => exact B.plain (.defect _)
      | cons _ args => exact B.plain (.builtin b args)

variable {B}

mutual

/-- Evaluation in step, by the structure of the expression. -/
theorem Runs.eval (h : B.Runs setup setup' run run') :
    ∀ e, B.rel (fun i => eval (setup i) (run i) e) (eval setup' run' e)
  | .const _ => B.plain (.pure _)
  | .name l => by
    simp only [Exec.eval, h.program]
    cases setup'.program.address? l with
    | some _ => exact B.plain (.pure _)
    | none => exact B.plain (.fault trivial)
  | .temp t => B.readTemp t
  | .mem a => B.bind (h.eval a) fun _ => B.plain (.load _)
  | .binop _ x y =>
    B.bind (h.eval x) fun _ => B.bind (h.eval y) fun _ => B.plain (.binary _ _ _)
  | .unop _ x => B.bind (h.eval x) fun _ => B.plain (.unary _ _)
  | .call f args => B.bind (h.evalAll args) fun vs => h.call f vs
  | .eseq s e => B.inner (h.block (.ofStmt s)) (h.eval e)

theorem Runs.evalAll (h : B.Runs setup setup' run run') :
    ∀ es, B.rel (fun i => evalAll (setup i) (run i) es) (evalAll setup' run' es)
  | [] => B.plain (.pure _)
  | e :: es => B.bind (h.eval e) fun _ => B.bind (h.evalAll es) fun _ => B.plain (.pure _)

end

theorem Runs.move (h : B.Runs setup setup' run run') (d e : Expr) :
    B.rel (fun i => move (setup i) (run i) d e) (move setup' run' d e) := by
  cases d with
  | temp t =>
    by_cases ht : t = Temp.fp
    · simp only [Exec.move, if_pos ht]
      exact B.plain (.defect _)
    · simp only [Exec.move, if_neg ht]
      exact B.bind (h.eval e) fun _ => B.writeTemp t _
  | mem a =>
    exact B.bind (h.eval a) fun _ => B.bind (h.eval e) fun _ => B.plain (.store _ _)
  | _ => exact B.plain (.defect _)

theorem Runs.step (h : B.Runs setup setup' run run') (b : Block) (pc : Nat) (stmt : Stmt) :
    B.rel (fun i => step (setup i) (run i) b pc stmt) (step setup' run' b pc stmt) := by
  have htarget : ∀ l, B.rel (fun _ => target b l) (target b l) :=
    fun _ => B.plain (.target _ _)
  cases stmt with
  | label _ => exact B.plain (.pure _)
  | jump l => exact htarget l
  | cjump c _ _ => exact B.bind (h.eval c) fun _ => htarget _
  | move d e => exact B.bind (h.move d e) fun _ => B.plain (.pure _)
  | exp e => exact B.bind (h.eval e) fun _ => B.plain (.pure _)
  | seq _ | absent => exact B.plain (.defect _)

end Bond

end Exec

end TreeCode
