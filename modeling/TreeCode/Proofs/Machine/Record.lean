/-
# Recorded runs

A recorded run does what a run does and keeps a record besides. The record has the states
of the machine before and after each of its operations, the bytes that an access to memory
touched, the addresses at which an access failed, and the frames that were entered. All
accesses are recorded: those of the code, and those that the machine makes to follow links,
to set up a frame, to leave it and to print a string.

Recorded computations are made of operations of the machine and of nothing else. A `Reading`
is a relation between recorded computations and those of the machine that follows this
structure, so that the induction over code and fuel is made here once. Two readings follow.
Taking the record away leaves the run of the machine, and a run has nothing to do with bytes
of memory that its record does not list.
-/

import TreeCode.Proofs.Machine.Access
import TreeCode.Proofs.Machine.Behaviour

namespace TreeCode

open IR (Expr Stmt)

/-- An entry of the record of a run. -/
inductive Note where
  /-- The machine was in a state. -/
  | point (s : State)
  /-- A frame was entered. -/
  | frame (base : Word)
  /-- So many bytes were read or written from an address on. -/
  | touched (addr : Word) (count : Nat)
  /-- An access to so many bytes from an address on failed. -/
  | missed (addr : Word) (count : Nat)

namespace Note

/-- An entry for an access covers the bytes that the access has to do with. -/
def Covers (i : Nat) : Note → Prop
  | touched addr count => addr.Reaches count i
  | missed addr count => addr.Reaches count i
  | _ => False

/-- A byte that an entry of a record covers. -/
def Listed (record : List Note) (i : Nat) : Prop :=
  ∃ n ∈ record, n.Covers i

theorem Listed.mono {record record' : List Note} {i : Nat} (h : Listed record i)
    (hsub : record ⊆ record') : Listed record' i := by
  obtain ⟨n, hn, hcovers⟩ := h
  exact ⟨n, hsub hn, hcovers⟩

end Note

/-- The state of a machine and the record of what it did, the last entry first. -/
structure Tape where
  state : State
  record : List Note

/-- A computation of the machine that keeps a record. -/
abbrev Recorded := EStateM Stop Tape

namespace Recorded

variable {α β : Type}

/-- Make an entry. -/
def note (n : Note) : Recorded Unit := fun t =>
  .ok () { t with record := n :: t.record }

/-- An operation of the machine, with the states before and after it. -/
def lift (x : Exec α) : Recorded α := fun t =>
  match x t.state with
  | .ok a s => .ok a ⟨s, .point s :: .point t.state :: t.record⟩
  | .error e s => .error e ⟨s, .point s :: .point t.state :: t.record⟩

/-- An access to some bytes of memory from an address on. -/
def access (addr : Word) (count : Memory → Nat) (x : Exec α) : Recorded α := fun t =>
  match lift x t with
  | .ok a t' => .ok a { t' with record := .touched addr (count t.state.memory) :: t'.record }
  | .error e t' =>
    .error e { t' with record := .missed addr (count t.state.memory) :: t'.record }

/-- Read the word at an address. -/
def load (addr : Word) : Recorded Word :=
  access addr (fun _ => Word.byteSize) (Exec.load addr)

/-- Write a word at an address. -/
def store (addr value : Word) : Recorded Unit :=
  access addr (fun _ => Word.byteSize) (Exec.store addr value)

/-- The bytes of the string at an address. -/
def loadString (addr : Word) : Recorded (List UInt8) :=
  access addr (Memory.stringReach addr) (Exec.loadString addr)

/-- Write words at offsets from an address, in order. -/
def storeAll (base : Word) : List (Word × Word) → Recorded Unit
  | [] => pure ()
  | (offset, value) :: rest => do
    store (base + offset) value
    storeAll base rest

/-- Follow a number of static links from a frame. -/
def followLinks : Nat → Word → Recorded Word
  | 0, fp => pure fp
  | n + 1, fp => do
    let next ← load fp
    followLinks n next

/-- Write the static link, the arguments and the caller's frame pointer into a new
frame. -/
def fill (frame : Frame) (base link : Word) (args : List Word) : Recorded Unit := do
  store base link
  storeAll base (frame.params.zip args)
  let fp ← lift (Exec.read State.fp)
  store (base + frame.linkOffset) fp

/-- Make a frame the running one. -/
def enterFrame (setup : Setup) (frame : Frame) (base : Word) : Recorded Unit := do
  note (.frame base)
  lift (Exec.enter setup frame base)

/-- Leave the running frame for that of the caller. -/
def leave (frame : Frame) (caller : Activation) (location : Location) : Recorded Word := do
  let fp ← lift (Exec.read State.fp)
  let saved ← load (fp + frame.linkOffset)
  lift (Exec.resume frame caller location saved)

/-- The effect of a built-in function on its arguments. -/
def builtin : Builtin → List Word → Recorded Word
  | .putStr, addr :: _ => do
    let bytes ← loadString addr
    lift (Exec.print bytes)
    return 0
  | b, args => lift (b.apply args)

section Interpreter

variable (setup : Setup) (run : Block → Recorded Unit)

/-- Run a function in a new frame. -/
def invoke (f : Function) (link : Word) (args : List Word) : Recorded Word := do
  let base ← lift (Exec.reserve setup f.frame args.length)
  fill f.frame base link args
  let caller ← lift (Exec.read State.activation)
  let location ← lift (Exec.read State.location)
  enterFrame setup f.frame base
  run f.body
  leave f.frame caller location

/-- Call the function at a label. -/
def call (l : Label) (args : List Word) : Recorded Word :=
  match setup.program.function? l with
  | some f =>
    match args with
    | [] => lift (Exec.defect .missingArgument)
    | hops :: args => do
      let fp ← lift (Exec.read State.fp)
      let link ← followLinks hops.toInt.toNat fp
      invoke setup run f link args
  | none =>
    match Builtin.ofName? l.name with
    | some b => do
      lift Exec.countCall
      match args with
      | [] => lift (Exec.defect .missingArgument)
      | _ :: args => builtin b args
    | none => lift (Exec.fault (.noFunction l.name))

mutual

/-- The value of an expression. -/
def eval : Expr → Recorded Word
  | .const n => pure n
  | .name l =>
    lift (match setup.program.address? l with
      | some addr => pure addr
      | none => Exec.fault (.noData l.name))
  | .temp t => lift (Exec.readTemp t)
  | .mem a => do
    let addr ← eval a
    load addr
  | .binop op x y => do
    let x ← eval x
    let y ← eval y
    lift (Exec.binary op x y)
  | .unop op x => do
    let x ← eval x
    lift (Exec.unary op x)
  | .call f args => do
    let args ← evalAll args
    call setup run f args
  | .eseq s e => do
    let l ← lift Exec.location
    run (.ofStmt s)
    lift (Exec.setLocation l)
    eval e

/-- The values of a list of expressions, from left to right. -/
def evalAll : List Expr → Recorded (List Word)
  | [] => pure []
  | e :: es => do
    let v ← eval e
    let vs ← evalAll es
    return v :: vs

end

/-- Move a value into a temp or into memory. -/
def move (target source : Expr) : Recorded Unit :=
  match target with
  | .temp t =>
    if t = Temp.fp then lift (Exec.defect .moveIntoFramePointer)
    else do
      let value ← eval setup run source
      lift (Exec.writeTemp t value)
  | .mem a => do
    let addr ← eval setup run a
    let value ← eval setup run source
    store addr value
  | target => lift (Exec.defect (.moveInto (Exec.targetName target)))

/-- Execute the instruction at a position of a block. -/
def step (b : Block) (pc : Nat) : Stmt → Recorded Nat
  | .label _ => pure (pc + 1)
  | .jump l => lift (Exec.target b l)
  | .cjump c t f => do
    let v ← eval setup run c
    lift (Exec.target b (if v = 0 then f else t))
  | .move d s => do
    move setup run d s
    return pc + 1
  | .exp e => do
    let _ ← eval setup run e
    return pc + 1
  | .seq _ => lift (Exec.defect (.nestedSequence "*ir.Seq"))
  | .absent => lift (Exec.defect (.nestedSequence "<nil>"))

end Interpreter

/-- Execute a block from a position on, until control falls off its end. -/
def block (setup : Setup) : Nat → Block → Nat → Recorded Unit
  | 0, _, _ => lift (throw .outOfFuel)
  | fuel + 1, b, pc =>
    match b[pc]? with
    | none => pure ()
    | some stmt => do
      lift (Exec.start setup pc stmt)
      let next ← step setup (fun inner => block setup fuel inner 0) b pc stmt
      block setup fuel b next

/-- Call the function of a name with one argument. -/
def enter (setup : Setup) (fuel : Nat) (name : String) (arg : Word) : Recorded Word :=
  match setup.program.lookup? name with
  | none => lift (Exec.fault (.noEntry name))
  | some f => invoke setup (fun b => block setup fuel b 0) f 0 [arg]

/-- An outcome without the record. -/
def erase : EStateM.Result Stop Tape α → EStateM.Result Stop State α
  | .ok a t => .ok a t.state
  | .error e t => .error e t.state

/-- The machine and the record at the end. -/
def tape : EStateM.Result Stop Tape α → Tape
  | .ok _ t => t
  | .error _ t => t

end Recorded

/-- The recorded run of a machine. -/
def Machine.recorded (m : Machine) (fuel : Nat) (name : String) (arg : Word) :
    EStateM.Result Stop Tape Word :=
  Recorded.enter m.setup fuel name arg ⟨m.startState, []⟩

/-- A relation between recorded computations and those of a machine. It holds between an
operation and its recorded form, and between an access and its recorded form, and it passes
through sequencing. -/
structure Recorded.Basis where
  rel : ∀ {α : Type}, Recorded α → Exec α → Prop
  pure : ∀ {α : Type} (a : α), rel (Pure.pure a) (Pure.pure a)
  bind : ∀ {α β : Type} {x : Recorded α} {y : Exec α} {f : α → Recorded β} {g : α → Exec β},
    rel x y → (∀ a, rel (f a) (g a)) → rel (x >>= f) (y >>= g)
  lift : ∀ {α : Type} {x : Exec α}, Exec.Internal x → rel (Recorded.lift x) x
  access : ∀ {α : Type} {addr : Word} {count : Memory → Nat} {x : Exec α},
    Exec.Access addr count x → rel (Recorded.access addr count x) x

namespace Recorded.Basis

variable (A : Basis)

theorem storeAll (base : Word) : ∀ slots,
    A.rel (Recorded.storeAll base slots) (Exec.storeAll base slots)
  | [] => A.pure ()
  | (_, _) :: rest => A.bind (A.access (.store _ _)) fun _ => storeAll base rest

theorem followLinks : ∀ (n : Nat) (fp : Word),
    A.rel (Recorded.followLinks n fp) (Exec.followLinks n fp)
  | 0, fp => A.pure fp
  | n + 1, _ => A.bind (A.access (.load _)) fun _ => followLinks n _

theorem fill (frame : Frame) (base link : Word) (args : List Word) :
    A.rel (Recorded.fill frame base link args) (Exec.fill frame base link args) := by
  apply A.bind (A.access (.store base link))
  intro _
  apply A.bind (A.storeAll base _)
  intro _
  show A.rel _ (Exec.read State.fp >>= fun fp => Exec.store (base + frame.linkOffset) fp)
  exact A.bind (A.lift (.read fun _ _ => rfl)) fun fp => A.access (.store _ fp)

theorem builtin (b : Builtin) (args : List Word) :
    A.rel (Recorded.builtin b args) (b.apply args) := by
  cases b with
  | putInt =>
    cases args with
    | nil => exact A.lift (.defect _)
    | cons n rest => exact A.lift ((Exec.Internal.print _).bind fun _ => .pure _)
  | putStr =>
    cases args with
    | nil => exact A.lift (.defect _)
    | cons addr rest =>
      apply A.bind (A.access (.loadString addr))
      intro bytes
      exact A.bind (A.lift (.print bytes)) fun _ => A.pure _
  | putNl => cases args <;> exact A.lift ((Exec.Internal.print _).bind fun _ => .pure _)

end Recorded.Basis

/-- A relation between recorded computations and those of a machine that also passes through
invocation. -/
structure Recorded.Reading (setup : Setup) extends Recorded.Basis where
  invoke : ∀ {run : Block → Recorded Unit} {run' : Block → Exec Unit},
    (∀ b, rel (run b) (run' b)) → ∀ (f : Function) (link : Word) (args : List Word),
      rel (Recorded.invoke setup run f link args) (Exec.invoke setup run' f link args)

/-- If entering and leaving frames is like any other operation, a relation passes through
invocation. -/
def Recorded.Basis.reading (A : Recorded.Basis) (setup : Setup)
    (lift : ∀ {α : Type} {x : Exec α}, Exec.Blind x → A.rel (Recorded.lift x) x)
    (enterFrame : ∀ frame base,
      A.rel (Recorded.enterFrame setup frame base) (Exec.enter setup frame base)) :
    Recorded.Reading setup where
  toBasis := A
  invoke {run run'} hrun f link args := by
    apply A.bind (A.lift (.reserve setup f.frame args.length))
    intro base
    apply A.bind (A.fill f.frame base link args)
    intro _
    show A.rel _ (Exec.read State.activation >>= fun caller =>
      Exec.read State.location >>= fun location => Exec.enter setup f.frame base >>= fun _ =>
        run' f.body >>= fun _ => Exec.leave f.frame caller location)
    apply A.bind (A.lift (.read fun _ _ => rfl))
    intro caller
    apply A.bind (A.lift (.read fun _ _ => rfl))
    intro location
    apply A.bind (enterFrame f.frame base)
    intro _
    apply A.bind (hrun f.body)
    intro _
    show A.rel _ (Exec.read State.fp >>= fun fp =>
      Exec.load (fp + f.frame.linkOffset) >>= Exec.resume f.frame caller location)
    apply A.bind (A.lift (.read fun _ _ => rfl))
    intro fp
    exact A.bind (A.access (.load _)) fun saved => lift (.resume _ _ _ saved)

namespace Recorded.Reading

variable {setup : Setup} (A : Reading setup) {run : Block → Recorded Unit}
  {run' : Block → Exec Unit} (h : ∀ b, A.rel (run b) (run' b))

section

include h

theorem call (l : Label) (args : List Word) :
    A.rel (Recorded.call setup run l args) (Exec.call setup run' l args) := by
  unfold Recorded.call Exec.call
  cases setup.program.function? l with
  | some f =>
    cases args with
    | nil => exact A.lift (.defect _)
    | cons hops args =>
      show A.rel _ (Exec.read State.fp >>= fun fp =>
        Exec.followLinks hops.toInt.toNat fp >>= fun link =>
          Exec.invoke setup run' f link args)
      apply A.bind (A.lift (.read fun _ _ => rfl))
      intro fp
      exact A.bind (A.followLinks _ fp) fun link => A.invoke h f link args
  | none =>
    cases Builtin.ofName? l.name with
    | none => exact A.lift (.fault _)
    | some b =>
      apply A.bind (A.lift .countCall)
      intro _
      cases args with
      | nil => exact A.lift (.defect _)
      | cons _ args => exact A.builtin b args

-- lists need `h` through their members only
set_option linter.unusedSectionVars false in
mutual

/-- Evaluation, by the structure of the expression. -/
theorem eval : ∀ e : Expr, A.rel (Recorded.eval setup run e) (Exec.eval setup run' e)
  | .const n => A.pure n
  | .name l => by
    apply A.lift
    cases setup.program.address? l with
    | some addr => exact .pure addr
    | none => exact .fault _
  | .temp t => A.lift (.readTemp t)
  | .mem a => A.bind (eval a) fun _ => A.access (.load _)
  | .binop _ x y => A.bind (eval x) fun _ => A.bind (eval y) fun _ => A.lift (.binary _ _ _)
  | .unop _ x => A.bind (eval x) fun _ => A.lift (.unary _ _)
  | .call _ args => A.bind (evalAll args) fun _ => A.call h _ _
  | .eseq s e =>
    A.bind (A.lift .location) fun _ => A.bind (h (.ofStmt s)) fun _ =>
      A.bind (A.lift (.setLocation _)) fun _ => eval e

theorem evalAll : ∀ es : List Expr,
    A.rel (Recorded.evalAll setup run es) (Exec.evalAll setup run' es)
  | [] => A.pure []
  | e :: es => A.bind (eval e) fun _ => A.bind (evalAll es) fun _ => A.pure _

end

theorem move (d e : Expr) :
    A.rel (Recorded.move setup run d e) (Exec.move setup run' d e) := by
  cases d with
  | temp t =>
    by_cases ht : t = Temp.fp
    · simp only [Recorded.move, Exec.move, if_pos ht]
      exact A.lift (.defect _)
    · simp only [Recorded.move, Exec.move, if_neg ht]
      exact A.bind (A.eval h e) fun _ => A.lift (.writeTemp _ _)
  | mem a =>
    exact A.bind (A.eval h a) fun _ => A.bind (A.eval h e) fun _ => A.access (.store _ _)
  | _ => exact A.lift (.defect _)

theorem step (b : Block) (pc : Nat) (stmt : Stmt) :
    A.rel (Recorded.step setup run b pc stmt) (Exec.step setup run' b pc stmt) := by
  cases stmt with
  | label _ => exact A.pure _
  | jump _ => exact A.lift (.target _ _)
  | cjump c _ _ => exact A.bind (A.eval h c) fun _ => A.lift (.target _ _)
  | move d e => exact A.bind (A.move h d e) fun _ => A.pure _
  | exp e => exact A.bind (A.eval h e) fun _ => A.pure _
  | seq _ | absent => exact A.lift (.defect _)

end

/-- Blocks, by induction on the fuel. -/
theorem block (fuel : Nat) : ∀ (b : Block) (pc : Nat),
    A.rel (Recorded.block setup fuel b pc) (Exec.block setup fuel b pc) := by
  induction fuel with
  | zero => exact fun _ _ => A.lift .outOfFuel
  | succ fuel ih =>
    intro b pc
    unfold Recorded.block Exec.block
    cases b[pc]? with
    | none => exact A.pure ()
    | some stmt =>
      apply A.bind (A.lift (.start setup pc stmt))
      intro _
      exact A.bind (A.step (fun inner => ih inner 0) b pc stmt) fun next => ih b next

/-- Whole runs. -/
theorem enter (fuel : Nat) (name : String) (arg : Word) :
    A.rel (Recorded.enter setup fuel name arg) (Machine.enter setup fuel name arg) := by
  unfold Recorded.enter Machine.enter
  cases setup.program.lookup? name with
  | none => exact A.lift (.fault _)
  | some f => exact A.invoke (fun b => A.block fuel b 0) f 0 [arg]

end Recorded.Reading

namespace Recorded

variable {α β : Type}

variable {x : Recorded α} (setup : Setup) (fuel : Nat) {f : α → Recorded β} (name : String)
  {t : Tape} (arg : Word) {t' : Tape}

theorem bind_of_ok {a : α} (h : x t = .ok a t') : (x >>= f) t = f a t' := by
  change EStateM.bind x f t = f a t'
  simp only [EStateM.bind, h]

theorem bind_of_error {e : Stop} (h : x t = .error e t') : (x >>= f) t = .error e t' := by
  change EStateM.bind x f t = .error e t'
  simp only [EStateM.bind, h]

/-- A recorded computation that does what a computation does. -/
def Erases (x : Recorded α) (y : Exec α) : Prop :=
  ∀ t, erase (x t) = y t.state

namespace Erases

theorem bind {x : Recorded α} {y : Exec α} {f : α → Recorded β} {g : α → Exec β}
    (hx : Erases x y) (hf : ∀ a, Erases (f a) (g a)) : Erases (x >>= f) (y >>= g) := by
  intro t
  have ht := hx t
  cases h : x t with
  | ok a t' =>
    rw [h] at ht
    rw [bind_of_ok h, Exec.bind_of_ok ht.symm]
    exact hf a t'
  | error e t' =>
    rw [h] at ht
    rw [bind_of_error h, Exec.bind_of_error ht.symm]
    rfl

theorem lift (x : Exec α) : Erases (lift x) x := by
  intro t
  unfold Recorded.lift
  cases x t.state <;> rfl

theorem access (addr : Word) (count : Memory → Nat) (x : Exec α) :
    Erases (access addr count x) x := by
  intro t
  rw [← lift x t]
  unfold Recorded.access
  cases Recorded.lift x t <;> rfl

/-- Taking the record away is a reading. -/
def basis : Basis where
  rel := Erases
  pure _ := fun _ => rfl
  bind := bind
  lift _ := lift _
  access _ := access _ _ _

end Erases

/-- A recorded run is the run of the machine. -/
theorem erases_enter : Erases (enter setup fuel name arg) (Machine.enter setup fuel name arg) :=
  (Erases.basis.reading setup (fun _ => .lift _) fun _ _ _ => rfl).enter fuel name arg

/-- A recorded computation that has nothing to do with bytes its record does not list. -/
structure Local (x : Recorded α) : Prop where
  grows : ∀ t, t.record ⊆ (tape (x t)).record
  /-- It leaves them as they are. -/
  writes : ∀ {t i}, ¬Note.Listed (tape (x t)).record i →
    (tape (x t)).state.memory.byte i = t.state.memory.byte i
  /-- It goes the same way whatever they are. -/
  reads : ∀ {B t u}, (∀ i, Note.Listed (tape (x t)).record i → B i) →
    t.state.AgreeOn B u.state → Exec.SameEnd B (erase (x t)) (erase (x u))

theorem tape_lift (x : Exec α) (t : Tape) :
    tape (lift x t) = ⟨Exec.final (x t.state),
      .point (Exec.final (x t.state)) :: .point t.state :: t.record⟩ := by
  unfold lift
  cases x t.state <;> rfl

/-- An access leaves an entry for its bytes, whether it succeeds or not. -/
theorem tape_access (addr : Word) (count : Memory → Nat) (x : Exec α) (t : Tape) :
    ∃ n, (∀ i, n.Covers i ↔ addr.Reaches (count t.state.memory) i) ∧
      tape (access addr count x t) = ⟨Exec.final (x t.state), n :: (tape (lift x t)).record⟩ := by
  unfold access lift
  cases x t.state with
  | ok a s => exact ⟨.touched addr (count t.state.memory), fun _ => Iff.rfl, rfl⟩
  | error e s => exact ⟨.missed addr (count t.state.memory), fun _ => Iff.rfl, rfl⟩

namespace Local

theorem pure (a : α) : Local (Pure.pure a) where
  grows t := List.Subset.refl t.record
  writes _ := rfl
  reads _ h := .ok a h

theorem bind {x : Recorded α} {f : α → Recorded β} (hx : Local x) (hf : ∀ a, Local (f a)) :
    Local (x >>= f) := by
  -- what is listed half way is listed at the end
  have hgrows : ∀ {t a t'}, x t = .ok a t' → t'.record ⊆ (tape ((x >>= f) t)).record := by
    intro t a t' h
    rw [bind_of_ok h]
    exact (hf a).grows t'
  constructor
  · intro t
    have hfirst := hx.grows t
    cases h : x t with
    | ok a t' =>
      rw [h] at hfirst
      exact List.Subset.trans hfirst (hgrows h)
    | error e t' =>
      rw [h] at hfirst
      rw [bind_of_error h]
      exact hfirst
  · intro t i hi
    have hfirst := hx.writes (t := t) (i := i)
    cases h : x t with
    | ok a t' =>
      have hlisted : ¬Note.Listed t'.record i := fun hl => hi (hl.mono (hgrows h))
      rw [h] at hfirst
      rw [bind_of_ok h] at hi ⊢
      exact ((hf a).writes hi).trans (hfirst hlisted)
    | error e t' =>
      rw [h] at hfirst
      rw [bind_of_error h] at hi ⊢
      exact hfirst hi
  · intro B t u hB hagree
    have hfirst := hx.reads (B := B) (t := t) (u := u)
    cases h : x t with
    | ok a t' =>
      have hlisted : ∀ i, Note.Listed t'.record i → B i := fun i hl => hB i (hl.mono (hgrows h))
      rw [h] at hfirst
      rw [bind_of_ok h] at hB ⊢
      have hsame := hfirst hlisted hagree
      cases hu : x u with
      | ok b u' =>
        rw [hu] at hsame
        rw [bind_of_ok hu]
        cases hsame with
        | ok _ hagree' => exact (hf a).reads hB hagree'
      | error e u' =>
        rw [hu] at hsame
        cases hsame
    | error e t' =>
      rw [h] at hfirst
      rw [bind_of_error h] at hB ⊢
      have hsame := hfirst hB hagree
      cases hu : x u with
      | ok b u' =>
        rw [hu] at hsame
        cases hsame
      | error e' u' =>
        rw [hu] at hsame
        rw [bind_of_error hu]
        cases hsame with
        | error _ hagree' => exact .error e hagree'

theorem lift {x : Exec α} (hx : Exec.Blind x) : Local (lift x) where
  grows t := by
    rw [tape_lift]
    exact fun n hn => .tail _ (.tail _ hn)
  writes {t i} _ := by
    rw [tape_lift, hx.memory_final]
  reads {B t u} _ h := by
    rw [Erases.lift x t, Erases.lift x u]
    exact hx.sameEnd h

theorem access {addr : Word} {count : Memory → Nat} {x : Exec α}
    (hx : Exec.Access addr count x) : Local (access addr count x) where
  grows t := by
    obtain ⟨n, -, htape⟩ := tape_access addr count x t
    rw [htape, tape_lift]
    exact fun n hn => .tail _ (.tail _ (.tail _ hn))
  writes {t i} hi := by
    obtain ⟨n, hcovers, htape⟩ := tape_access addr count x t
    rw [htape] at hi ⊢
    exact hx.writes fun hreaches => hi ⟨n, List.mem_cons_self, (hcovers i).2 hreaches⟩
  reads {B t u} hB h := by
    obtain ⟨n, hcovers, htape⟩ := tape_access addr count x t
    rw [htape] at hB
    rw [Erases.access addr count x t, Erases.access addr count x u]
    apply hx.reads _ h
    intro i hreaches
    exact hB i ⟨n, List.mem_cons_self, (hcovers i).2 hreaches⟩

theorem note (n : Note) : Local (note n) where
  grows _ := List.subset_cons_self _ _
  writes _ := rfl
  reads _ h := .ok () h

/-- Being local is a reading, whatever the computations of the machine are. -/
def basis : Basis where
  rel x _ := Local x
  pure := pure
  bind := bind
  lift hx := lift hx.blind
  access := access

end Local

/-- A recorded run has nothing to do with bytes that its record does not list. -/
theorem local_enter : Local (enter setup fuel name arg) :=
  (Local.basis.reading setup .lift fun frame base =>
    (Local.note (.frame base)).bind fun _ => .lift (.enter setup frame base)).enter fuel name arg

end Recorded

end TreeCode
