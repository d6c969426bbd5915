/-
# Watched runs

A watched run does what a run does and keeps a log besides. The log has the moments at
which an instruction is started or an expression is evaluated, the words that moves
write, and the calls that return. Every entry tells the frames that are live at that
time, the innermost first; the machine itself keeps no list of them.

Taking the log away from a watched run leaves the run of the machine.
-/

import TreeCode.Proofs.Machine.Behaviour

namespace TreeCode

open IR (Expr Stmt)

/-- A frame on the stack: its shape and its lowest address. -/
structure Live where
  frame : Frame
  base : Word

/-- An entry of the log of a run. -/
inductive Event where
  /-- An instruction is started, or an expression is about to be evaluated. -/
  | moment (live : List Live) (s : State)
  /-- A move wrote a word, starting from the given state. -/
  | store (live : List Live) (s : State) (code : Stmt) (addr value : Word)
  /-- A call returned. Moves wrote the words `stores` meanwhile, in this order. -/
  | returned (before after : State) (stores : List (Word × Word))

namespace Event

/-- The word that an entry says was written. -/
def stored? : Event → Option (Word × Word)
  | store _ _ _ addr value => some (addr, value)
  | _ => none

/-- The words that moves wrote according to a log. -/
def stores (log : List Event) : List (Word × Word) :=
  log.filterMap stored?

@[simp]
theorem stores_append (a b : List Event) : stores (a ++ b) = stores a ++ stores b :=
  List.filterMap_append

@[simp]
theorem stores_returned (before after : State) (words : List (Word × Word)) :
    stores [returned before after words] = [] := rfl

end Event

/-- A computation of the machine that yields a log besides its result. -/
def Watched (α : Type) : Type :=
  State → List Event × EStateM.Result Stop State α

namespace Watched

variable {α β : Type}

/-- The computation without its log. -/
def run (x : Watched α) : Exec α := fun s =>
  (x s).2

/-- The log of a computation from a state. -/
def log (x : Watched α) (s : State) : List Event :=
  (x s).1

/-- A computation with nothing worth an entry. -/
def ofExec (x : Exec α) : Watched α := fun s =>
  ([], x s)

/-- Write a word into memory, as a move asks, and make an entry for it. -/
def store (live : List Live) (code : Stmt) (addr value : Word) : Watched Unit := fun s =>
  match Exec.store addr value s with
  | .ok _ s' => ([.store live s code addr value], .ok () s')
  | .error e s' => ([], .error e s')

/-- Make an entry for the moment at which a computation starts. -/
def observed (live : List Live) (x : Watched α) : Watched α := fun s =>
  (.moment live s :: (x s).1, (x s).2)

/-- Make an entry for the return of a call. -/
def recorded (x : Watched α) : Watched α := fun s =>
  match x s with
  | (l, .ok a s') => (l ++ [.returned s s' (Event.stores l)], .ok a s')
  | (l, .error e s') => (l, .error e s')

instance : Monad Watched where
  pure a := ofExec (pure a)
  bind x f := fun s =>
    match x s with
    | (l, .ok a s') => (l ++ (f a s').1, (f a s').2)
    | (l, .error e s') => (l, .error e s')

@[simp]
theorem run_ofExec (x : Exec α) : (ofExec x).run = x := rfl

variable (live : List Live) (x : Watched α)

@[simp]
theorem run_store (code : Stmt) (addr value : Word) :
    (store live code addr value).run = Exec.store addr value := by
  funext s
  cases h : Exec.store addr value s <;> simp [run, store, h]

@[simp]
theorem run_observed : (observed live x).run = x.run := rfl

@[simp]
theorem run_pure (a : α) : (pure a : Watched α).run = pure a := rfl

@[simp]
theorem run_bind (f : α → Watched β) : (x >>= f).run = x.run >>= fun a => (f a).run := by
  funext s
  rcases hx : x s with ⟨l, a | a⟩ <;> simp [run, bind, EStateM.bind, hx]

@[simp]
theorem run_recorded : (recorded x).run = x.run := by
  funext s
  rcases hx : x s with ⟨l, a | a⟩ <;> simp [run, recorded, hx]

section Interpreter

variable (setup : Setup) (runBlock : List Live → Block → Watched Unit)

/-- Run a function in a new frame. -/
def invoke (live : List Live) (f : Function) (link : Word) (args : List Word) : Watched Word :=
  recorded do
    let base ← ofExec (Exec.reserve setup f.frame args.length)
    ofExec (Exec.fill f.frame base link args)
    let s ← ofExec get
    ofExec (Exec.enter setup f.frame base)
    runBlock (⟨f.frame, base⟩ :: live) f.body
    ofExec (Exec.leave f.frame s.activation s.location)

/-- Call the function at a label. A built-in function runs no block. -/
def call (live : List Live) (l : Label) (args : List Word) : Watched Word :=
  match setup.program.function? l, args with
  | some f, hops :: args => do
    let s ← ofExec get
    let link ← ofExec (Exec.followLinks hops.toInt.toNat s.fp)
    invoke setup runBlock live f link args
  | _, args => ofExec (Exec.call setup (fun _ => pure ()) l args)

mutual

/-- The value of an expression. -/
def eval (live : List Live) : Expr → Watched Word
  | .const n => observed live (pure n)
  | .name l =>
    observed live (ofExec (match setup.program.address? l with
      | some addr => pure addr
      | none => Exec.fault (.noData l.name)))
  | .temp t => observed live (ofExec (Exec.readTemp t))
  | .mem a => observed live do
      let addr ← eval live a
      ofExec (Exec.load addr)
  | .binop op x y => observed live do
      let x ← eval live x
      let y ← eval live y
      ofExec (Exec.binary op x y)
  | .unop op x => observed live do
      let x ← eval live x
      ofExec (Exec.unary op x)
  | .call f args => observed live do
      let args ← evalAll live args
      call setup runBlock live f args
  | .eseq s e => observed live do
      let l ← ofExec Exec.location
      runBlock live (.ofStmt s)
      ofExec (Exec.setLocation l)
      eval live e

/-- The values of a list of expressions, from left to right. -/
def evalAll (live : List Live) : List Expr → Watched (List Word)
  | [] => pure []
  | e :: es => do
    let v ← eval live e
    let vs ← evalAll live es
    return v :: vs

end

/-- Move a value into a temp or into memory. -/
def move (live : List Live) (target source : Expr) : Watched Unit :=
  match target with
  | .temp t =>
    if t = Temp.fp then ofExec (Exec.defect .moveIntoFramePointer)
    else do
      let value ← eval setup runBlock live source
      ofExec (Exec.writeTemp t value)
  | .mem a => do
    let addr ← eval setup runBlock live a
    let value ← eval setup runBlock live source
    store live (.move (.mem a) source) addr value
  | target => ofExec (Exec.defect (.moveInto (Exec.targetName target)))

/-- Execute the instruction at a position of a block. -/
def step (live : List Live) (b : Block) (pc : Nat) : Stmt → Watched Nat
  | .cjump c t f => do
    let v ← eval setup runBlock live c
    ofExec (Exec.target b (if v = 0 then f else t))
  | .move d s => do
    move setup runBlock live d s
    return pc + 1
  | .exp e => do
    let _ ← eval setup runBlock live e
    return pc + 1
  | s => ofExec (Exec.step setup (fun _ => pure ()) b pc s)

end Interpreter

/-- Execute a block from a position on, until control falls off its end. -/
def block (setup : Setup) : Nat → List Live → Block → Nat → Watched Unit
  | 0, _, _, _ => ofExec (throw .outOfFuel)
  | fuel + 1, live, b, pc =>
    match b[pc]? with
    | none => pure ()
    | some stmt => do
      ofExec (Exec.start setup pc stmt)
      let next ← observed live
        (step setup (fun live inner => block setup fuel live inner 0) live b pc stmt)
      block setup fuel live b next

/-- Call the function of a name with one argument. -/
def enter (setup : Setup) (fuel : Nat) (name : String) (arg : Word) : Watched Word :=
  match setup.program.lookup? name with
  | none => ofExec (Exec.fault (.noEntry name))
  | some f => invoke setup (fun live b => block setup fuel live b 0) [] f 0 [arg]

section Erasure

variable {setup : Setup} {runBlock : List Live → Block → Watched Unit} {run : Block → Exec Unit}
  (hrun : ∀ live b, (runBlock live b).run = run b)

include hrun

theorem run_invoke (live : List Live) (f : Function) (link : Word) (args : List Word) :
    (invoke setup runBlock live f link args).run = Exec.invoke setup run f link args := by
  simp only [invoke, run_recorded, run_bind, run_ofExec, hrun]
  rfl

theorem run_call (live : List Live) (l : Label) (args : List Word) :
    (call setup runBlock live l args).run = Exec.call setup run l args := by
  unfold call Exec.call
  cases setup.program.function? l with
  | none => rfl
  | some f =>
    cases args with
    | nil => rfl
    | cons hops args => simp only [run_bind, run_ofExec, run_invoke hrun]

set_option linter.unusedSectionVars false in
mutual

/-- A watched expression has the value of the expression. -/
theorem run_eval (live : List Live) :
    ∀ e, (eval setup runBlock live e).run = Exec.eval setup run e
  | .const n | .name l | .temp t => rfl
  | .mem a => by
    simp only [eval, Exec.eval, run_observed, run_bind, run_ofExec, run_eval live a]
  | .binop op x y => by
    simp only [eval, Exec.eval, run_observed, run_bind, run_ofExec, run_eval live x,
      run_eval live y]
  | .unop op x => by
    simp only [eval, Exec.eval, run_observed, run_bind, run_ofExec, run_eval live x]
  | .call f args => by
    simp only [eval, Exec.eval, run_observed, run_bind, run_call hrun, run_evalAll live args]
  | .eseq s e => by
    simp only [eval, Exec.eval, run_observed, run_bind, run_ofExec, hrun, run_eval live e]

theorem run_evalAll (live : List Live) :
    ∀ es, (evalAll setup runBlock live es).run = Exec.evalAll setup run es
  | [] => rfl
  | e :: es => by
    simp only [evalAll, Exec.evalAll, run_bind, run_pure, run_eval live e, run_evalAll live es]

end

theorem run_move (live : List Live) (d e : Expr) :
    (move setup runBlock live d e).run = Exec.move setup run d e := by
  cases d with
  | temp t =>
    by_cases ht : t = Temp.fp
    · simp only [move, Exec.move, if_pos ht, run_ofExec]
    · simp only [move, Exec.move, if_neg ht, run_bind, run_ofExec, run_eval hrun]
  | mem a =>
    simp only [move, Exec.move, run_bind, run_store, run_eval hrun]
  | _ => rfl

theorem run_step (live : List Live) (b : Block) (pc : Nat) (s : Stmt) :
    (step setup runBlock live b pc s).run = Exec.step setup run b pc s := by
  cases s with
  | cjump c t f => simp only [step, Exec.step, run_bind, run_ofExec, run_eval hrun]
  | move d e => simp only [step, Exec.step, run_bind, run_pure, run_move hrun]
  | exp e => simp only [step, Exec.step, run_bind, run_pure, run_eval hrun]
  | _ => rfl

omit hrun

/-- A watched block runs as the block does. -/
theorem run_block (setup : Setup) (fuel : Nat) (live : List Live) (b : Block) (pc : Nat) :
    (block setup fuel live b pc).run = Exec.block setup fuel b pc := by
  induction fuel generalizing live b pc with
  | zero => rfl
  | succ fuel ih =>
    rw [block, Exec.block]
    cases b[pc]? with
    | none => rfl
    | some stmt =>
      simp only [run_bind, run_ofExec, run_observed, run_step fun live b => ih live b 0, ih]

/-- A watched run is the run of the machine. -/
theorem run_enter (setup : Setup) (fuel : Nat) (name : String) (arg : Word) :
    (enter setup fuel name arg).run = Machine.enter setup fuel name arg := by
  unfold enter Machine.enter
  cases setup.program.lookup? name with
  | none => rfl
  | some f => exact run_invoke (fun live b => run_block setup fuel live b 0) [] f 0 [arg]

end Erasure

end Watched

namespace Machine

/-- The log of the run of a machine. -/
def log (m : Machine) (fuel : Nat) (name : String) (arg : Word) : List Event :=
  (Watched.enter m.setup fuel name arg).log m.startState

end Machine

end TreeCode
