/-
# Conventions about the stack

A convention says more about the frames on the stack than that they are stacked: a
property of memory and of the live frames, the words of a frame that it depends on, and
a policy for the code of each function so that it is kept.

If the code of a program follows its policies, and moves are as the convention asks, then
the convention holds at every moment of a run, every call that returns restores the
registers, and every move keeps what the convention promises of it. The proof is one
induction on the fuel of the run and the structure of the code, for all conventions at
once.

Addresses are judged while a function runs, but the facts about temps were established
earlier. They are stated for the memory at the time the function was entered: since then,
what the convention guards has not changed.
-/

import TreeCode.Proofs.Machine.Control
import TreeCode.Proofs.Machine.Place
import TreeCode.Proofs.Machine.Temps

namespace TreeCode

open IR (Expr Facts FactTable Policy Stmt)

/-- Two memories have the same words at some offsets of the live frames. -/
def Live.Agree (guarded : Frame → List Word) (live : List Live) (m m' : Memory) : Prop :=
  ∀ a ∈ live, ∀ offset ∈ guarded a.frame,
    m'.readWord (a.base + offset) = m.readWord (a.base + offset)

/-- Whether a property of memory and the live frames extends to the frame of a function
that is called with a static link and arguments. -/
def Convention.Enterable (guarded : Frame → List Word) (holds : Memory → List Live → Prop)
    (live : List Live) (f : Function) (link : Word) (args : List Word) (m : Memory) : Prop :=
  ∀ base m', args.length = f.frame.params.length → Live.Agree guarded live m m' →
    (f.frame.Spaced → Live.Filled ⟨f.frame, base⟩ m' link args) →
    holds m' (⟨f.frame, base⟩ :: live)

/-- A property of the live frames that code can be made to keep. -/
structure Convention (setup : Setup) where
  /-- The offsets of the words of a frame that the property depends on. -/
  guarded : Frame → List Word
  /-- What is known of memory and the live frames. -/
  holds : Memory → List Live → Prop
  /-- What code of a function may do. -/
  policy : Frame → Policy
  /-- What is asked of the address that a move writes to. -/
  asked : List Live → Word → Prop
  /-- What is promised of a move and the address that it writes to. -/
  stored : Memory → List Live → Stmt → Word → Prop
  linkOffset_mem : ∀ f : Frame, f.linkOffset ∈ guarded f
  inside : ∀ f : Frame, f.Fits → ∀ offset ∈ guarded f, f.Holds offset
  isAddress : ∀ {f : Frame} {p : Expr}, (policy f).address p → p.isAddress = true
  congr : ∀ {m m' : Memory} {live : List Live}, Live.Agree guarded live m m' →
    holds m live → holds m' live
  steady : ∀ {m m' : Memory} {a : Live} {rest : List Live} {p : Expr},
    holds m (a :: rest) → Live.Agree guarded (a :: rest) m m' → (policy a.frame).address p →
    p.place setup.program a.base m' = p.place setup.program a.base m
  called : ∀ {s s' : State} {a : Live} {rest : List Live} {l : Label} {ps : List (Option Expr)}
    {f : Function} {hops w : Word} {args : List Word},
    Stacked setup (a :: rest) s → holds s.memory (a :: rest) → (policy a.frame).site l ps →
    setup.program.function? l = some f →
    List.Forall₂ (Expr.StandsFor setup.program a.base s.memory) ps (hops :: args) →
    Exec.followLinks hops.toInt.toNat s.fp s = .ok w s' →
    Convention.Enterable guarded holds (a :: rest) f w args s.memory
  spares : ∀ {s : State} {a : Live} {rest : List Live} {code : Stmt} {p : Option Expr}
    {addr : Word},
    Stacked setup (a :: rest) s → holds s.memory (a :: rest) → (policy a.frame).store code p →
    Expr.StandsFor setup.program a.base s.memory p addr → asked (a :: rest) addr →
    s.memory.holdsWord addr = true →
    (∀ b ∈ a :: rest, ∀ offset ∈ guarded b.frame, Word.Apart addr (b.base + offset)) ∧
      stored s.memory (a :: rest) code addr

/-- A call has left the registers as they were and changed the memory of its caller by
moves only. -/
structure Restored (before after : State) (stores : List (Word × Word)) : Prop where
  fp : after.fp = before.fp
  sp : after.sp = before.sp
  depth : after.depth = before.depth
  location : after.location = before.location
  kept : Kept before.sp.toInt stores before.memory after.memory

namespace Live.Agree

variable {guarded : Frame → List Word} {live : List Live} {m m' m'' : Memory} {a : Live}

theorem refl (guarded : Frame → List Word) (live : List Live) (m : Memory) :
    Agree guarded live m m :=
  fun _ _ _ _ => rfl

theorem symm (h : Agree guarded live m m') : Agree guarded live m' m :=
  fun a ha offset ho => (h a ha offset ho).symm

theorem trans (h : Agree guarded live m m') (h' : Agree guarded live m' m'') :
    Agree guarded live m m'' :=
  fun a ha offset ho => (h' a ha offset ho).trans (h a ha offset ho)

theorem tail (h : Agree guarded (a :: live) m m') : Agree guarded live m m' :=
  fun b hb => h b (List.mem_cons_of_mem _ hb)

end Live.Agree

/-- The facts about temps of the innermost frame hold, for addresses in a memory. -/
def Setup.Knows (setup : Setup) (a : Live) (m : Memory) (D : Facts) (s : State) : Prop :=
  ∀ x ∈ D, x.1 ≠ Temp.fp ∧ Exec.tempValue x.1 s = x.2.place setup.program a.base m

namespace Setup.Knows

variable {setup : Setup} {a : Live} {m : Memory} {D D' : Facts} {s s' : State}

theorem mono (h : setup.Knows a m D s) (hD : D' ⊆ D) : setup.Knows a m D' s :=
  fun x hx => h x (hD hx)

theorem of_activation_eq (h : setup.Knows a m D s) (hs : s'.activation = s.activation) :
    setup.Knows a m D s' := by
  intro x hx
  rw [Exec.tempValue, hs]
  exact h x hx

theorem empty (setup : Setup) (a : Live) (m : Memory) (s : State) : setup.Knows a m ∅ s :=
  fun _ hx => hx.elim

end Setup.Knows

namespace Convention

variable {setup : Setup} (C : Convention setup)

/-- The stack is in order, the convention holds, and what it guards is as in another
memory. -/
structure Inv (live : List Live) (m : Memory) (s : State) : Prop where
  stacked : Stacked setup live s
  holds : C.holds s.memory live
  agree : Live.Agree C.guarded live m s.memory

/-- Moves are as the convention asks. -/
def Asked : Event → Prop
  | .store live _ _ addr _ => C.asked live addr
  | _ => True

/-- The convention holds at every moment, inside a function, calls restore the registers
and moves are as promised. -/
def Promised : Event → Prop
  | .moment live s => live ≠ [] ∧ Stacked setup live s ∧ C.holds s.memory live
  | .store live s code addr _ => live ≠ [] ∧ Stacked setup live s ∧ C.holds s.memory live ∧
      C.stored s.memory live code addr
  | .returned before after stores => Restored before after stores

/-- The functions of the program follow the policies of the convention. -/
def Governs : Prop :=
  ∀ f ∈ setup.program.functions, f.frame.Fits ∧
    ∃ T D, Stmt.FlowsAll (C.policy f.frame) T ∅ f.body.toList D

/-- A computation that keeps the convention while some frames are live. It takes states
with `P` to states with `Q`. -/
def Upholds {α : Type} (live : List Live) (m : Memory) (P : State → Prop) (x : Watched α)
    (Q : α → State → Prop) : Prop :=
  x.Triple C.Asked C.Promised (Live.lowest setup.memorySize live).toInt
    (fun s => C.Inv live m s ∧ P s) fun v s => C.Inv live m s ∧ Q v s

end Convention

namespace Exec

/-- A computation that sets only parts of the state apart from the stack. -/
theorem Keeps.stack_of_ok {α : Type} {f : State → α} {g : State → State}
    (h : ∀ s, (g s).stack = s.stack) : Keeps State.stack (fun s => .ok (f s) (g s)) := by
  intro s a s' hok
  injection hok with _ hs
  exact hs ▸ h s

theorem keeps_stack_start (setup : Setup) (pc : Nat) (stmt : Stmt) :
    Keeps State.stack (start setup pc stmt) := by
  apply Keeps.stack_of_ok
  intro s
  split <;> rfl

theorem keeps_stack_provided {setup : Setup} {l : Label}
    (hl : setup.program.function? l = none) (run : Block → Exec Unit) (args : List Word) :
    Keeps State.stack (call setup run l args) :=
  .provided hl (.stack_of_ok fun _ => rfl) (fun _ => .stack_of_ok fun _ => rfl) run args

end Exec

namespace Convention

variable {α β : Type} {setup : Setup} {C : Convention setup} {live : List Live} {a : Live}
  {rest : List Live} {s s' : State} {m : Memory} {D D' : Facts}

open Exec (Keeps)

theorem Inv.of_stack_eq (h : C.Inv live m s) (hs : s'.stack = s.stack) : C.Inv live m s' := by
  have hm : s'.memory = s.memory := congrArg Prod.fst hs
  exact ⟨h.stacked.of_stack_eq hs, hm ▸ h.holds, hm ▸ h.agree⟩

/-- What is written below the live frames is of no concern to the convention. -/
theorem agree_of_below (hroomy : setup.Roomy)
    (hadj : Adjacent setup.program.dataSize setup.memorySize live) {low : Int} {m m' : Memory}
    (hm : Memory.Within low (Live.lowest setup.memorySize live).toInt m m') :
    Live.Agree C.guarded live m m' := by
  intro b hb offset ho
  have hfits := (hadj.inside.2 b hb).1
  exact hadj.readWord_of_below hroomy hm hb (C.inside b.frame hfits offset ho)

/-- A move that spares what is guarded leaves it as it is. -/
theorem agree_store (hroomy : setup.Roomy) (h : Stacked setup live s) {addr value : Word}
    (hspared : ∀ b ∈ live, ∀ offset ∈ C.guarded b.frame, Word.Apart addr (b.base + offset))
    (hholds : s.memory.holdsWord addr = true) :
    Live.Agree C.guarded live s.memory (s.memory.writeWord addr value) := by
  intro b hb offset ho
  obtain ⟨hfits, hdata, -, htop⟩ := h.adjacent.inside.2 b hb
  have hbase := Int.le_trans hroomy.data_nonneg hdata
  have hoffset := C.inside b.frame hfits offset ho
  have haddr := Live.toInt_add hroomy hbase htop hoffset
  have hnonneg := hoffset.1
  exact Memory.readWord_writeWord_of_apart (Memory.holdsWord_iff.1 hholds).1 (by omega)
    (hspared b hb offset ho)

/-- An address of the innermost function has had the same place since it was entered. -/
theorem Inv.place_eq (h : C.Inv (a :: rest) m s) {p : Expr} (hp : (C.policy a.frame).address p) :
    p.place setup.program a.base m = p.place setup.program a.base s.memory :=
  C.steady h.holds h.agree.symm hp

namespace Upholds

variable {P P' : State → Prop} {x : Watched α} {Q Q' : α → State → Prop}

theorem mono (h : C.Upholds live m P x Q) (hP : ∀ s, P' s → P s) (hQ : ∀ v s, Q v s → Q' v s) :
    C.Upholds live m P' x Q' :=
  Watched.Triple.mono h (Int.le_refl _) (fun s hs => ⟨hs.1, hP s hs.2⟩)
    fun v s hv => ⟨hv.1, hQ v s hv.2⟩

/-- A computation that does not touch the stack keeps every convention. -/
theorem ofExec {x : Exec α}
    (h : ∀ s v s', C.Inv live m s → P s → x s = .ok v s' → s'.stack = s.stack ∧ Q v s') :
    C.Upholds live m P (Watched.ofExec x) Q := by
  apply Watched.Triple.ofExec
  intro s v s' hs hv
  obtain ⟨hstack, hQ⟩ := h s v s' hs.1 hs.2 hv
  have hm : s'.memory = s.memory := congrArg Prod.fst hstack
  exact ⟨⟨hs.1.of_stack_eq hstack, hQ⟩, hm ▸ Kept.refl _ _⟩

/-- As `ofExec`, where the temps are not touched either. -/
theorem quiet {x : Exec α} (hx : Keeps State.stack x) (ht : Keeps State.activation x) :
    C.Upholds live m (setup.Knows a m D) (Watched.ofExec x) fun _ => setup.Knows a m D :=
  ofExec fun s v s' _ hs hv => ⟨hx s v s' hv, hs.of_activation_eq (ht s v s' hv)⟩

/-- A computation that fails keeps every convention. -/
theorem stuck {x : Exec α} (h : ∀ s v s', x s ≠ .ok v s') :
    C.Upholds live m P (Watched.ofExec x) Q :=
  ofExec fun s v s' _ _ hv => absurd hv (h s v s')

theorem pure {v : α} (h : ∀ s, P s → Q v s) : C.Upholds live m P (pure v) Q :=
  Watched.Triple.pure fun s hs => ⟨hs.1, h s hs.2⟩

theorem bind {R : α → State → Prop} {Q : β → State → Prop} {f : α → Watched β}
    (hx : C.Upholds live m P x R) (hf : ∀ v, C.Upholds live m (R v) (f v) Q) :
    C.Upholds live m P (x >>= f) Q :=
  Watched.Triple.bind hx hf

/-- A property of the value that is known before a computation starts. -/
theorem of_value {P : State → Prop} {p : Prop} (h : p → C.Upholds live m P x Q) :
    C.Upholds live m (fun s => P s ∧ p) x Q :=
  fun s hs => h hs.2.2 s ⟨hs.1, hs.2.1⟩

theorem observed (h : C.Upholds (a :: rest) m P x Q) :
    C.Upholds (a :: rest) m P (Watched.observed (a :: rest) x) Q :=
  Watched.Triple.observed
    (fun _ hs => ⟨List.cons_ne_nil _ _, hs.1.stacked, hs.1.holds⟩) h

/-- What the run of a computation shows may be added to what is known at its end. -/
theorem and_run {R : α → State → Prop} (h : C.Upholds live m P x Q)
    (hR : ∀ s v s', C.Inv live m s → P s → x.run s = .ok v s' → R v s') :
    C.Upholds live m P x fun v s => Q v s ∧ R v s := by
  intro s hs hasked
  obtain ⟨hlog, hend⟩ := h s hs hasked
  refine ⟨hlog, fun v s' hv => ?_⟩
  obtain ⟨⟨hinv, hQ⟩, hkept⟩ := hend v s' hv
  exact ⟨⟨hinv, hQ, hR s v s' hs.1 hs.2 hv⟩, hkept⟩

/-- Facts about temps that are not assigned to remain. -/
theorem keep {es : List IR.Effect} {Q : α → State → Prop}
    (h : C.Upholds live m (setup.Knows a m D) x Q)
    (hx : ∀ t, .assign t ∉ es → Keeps (Exec.tempValue t) x.run) :
    C.Upholds live m (setup.Knows a m D) x fun v s => setup.Knows a m (D.after es) s ∧ Q v s := by
  refine (h.and_run (R := fun _ => setup.Knows a m (D.after es)) ?_).mono (fun _ hs => hs)
    fun _ _ hv => ⟨hv.2, hv.1⟩
  intro s v s' _ hs hv y hy
  rw [hx y.1 hy.2 s v s' hv]
  exact hs y hy.1

/-- A move into memory keeps the convention if its target may be stored to. -/
theorem store (hroomy : setup.Roomy) {code : Stmt} {p : Option Expr} {addr value : Word}
    (hp : (C.policy a.frame).store code p)
    (haddr : ∀ q, p = some q → (C.policy a.frame).address q ∧
      addr = q.place setup.program a.base m) :
    C.Upholds (a :: rest) m (setup.Knows a m D) (Watched.store (a :: rest) code addr value)
      fun _ => setup.Knows a m D := by
  rintro s ⟨hs, hknows⟩ hasked
  simp only [Watched.log, Watched.run, Watched.store] at hasked ⊢
  cases hrun : Exec.store addr value s with
  | error e t =>
    refine ⟨fun _ he => absurd he List.not_mem_nil, ?_⟩
    intro v s' hv
    cases hv
  | ok v t =>
    rw [hrun] at hasked
    obtain ⟨hholds, rfl⟩ := Exec.store_eq_ok hrun
    have hplace : Expr.StandsFor setup.program a.base s.memory p addr :=
      fun q hq => (haddr q hq).2.trans (hs.place_eq (haddr q hq).1)
    obtain ⟨hspared, hstored⟩ :=
      C.spares hs.stacked hs.holds hp hplace (hasked _ List.mem_cons_self) hholds
    have hagree : Live.Agree C.guarded (a :: rest) s.memory (s.memory.writeWord addr value) :=
      agree_store hroomy hs.stacked hspared hholds
    constructor
    · intro e he
      obtain rfl := List.mem_singleton.1 he
      exact ⟨List.cons_ne_nil _ _, hs.stacked, hs.holds, hstored⟩
    · intro v s' hv
      injection hv with _ hs'
      subst hs'
      refine ⟨⟨⟨hs.stacked.store hroomy hholds fun b hb =>
          hspared b hb b.frame.linkOffset (C.linkOffset_mem b.frame),
        C.congr hagree hs.holds, hs.agree.trans hagree⟩, hknows.of_activation_eq rfl⟩,
        Memory.size_writeWord _ _ _, ?_, fun _ _ => rfl⟩
      intro w hw
      obtain rfl := List.mem_singleton.1 hw
      exact (Memory.holdsWord_iff.1 hholds).1

end Upholds

section Calls

variable {runBlock : List Live → Block → Watched Unit}

/-- A frame has been set up for a function, and nothing else has happened. -/
structure Prepared (C : Convention setup) (live : List Live) (a : Live) (s s' : State) : Prop where
  adjacent : Adjacent setup.program.dataSize setup.memorySize (a :: live)
  within : Memory.Within a.base.toInt a.top s.memory s'.memory
  saved : s'.memory.readWord a.saved = s.fp
  holds : C.holds s'.memory (a :: live)
  agree : Live.Agree C.guarded live s.memory s'.memory
  depth : s'.depth = s.depth
  location : s'.location = s.location

/-- Entering a frame that was set up brings the convention to it. -/
theorem Prepared.enter {t : State} (hroomy : setup.Roomy) (hs : Stacked setup live s)
    (h : C.Prepared live a s t) (hok : Exec.enter setup a.frame a.base t = .ok () s') :
    C.Inv (a :: live) t.memory s' ∧ s'.memory = t.memory := by
  injection hok with _ hs'
  subst hs'
  exact ⟨⟨hs.enter hroomy h.adjacent h.within h.saved rfl rfl (congrArg (· + 1) h.depth),
    h.holds, .refl _ _ _⟩, rfl⟩

variable {f : Function} {args : List Word}

/-- Filling a frame for which there is room prepares it. -/
theorem prepared_of_fill (hroomy : setup.Roomy) {base w : Word}
    (henter : Enterable C.guarded C.holds live f w args s.memory)
    (hargs : args.length = f.frame.params.length)
    (hadj : Adjacent setup.program.dataSize setup.memorySize (⟨f.frame, base⟩ :: live))
    (hok : Exec.fill f.frame base w args s = .ok () s') : C.Prepared live ⟨f.frame, base⟩ s s' := by
  obtain ⟨m', rfl, hwithin, hsaved, hfilled⟩ :=
    Stacked.fill (a := ⟨f.frame, base⟩) hroomy hadj hargs hok
  have hbelow : Memory.Within base.toInt (Live.lowest setup.memorySize live).toInt s.memory m' :=
    hadj.2.2.1 ▸ hwithin
  have hagree : Live.Agree C.guarded live s.memory m' := agree_of_below hroomy hadj.2.2.2 hbelow
  exact ⟨hadj, hwithin, hsaved, henter base m' hargs hagree hfilled, hagree, rfl, rfl⟩

/-- A call that returns restores the registers, if the body of the function keeps the
convention in its own frame. -/
theorem invoke_upholds (hroomy : setup.Roomy) {w : Word} (hfits : f.frame.Fits)
    (hbody : ∀ base m', C.Upholds (⟨f.frame, base⟩ :: live) m' (fun _ => True)
      (runBlock (⟨f.frame, base⟩ :: live) f.body) fun _ _ => True) :
    C.Upholds live m (fun s => Enterable C.guarded C.holds live f w args s.memory)
      (Watched.invoke setup runBlock live f w args) fun _ _ => True := by
  apply Watched.Triple.of_forall
  rintro s₀ ⟨hs₀, henter⟩
  refine (Watched.Triple.recorded (Q := fun _ s => C.Inv live m s ∧ s.location = s₀.location)
    ?_ ?_).mono (Int.le_refl _) (fun _ hs => hs) fun _ _ h => ⟨h.1, trivial⟩
  · rintro s v s' stores rfl ⟨hs', hlocation⟩ hkept
    exact ⟨hs'.stacked.fp.trans hs₀.stacked.fp.symm, hs'.stacked.sp.trans hs₀.stacked.sp.symm,
      hs'.stacked.depth.trans hs₀.stacked.depth.symm, hlocation, hs₀.stacked.sp ▸ hkept⟩
  apply Watched.Triple.bind (R := fun base s => s = s₀ ∧ args.length = f.frame.params.length ∧
    Adjacent setup.program.dataSize setup.memorySize (⟨f.frame, base⟩ :: live))
  · apply Watched.Triple.ofExec
    rintro s base s' rfl hok
    obtain ⟨rfl, hargs, hadj⟩ := hs₀.stacked.reserve hroomy hfits hok
    exact ⟨⟨rfl, hargs, hadj⟩, Kept.refl _ _⟩
  intro base
  apply Watched.Triple.bind (R := fun _ s => C.Prepared live ⟨f.frame, base⟩ s₀ s)
  · apply Watched.Triple.ofExec
    rintro s v s' ⟨rfl, hargs, hadj⟩ hok
    have hprepared := prepared_of_fill hroomy henter hargs hadj hok
    exact ⟨hprepared, Kept.of_within (hadj.2.2.1 ▸ hprepared.within)⟩
  intro _
  apply Watched.Triple.bind (R := fun t s => s = t ∧ C.Prepared live ⟨f.frame, base⟩ s₀ t)
  · apply Watched.Triple.ofExec
    intro s t s' hs hok
    injection hok with ht hs'
    subst ht hs'
    exact ⟨⟨rfl, hs⟩, Kept.refl _ _⟩
  intro t
  apply Watched.Triple.of_forall
  rintro s₁ ⟨rfl, hprepared⟩
  apply Watched.Triple.bind (R := fun _ => C.Inv (⟨f.frame, base⟩ :: live) s₁.memory)
  · apply Watched.Triple.ofExec
    rintro s v s' rfl hok
    obtain ⟨hinv, hm⟩ := hprepared.enter hroomy hs₀.stacked hok
    exact ⟨hinv, hm ▸ Kept.refl _ _⟩
  intro _
  apply Watched.Triple.bind (R := fun _ => C.Inv (⟨f.frame, base⟩ :: live) s₁.memory)
  · exact Watched.Triple.mono (hbody base s₁.memory) hprepared.adjacent.base_le
      (fun _ hs => ⟨hs, trivial⟩) fun _ _ h => h.1
  intro _
  apply Watched.Triple.ofExec
  intro s v s' hs hok
  obtain ⟨hstacked, hm, hlocation⟩ := hs.stacked.leave hroomy hok
  -- what the caller relies on is still there when the callee leaves
  have hagree : Live.Agree C.guarded live s₀.memory s'.memory :=
    hm ▸ hprepared.agree.trans hs.agree.tail
  exact ⟨⟨⟨hstacked, C.congr hagree hs₀.holds, hs₀.agree.trans hagree⟩,
    hlocation.trans hprepared.location⟩, hm ▸ Kept.refl _ _⟩

end Calls

section Code

variable {runBlock : List Live → Block → Watched Unit} {run : Block → Exec Unit}

/-- Running a block keeps the convention if it follows the policy of the innermost
function, and it keeps the temps that it does not assign to. -/
structure Runs (C : Convention setup) (runBlock : List Live → Block → Watched Unit)
    (run : Block → Exec Unit) : Prop where
  erases : ∀ live b, (runBlock live b).run = run b
  keeps : ∀ b t, .assign t ∉ Stmt.effectsAll b.toList → Keeps (Exec.tempValue t) (run b)
  upholds : ∀ {a rest m b T D D'}, Stmt.FlowsAll (C.policy a.frame) T D b.toList D' →
    C.Upholds (a :: rest) m (setup.Knows a m D) (runBlock (a :: rest) b) fun _ _ => True

/-- Whether a word is the place that an address of the innermost function had when it was
entered, if an address is given. -/
def Stands (C : Convention setup) (a : Live) (m : Memory) (p : Option Expr) (w : Word) : Prop :=
  ∀ q, p = some q → (C.policy a.frame).address q ∧ w = q.place setup.program a.base m

variable (hroomy : setup.Roomy) (hgoverns : C.Governs) (hrun : C.Runs runBlock run)

include hroomy hgoverns hrun in
/-- A call that the innermost function may contain keeps the convention. -/
theorem call_upholds {l : Label} {ps : List (Option Expr)} {args : List Word}
    (hsite : (C.policy a.frame).site l ps) (hps : List.Forall₂ (C.Stands a m) ps args) :
    C.Upholds (a :: rest) m (setup.Knows a m D)
      (Watched.call setup runBlock (a :: rest) l args) fun _ => setup.Knows a m D := by
  have hkeeps : ∀ t, .assign t ∉ ([] : List IR.Effect) → Keeps (Exec.tempValue t)
      (Watched.call setup runBlock (a :: rest) l args).run := by
    intro t _
    rw [Watched.run_call hrun.erases]
    exact (Keeps.call _ _ _ _).tempValue
  refine (Upholds.keep (Q := fun _ _ => True) ?_ hkeeps).mono (fun _ hs => hs)
    fun _ _ hv => hv.1.mono fun x hx => ⟨hx, List.not_mem_nil⟩
  unfold Watched.call
  cases hl : setup.program.function? l with
  | none =>
    exact .ofExec fun s v s' _ _ hv => ⟨Exec.keeps_stack_provided hl _ _ s v s' hv, trivial⟩
  | some f =>
    cases hps with
    | nil =>
      apply Upholds.stuck
      intro s v s' hv
      rw [Exec.call, hl] at hv
      cases hv
    | @cons p hops ps args hhops hps =>
      have hf : f ∈ setup.program.functions := List.mem_of_find?_eq_some hl
      obtain ⟨hfits, T, D, hcode⟩ := hgoverns f hf
      apply Watched.Triple.of_forall
      rintro s₀ ⟨hs₀, -⟩
      apply Watched.Triple.bind (R := fun t s => t = s₀ ∧ s = s₀)
      · apply Watched.Triple.ofExec
        rintro s t s' rfl hok
        injection hok with ht hs'
        subst ht hs'
        exact ⟨⟨rfl, rfl⟩, Kept.refl _ _⟩
      intro t
      apply Watched.Triple.bind (R := fun w s => C.Inv (a :: rest) m s ∧
        Enterable C.guarded C.holds (a :: rest) f w args s.memory)
      · apply Watched.Triple.ofExec
        rintro s w s' ⟨rfl, rfl⟩ hok
        have hplaces : ∀ {p w}, C.Stands a m p w →
            Expr.StandsFor setup.program a.base s.memory p w :=
          fun h q hq => (h q hq).2.trans (hs₀.place_eq (h q hq).1)
        have henter := C.called hs₀.stacked hs₀.holds hsite hl
          (.cons (hplaces hhops) (hps.imp fun _ _ => hplaces)) hok
        have hsame : s' = s := Keeps.followLinks (f := id) _ _ _ _ _ hok
        exact ⟨⟨hsame ▸ hs₀, hsame ▸ henter⟩, hsame ▸ Kept.refl _ _⟩
      intro w
      exact invoke_upholds hroomy hfits fun base m' =>
        (hrun.upholds hcode).mono (fun s _ => .empty setup _ m' s) fun _ _ h => h

/-- An expression that is known to have the value of an address evaluates to its place. -/
theorem Inv.eval_known (hs : C.Inv (a :: rest) m s) (hknows : setup.Knows a m D s)
    {e p : Expr} {v : Word} (hp : (C.policy a.frame).Known D e p)
    (hv : Exec.eval setup run e s = .ok v s') : v = p.place setup.program a.base m := by
  obtain ⟨haddr, rfl | ⟨c, hc, rfl⟩ | ⟨t, rfl, hmem⟩⟩ := hp
  · obtain ⟨-, hplace⟩ := Exec.eval_address (C.isAddress haddr) hv
    rw [hplace, hs.place_eq haddr, hs.stacked.fp, Live.lowest_cons]
  · exact Exec.eval_constant hc hv
  · obtain ⟨hne, hvalue⟩ := hknows _ hmem
    simp only [Exec.eval, Exec.readTemp, if_neg hne] at hv
    cases hv
    exact hvalue

include hrun in
theorem Upholds.known {e : Expr} {Q : Word → State → Prop}
    (h : C.Upholds (a :: rest) m (setup.Knows a m D)
      (Watched.eval setup runBlock (a :: rest) e) Q) :
    C.Upholds (a :: rest) m (setup.Knows a m D) (Watched.eval setup runBlock (a :: rest) e)
      fun v s => Q v s ∧
        ∀ p, (C.policy a.frame).Known D e p → v = p.place setup.program a.base m := by
  apply h.and_run
  intro s v s' hs hknows hv p hp
  rw [Watched.run_eval hrun.erases] at hv
  exact hs.eval_known hknows hp hv

section Expressions

variable {T : FactTable}

include hroomy hgoverns hrun

-- lists need some hypotheses through their members only
set_option linter.unusedSectionVars false in
mutual

/-- Evaluation keeps the convention. -/
theorem eval_upholds : ∀ {e : Expr} {D : Facts}, e.Flows (C.policy a.frame) T D →
    C.Upholds (a :: rest) m (setup.Knows a m D) (Watched.eval setup runBlock (a :: rest) e)
      fun _ => setup.Knows a m (D.after e.effects)
  | .const n, D, _ => .observed (.pure fun _ hs => hs.mono Facts.after_subset)
  | .name l, D, _ => by
    refine .observed (.mono (.quiet ?_ ?_) (fun _ hs => hs) fun _ _ hs =>
      hs.mono Facts.after_subset)
    all_goals
      cases setup.program.address? l with
      | some _ => exact Keeps.pure _
      | none => exact Keeps.fault _
  | .temp t, D, _ =>
    .observed (.mono (.quiet (.readTemp t) (.readTemp t)) (fun _ hs => hs) fun _ _ hs =>
      hs.mono Facts.after_subset)
  | .mem x, D, h =>
    .observed (.bind (eval_upholds (e := x) h) fun _ => .quiet (.load _) (.load _))
  | .unop op x, D, h =>
    .observed (.bind (eval_upholds (e := x) h) fun _ => .quiet (.unary op _) (.unary op _))
  | .binop op x y, D, h => by
    rw [Expr.effects, Facts.after_append]
    exact .observed (.bind (eval_upholds h.1) fun _ => .bind (eval_upholds h.2) fun _ =>
      .quiet (.binary op _ _) (.binary op _ _))
  | .call f args, D, ⟨ps, hargs, hsite⟩ => by
    rw [Expr.effects, Facts.after_append]
    refine .observed (.bind (evalAll_upholds hargs) fun vs => .of_value fun hps => ?_)
    refine (call_upholds hroomy hgoverns hrun hsite hps).mono (fun _ hs => hs) fun _ _ hs =>
      hs.mono Facts.after_subset
  | .eseq s e, D, ⟨⟨D', hs⟩, he⟩ => by
    rw [Expr.effects, Facts.after_append]
    have hblock : C.Upholds (a :: rest) m (setup.Knows a m D)
        (runBlock (a :: rest) (.ofStmt s)) fun _ _ => True := hrun.upholds hs.flatten
    have hkeeps : ∀ t, .assign t ∉ s.effects →
        Keeps (Exec.tempValue t) (runBlock (a :: rest) (.ofStmt s)).run := by
      intro t ht
      rw [hrun.erases]
      rw [← Stmt.effectsAll_flatten] at ht
      exact hrun.keeps (.ofStmt s) t ht
    exact .observed (.bind (.quiet .location .location) fun _ => .bind (hblock.keep hkeeps) fun _ =>
      .bind (.mono (.quiet (.stack_of_ok fun _ => rfl) (.setLocation _)) (fun _ hs => hs.1)
        fun _ _ hs => hs) fun _ => eval_upholds he)

theorem evalAll_upholds : ∀ {es : List Expr} {ps : List (Option Expr)} {D : Facts},
    Expr.FlowsAll (C.policy a.frame) T D es ps →
      C.Upholds (a :: rest) m (setup.Knows a m D) (Watched.evalAll setup runBlock (a :: rest) es)
        fun vs s => setup.Knows a m (D.after (Expr.effectsAll es)) s ∧
          List.Forall₂ (C.Stands a m) ps vs
  | [], _, D, h => .pure fun _ hs => ⟨hs.mono Facts.after_subset, h ▸ .nil⟩
  | e :: es, _, D, ⟨p, qs, hps, he, hknown, hes⟩ => by
    subst hps
    rw [Expr.effectsAll, Facts.after_append]
    exact .bind (Upholds.known hrun (eval_upholds he)) fun v => .of_value fun hv =>
      .bind (evalAll_upholds hes) fun vs => .pure fun _ hs =>
        ⟨hs.1, .cons (fun q hq => ⟨(hknown q hq).1, hv q (hknown q hq)⟩) hs.2⟩

end

/-- A move keeps the convention and establishes the facts that flow out of it. -/
theorem move_upholds {d e : Expr} (h : (Stmt.move d e).Flows (C.policy a.frame) T D D') :
    C.Upholds (a :: rest) m (setup.Knows a m D) (Watched.move setup runBlock (a :: rest) d e)
      fun _ => setup.Knows a m D' := by
  cases d with
  | temp t =>
    obtain ⟨he, hfacts⟩ := h
    by_cases ht : t = Temp.fp
    · simp only [Watched.move, if_pos ht]
      exact .stuck (by rintro _ _ _ ⟨⟩)
    simp only [Watched.move, if_neg ht]
    refine .bind (Upholds.known hrun (eval_upholds hroomy hgoverns hrun he)) fun v =>
      .of_value fun hv => .ofExec ?_
    rintro s _ _ - hs ⟨⟩
    refine ⟨rfl, fun x hx => ?_⟩
    rcases hfacts x hx with hold | ⟨rfl, hknown⟩
    · rw [Facts.after_append] at hold
      have hne : x.1 ≠ t := fun heq => hold.2 (heq ▸ List.mem_singleton_self _)
      obtain ⟨hfp, hvalue⟩ := hs x hold.1
      refine ⟨hfp, ?_⟩
      simpa only [Exec.tempValue, Temps.get_set, if_neg hne] using hvalue
    · refine ⟨ht, ?_⟩
      simpa only [Exec.tempValue, Temps.get_set, if_pos] using hv _ hknown
  | mem x =>
    obtain ⟨hx, he, ⟨p, hknown, hstore⟩, hfacts⟩ := h
    refine .bind (Upholds.known hrun (eval_upholds hroomy hgoverns hrun hx)) fun addr =>
      .of_value fun haddr => .bind (eval_upholds hroomy hgoverns hrun he) fun value => ?_
    refine (Upholds.store hroomy hstore fun q hq =>
      ⟨(hknown q hq).1, haddr q (hknown q hq)⟩).mono (fun _ hs => hs) fun _ _ hs => ?_
    rw [← Facts.after_append] at hs
    exact hs.mono hfacts
  | _ => exact .stuck (by rintro _ _ _ ⟨⟩)

end Expressions

section Steps

variable {T : FactTable} {E : Facts} {b : Block}

/-- What is known when control is at a position of a block, so that the rest of it can be
followed. -/
def Ready (C : Convention setup) (a : Live) (m : Memory) (T : FactTable) (b : Block) (E : Facts)
    (pc : Nat) (s : State) : Prop :=
  ∃ D, setup.Knows a m D s ∧ Stmt.FlowsAll (C.policy a.frame) T D (b.toList.drop pc) E

/-- Control may go to a label whose facts are known. -/
theorem target_upholds (hb : Stmt.FlowsAll (C.policy a.frame) T D' b.toList E) {l : Label}
    (hl : T l ⊆ D) :
    C.Upholds live m (setup.Knows a m D) (Watched.ofExec (Exec.target b l))
      (C.Ready a m T b E) := by
  apply Upholds.ofExec
  intro s next s' _ hs hok
  unfold Exec.target at hok
  cases hpos : b.position? l with
  | none =>
    rw [hpos] at hok
    cases hok
  | some i =>
    rw [hpos] at hok
    cases hok
    have hget : b.toList[next]? = some (.label l) := by
      rw [Array.getElem?_toList]
      exact (Block.position?_eq_some.1 hpos).1
    exact ⟨rfl, T l, hs.mono hl, hb.at_label hget⟩

include hroomy hgoverns hrun in
/-- One instruction keeps the convention, and control is ready to go on. -/
theorem step_upholds (hb : Stmt.FlowsAll (C.policy a.frame) T D' b.toList E) {pc : Nat}
    {stmt : Stmt} (hget : b[pc]? = some stmt) :
    C.Upholds (a :: rest) m (C.Ready a m T b E pc)
      (Watched.step setup runBlock (a :: rest) b pc stmt) (C.Ready a m T b E) := by
  intro s ⟨hs, D, hknows, hdrop⟩
  rw [← Array.getElem?_toList] at hget
  rw [List.drop_eq_getElem?_toList_append, hget] at hdrop
  obtain ⟨D₁, hstmt, hrest⟩ := hdrop
  have hgo : ∀ {x : Watched Unit}, C.Upholds (a :: rest) m (setup.Knows a m D) x
      (fun _ => setup.Knows a m D₁) →
      C.Upholds (a :: rest) m (setup.Knows a m D) (do x; return pc + 1) (C.Ready a m T b E) :=
    fun hx => .bind hx fun _ => .pure fun _ hs => ⟨D₁, hs, hrest⟩
  suffices h : C.Upholds (a :: rest) m (setup.Knows a m D)
      (Watched.step setup runBlock (a :: rest) b pc stmt) (C.Ready a m T b E) from
    h s ⟨hs, hknows⟩
  cases stmt with
  | label l =>
    refine .ofExec ?_
    rintro s _ _ - hs ⟨⟩
    exact ⟨rfl, D₁, hs.mono (Set.Subset.trans hstmt.2 hstmt.1), hrest⟩
  | jump l => exact target_upholds hb hstmt
  | cjump c t f =>
    refine .bind (eval_upholds hroomy hgoverns hrun hstmt.1) fun v => ?_
    split
    · exact target_upholds hb hstmt.2.2
    · exact target_upholds hb hstmt.2.1
  | move d e => exact hgo (move_upholds hroomy hgoverns hrun hstmt)
  | exp e =>
    refine .bind (eval_upholds hroomy hgoverns hrun hstmt.1) fun _ => .pure fun _ hs => ?_
    exact ⟨D₁, hs.mono hstmt.2, hrest⟩
  | seq _ | absent => exact .stuck fun _ _ _ hv => nomatch hv

end Steps

end Code

/-- Running code keeps a convention that governs the program. -/
theorem block_upholds (hroomy : setup.Roomy) (hgoverns : C.Governs) (fuel : Nat) {a : Live}
    {rest : List Live} {m : Memory} {b : Block} {T : FactTable} {D E : Facts}
    (hb : Stmt.FlowsAll (C.policy a.frame) T D b.toList E) (pc : Nat) :
    C.Upholds (a :: rest) m (C.Ready a m T b E pc) (Watched.block setup fuel (a :: rest) b pc)
      fun _ _ => True := by
  induction fuel generalizing a rest m b T D E pc with
  | zero => exact .stuck fun _ _ _ hv => nomatch hv
  | succ fuel ih =>
    rw [Watched.block]
    cases hstmt : b[pc]? with
    | none => exact .pure fun _ _ => trivial
    | some stmt =>
      have hrun : C.Runs (fun live inner => Watched.block setup fuel live inner 0)
          fun inner => Exec.block setup fuel inner 0 :=
        ⟨fun live inner => Watched.run_block setup fuel live inner 0,
          fun inner _ ht => Exec.block_keeps setup fuel inner 0 ht,
          fun hinner => (ih hinner 0).mono (fun _ hs => ⟨_, hs, hinner⟩) fun _ _ h => h⟩
      refine .bind (R := fun _ => C.Ready a m T b E pc) (.ofExec ?_) fun _ =>
        .bind (.observed (step_upholds hroomy hgoverns hrun hb hstmt)) fun next => ih hb next
      rintro s u s' - ⟨D', hknows, hdrop⟩ hok
      exact ⟨Exec.keeps_stack_start setup pc stmt s u s' hok, D',
        hknows.of_activation_eq (Exec.keeps_activation_start setup pc stmt s u s' hok), hdrop⟩

/-- A run keeps a convention that governs the program, if the function that it starts with
may be entered without a static link. -/
theorem enter_upholds (hroomy : setup.Roomy) (hgoverns : C.Governs) (fuel : Nat) (name : String)
    (arg : Word) :
    C.Upholds [] m (fun s => ∀ f, setup.program.lookup? name = some f →
        Enterable C.guarded C.holds [] f 0 [arg] s.memory)
      (Watched.enter setup fuel name arg) fun _ _ => True := by
  unfold Watched.enter
  cases hname : setup.program.lookup? name with
  | none => exact .stuck fun _ _ _ hv => nomatch hv
  | some f =>
    have hf : f ∈ setup.program.functions := List.mem_of_find?_eq_some hname
    obtain ⟨hfits, T, D, hcode⟩ := hgoverns f hf
    refine (invoke_upholds hroomy hfits fun base m' => ?_).mono (fun s hs => hs f rfl)
      fun _ _ h => h
    exact (block_upholds hroomy hgoverns fuel hcode 0).mono
      (fun s _ => ⟨∅, .empty setup _ m' s, hcode⟩) fun _ _ h => h

/-- What a convention that governs the program promises of the log of a machine. -/
theorem promised_of_log {k : Machine} {C : Convention k.setup} (hgoverns : C.Governs)
    (hroomy : k.setup.Roomy) (hstart : Stacked k.setup [] k.startState)
    (hholds : C.holds k.startState.memory []) {fuel : Nat} {name : String} {arg : Word}
    (henter : ∀ f, k.setup.program.lookup? name = some f →
      Enterable C.guarded C.holds [] f 0 [arg] k.startState.memory)
    (hasked : ∀ e ∈ k.log fuel name arg, C.Asked e) : ∀ e ∈ k.log fuel name arg, C.Promised e :=
  (enter_upholds hroomy hgoverns fuel name arg k.startState
    ⟨⟨hstart, hholds, .refl _ _ k.startState.memory⟩, henter⟩ hasked).1

end Convention

end TreeCode
