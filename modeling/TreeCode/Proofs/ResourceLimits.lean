/-
# Limits of the machine

The depth of calls, the stack and memory have limits, and no program gets past them,
whatever it does to its own stack. Registers may hold any word once a saved frame pointer
has been overwritten, so nothing is assumed of them here: what a call checks before it
enters a frame is enough.

`Upholds` is a triple for recorded computations. Besides what it says of the states before
and after, all that is recorded is within the limits; only the last access before a fault may
have failed, and then the fault tells its address.
-/

import TreeCode.Proofs.Machine.Ends
import TreeCode.Proofs.Machine.Record
import TreeCode.Proofs.Outcome

namespace TreeCode

/-- A state within the limits of a machine. -/
structure Setup.Bounds (setup : Setup) (s : State) : Prop where
  depth : (s.depth : Int) ≤ setup.maxDepth
  maxDepth : (s.stats.maxDepth : Int) ≤ setup.maxDepth
  peak_nonneg : 0 ≤ s.stats.peakStack.toInt
  peak_le : s.stats.peakStack.toInt ≤ setup.memorySize.toInt - setup.program.dataSize.toInt
  size : (s.memory.size : Int) = setup.memorySize.toInt

/-- A frame that starts above the data and has a first word inside memory. -/
def Setup.Admits (setup : Setup) (base : Word) : Prop :=
  setup.program.dataSize.toInt ≤ base.toInt ∧
    base.toInt ≤ setup.memorySize.toInt - Word.byteSize

/-- A call is taken: the limit on depth is not reached, and the new frame starts above the
data. -/
def Setup.Takes (setup : Setup) (base : Word) (s : State) : Prop :=
  (s.depth : Int) < setup.maxDepth ∧ setup.program.dataSize.toInt ≤ base.toInt

/-- So many bytes from an address on lie inside memory. -/
def Setup.Spans (setup : Setup) (addr : Word) (count : Nat) : Prop :=
  0 ≤ addr.toInt ∧ addr.toInt + count ≤ setup.memorySize.toInt

/-- An entry within the limits of a machine. -/
def Note.Kept (setup : Setup) : Note → Prop
  | .point s => setup.Bounds s
  | .frame base => setup.Admits base
  | .touched addr count => setup.Spans addr count
  | .missed .. => False

namespace Tape

/-- A machine within its limits that was within them all the time. -/
structure Kept (setup : Setup) (t : Tape) : Prop where
  state : setup.Bounds t.state
  record : ∀ n ∈ t.record, n.Kept setup

/-- A machine that stopped within its limits. If an access failed, it stopped because of
that. -/
structure Stopped (setup : Setup) (stop : Stop) (t : Tape) : Prop where
  state : setup.Bounds t.state
  record : ∀ n ∈ t.record, n.Kept setup ∨
    ∃ addr count f, n = .missed addr count ∧ stop = .fault f ∧ f.cause.address? = some addr

end Tape

theorem Exec.Calm.bounds {setup : Setup} {s t : State} (h : Exec.Calm s t)
    (hs : setup.Bounds s) : setup.Bounds t where
  depth := h.depth ▸ hs.depth
  maxDepth := h.maxDepth ▸ hs.maxDepth
  peak_nonneg := h.peakStack ▸ hs.peak_nonneg
  peak_le := h.peakStack ▸ hs.peak_le
  size := h.size ▸ hs.size

/-- What calm operations keep. -/
def Exec.Lasting (P : State → Prop) : Prop :=
  ∀ s t, Exec.Calm s t → P s → P t

theorem Exec.Lasting.and {P : State → Prop} (hP : Exec.Lasting P) (φ : Prop) :
    Exec.Lasting fun s => P s ∧ φ :=
  fun s t hcalm h => ⟨hP s t hcalm h.1, h.2⟩

namespace Recorded

variable {α β : Type}

/-- An outcome within the limits, as `Q` says if it is a value. -/
def Settled (setup : Setup) (Q : α → State → Prop) : EStateM.Result Stop Tape α → Prop
  | .ok a t => t.Kept setup ∧ Q a t.state
  | .error e t => t.Stopped setup e

/-- From a state with `P` within the limits, a computation stays within them and yields a
value as `Q` says. -/
def Upholds (setup : Setup) (P : State → Prop) (x : Recorded α) (Q : α → State → Prop) : Prop :=
  ∀ t, t.Kept setup → P t.state → Settled setup Q (x t)

/-- A computation that stays within the limits. -/
def Obeys (setup : Setup) (x : Recorded α) : Prop :=
  Upholds setup (fun _ => True) x fun _ _ => True

namespace Upholds

variable {setup : Setup} {P : State → Prop}

theorem pure (a : α) : Upholds setup P (Pure.pure a) fun _ => P :=
  fun _ ht hP => ⟨ht, hP⟩

variable {x : Recorded α} {Q : α → State → Prop}

theorem bind {f : α → Recorded β} {R : β → State → Prop} (hx : Upholds setup P x Q)
    (hf : ∀ a, Upholds setup (Q a) (f a) R) : Upholds setup P (x >>= f) R := by
  intro t ht hP
  have hs := hx t ht hP
  cases h : x t with
  | ok a t' =>
    rw [h] at hs
    rw [bind_of_ok h]
    exact hf a t' hs.1 hs.2
  | error e t' =>
    rw [h] at hs
    rw [bind_of_error h]
    exact hs

theorem mono {P' : State → Prop} {Q' : α → State → Prop} (h : Upholds setup P x Q)
    (hP : ∀ s, P' s → P s) (hQ : ∀ a s, Q a s → Q' a s) : Upholds setup P' x Q' := by
  intro t ht hp
  have hs := h t ht (hP _ hp)
  cases hx : x t with
  | ok a t' =>
    rw [hx] at hs
    exact ⟨hs.1, hQ a _ hs.2⟩
  | error e t' =>
    rw [hx] at hs
    exact hs

/-- A fact that does not depend on the state may be used right away. -/
theorem assume {φ : Prop} (h : φ → Upholds setup P x Q) : Upholds setup (fun s => P s ∧ φ) x Q :=
  fun t ht hP => h hP.2 t ht hP.1

/-- An operation whose end is within the limits if its start is. -/
theorem lift {x : Exec α} (hbounds : ∀ s, setup.Bounds s → P s → setup.Bounds (Exec.final (x s)))
    (hvalue : ∀ s a s', setup.Bounds s → P s → x s = .ok a s' → Q a s') :
    Upholds setup P (lift x) Q := by
  intro t ht hP
  have hend := hbounds t.state ht.state hP
  have hrecord : ∀ n ∈ Note.point (Exec.final (x t.state)) :: .point t.state :: t.record,
      n.Kept setup := by
    intro n hn
    rcases List.mem_cons.1 hn with rfl | hn
    · exact hend
    rcases List.mem_cons.1 hn with rfl | hn
    · exact ht.state
    · exact ht.record n hn
  unfold Recorded.lift
  cases h : x t.state with
  | ok a s =>
    rw [h] at hend hrecord
    exact ⟨⟨hend, hrecord⟩, hvalue _ a s ht.state hP h⟩
  | error e s =>
    rw [h] at hend hrecord
    exact ⟨hend, fun n hn => .inl (hrecord n hn)⟩

theorem note {n : Note} (hn : n.Kept setup) : Upholds setup P (note n) fun _ => P := by
  intro t ht hP
  refine ⟨⟨ht.state, fun n' hn' => ?_⟩, hP⟩
  rcases List.mem_cons.1 hn' with rfl | hn'
  · exact hn
  · exact ht.record n' hn'

/-- An access touches bytes inside memory, or it is the last one. -/
theorem access {x : Exec α} {addr : Word} {count : Memory → Nat}
    (hx : Upholds setup P (Recorded.lift x) Q) (haccess : Exec.Access addr count x) :
    Upholds setup P (access addr count x) fun a s =>
      Q a s ∧ ∃ m, setup.Spans addr (count m) := by
  intro t ht hP
  have hs := hx t ht hP
  unfold Recorded.access
  unfold Recorded.lift at hs ⊢
  cases h : x t.state with
  | ok a s =>
    simp only [h] at hs ⊢
    have hspans : setup.Spans addr (count t.state.memory) := by
      rw [Setup.Spans, ← ht.state.size]
      exact haccess.inside h
    refine ⟨⟨hs.1.state, fun n hn => ?_⟩, hs.2, _, hspans⟩
    rcases List.mem_cons.1 hn with rfl | hn
    · exact hspans
    · exact hs.1.record n hn
  | error e s =>
    simp only [h] at hs ⊢
    obtain ⟨f, hf, hcause⟩ := haccess.faults h
    refine ⟨hs.state, fun n hn => ?_⟩
    rcases List.mem_cons.1 hn with rfl | hn
    · exact .inr ⟨addr, _, f, rfl, hf, hcause⟩
    · exact hs.record n hn

section Lasting

variable (hP : Exec.Lasting P)

include hP

/-- What calm operations keep lasts through one. -/
theorem calm {x : Exec α} (hx : Exec.Quiescent x) :
    Upholds setup P (Recorded.lift x) fun _ => P := by
  apply lift
  · exact fun s hs _ => (hx s).bounds hs
  · intro s a s' _ hp h
    have hcalm := hx s
    rw [h] at hcalm
    exact hP s s' hcalm hp

theorem store (addr value : Word) : Upholds setup P (store addr value) fun _ s =>
    P s ∧ setup.Spans addr Word.byteSize :=
  (access (calm hP (.of_plain (.store addr value))) (.store addr value)).mono (fun _ h => h)
    fun _ _ ⟨hp, _, hspans⟩ => ⟨hp, hspans⟩

variable (setup) in
/-- Staying within the limits and keeping what calm operations keep is preserved by
sequencing. -/
def basis : Basis where
  rel x _ := Upholds setup P x fun _ => P
  pure := pure
  bind := bind
  lift hx := calm hP hx.calm
  access hx := (access (calm hP hx.calm) hx).mono (fun _ h => h) fun _ _ h => h.1

end Lasting

/-- Once a frame has been filled, its first word is inside memory. -/
theorem fill (hP : Exec.Lasting P) (frame : Frame) (base link : Word) (args : List Word) :
    Upholds setup P (fill frame base link args) fun _ s =>
      P s ∧ setup.Spans base Word.byteSize := by
  have hboth := hP.and (setup.Spans base Word.byteSize)
  have hstores : Upholds setup (fun s => P s ∧ setup.Spans base Word.byteSize)
      (Recorded.storeAll base (frame.params.zip args)) fun _ s =>
        P s ∧ setup.Spans base Word.byteSize := (basis setup hboth).storeAll base _
  apply (store hP base link).bind
  intro _
  apply hstores.bind
  intro _
  apply (calm hboth (.read State.fp)).bind
  intro fp
  exact (basis setup hboth).access (.store _ fp)

end Upholds

namespace Obeys

variable {setup : Setup}

theorem bind {x : Recorded α} {f : α → Recorded β} (hx : Obeys setup x)
    (hf : ∀ a, Obeys setup (f a)) : Obeys setup (x >>= f) :=
  Upholds.bind hx hf

/-- Staying within the limits is preserved by sequencing. -/
def basis (setup : Setup) : Basis :=
  Upholds.basis setup (P := fun _ => True) fun _ _ _ h => h

/-- Leaving a frame takes one call back. -/
theorem leave (frame : Frame) (caller : Activation) (location : Location) :
    Obeys setup (leave frame caller location) := by
  apply bind ((basis setup).lift (.read (g := State.fp) fun _ _ => rfl))
  intro fp
  apply bind ((basis setup).access (.load _))
  intro saved
  apply Upholds.lift
  · intro s hs _
    have hdepth := hs.depth
    refine ⟨?_, hs.maxDepth, hs.peak_nonneg, hs.peak_le, hs.size⟩
    show ((s.depth - 1 : Nat) : Int) ≤ setup.maxDepth
    omega
  · exact fun _ _ _ _ _ _ => trivial

/-- A frame that a call takes can be entered once its first word has been written. -/
theorem enterFrame (hroomy : setup.Roomy) (frame : Frame) (base : Word) :
    Upholds setup (fun s => setup.Takes base s ∧ setup.Spans base Word.byteSize)
      (enterFrame setup frame base) fun _ _ => True := by
  apply Upholds.assume
  intro hspans
  apply Upholds.assume
  intro hdata
  have hbase : setup.Admits base := ⟨hdata, by have := hspans.2; omega⟩
  have hused : (setup.memorySize - base).toInt = setup.memorySize.toInt - base.toInt := by
    have hlow := hroomy.data_nonneg
    have hhigh := hroomy.size_le
    simp only [Setup.Admits, Word.byteSize, Program.maxAllocation] at hbase hhigh
    apply Word.toInt_sub_of_lt <;> simp only [Word.limit] <;> omega
  apply (Upholds.note (n := .frame base) hbase).bind
  intro _
  apply Upholds.lift
  · intro s hs hdepth
    have hmax := hs.maxDepth
    -- the new peak is the old one or the distance of the frame from the top
    have hpeak : 0 ≤ (if s.stats.peakStack < setup.memorySize - base then
          setup.memorySize - base else s.stats.peakStack).toInt ∧
        (if s.stats.peakStack < setup.memorySize - base then
          setup.memorySize - base else s.stats.peakStack).toInt ≤
            setup.memorySize.toInt - setup.program.dataSize.toInt := by
      split
      · rw [hused]
        simp only [Setup.Admits, Word.byteSize] at hbase
        omega
      · exact ⟨hs.peak_nonneg, hs.peak_le⟩
    refine ⟨?_, ?_, hpeak.1, hpeak.2, hs.size⟩
    · show ((s.depth + 1 : Nat) : Int) ≤ setup.maxDepth
      omega
    · show ((max s.stats.maxDepth (s.depth + 1) : Nat) : Int) ≤ setup.maxDepth
      omega
  · exact fun _ _ _ _ _ _ => trivial

/-- A call checks what it takes to stay within the limits. -/
theorem reserve (frame : Frame) (count : Nat) :
    Upholds setup (fun _ => True) (lift (Exec.reserve setup frame count)) setup.Takes := by
  apply Upholds.lift
  · exact fun s hs _ => (Exec.Quiescent.of_plain (.reserve setup frame count) s).bounds hs
  · intro s base s' _ _ h
    unfold Exec.reserve at h
    dsimp only at h
    split at h
    · cases h
    split at h
    · cases h
    split at h
    · cases h
    next hdepth hdata _ =>
      cases h
      rw [Int64.lt_iff_toInt_lt, Int.not_lt] at hdata
      exact ⟨by omega, hdata⟩

theorem invoke (hroomy : setup.Roomy) {run : Block → Recorded Unit}
    (hrun : ∀ b, Obeys setup (run b)) (f : Function) (link : Word) (args : List Word) :
    Obeys setup (invoke setup run f link args) := by
  apply (reserve f.frame args.length).bind
  intro base
  have htakes : Exec.Lasting (setup.Takes base) :=
    fun _ _ hcalm h => ⟨hcalm.depth.symm ▸ h.1, h.2⟩
  have hfilled := htakes.and (setup.Spans base Word.byteSize)
  apply (Upholds.fill htakes f.frame base link args).bind
  intro _
  apply (Upholds.calm hfilled (.read State.activation)).bind
  intro caller
  apply (Upholds.calm hfilled (.read State.location)).bind
  intro location
  apply (enterFrame hroomy f.frame base).bind
  intro _
  exact bind (hrun f.body) fun _ => leave _ _ _

/-- Staying within the limits passes through invocation. -/
def reading (hroomy : setup.Roomy) : Reading setup where
  toBasis := basis setup
  invoke hrun := invoke hroomy hrun

end Obeys

end Recorded

namespace Machine

/-- The record of a run. -/
def record (m : Machine) (fuel : Nat) (name : String) (arg : Word) : List Note :=
  (Recorded.tape (m.recorded fuel name arg)).record

variable {p : Program} {B : Nat → Prop} {o : Options} {m : Machine}

/-- A new machine is within its limits if it may call anything at all. -/
theorem bounds_of_new (hm : new p o = .ok m) (hdepth : 0 ≤ o.maxDepth)
    : m.setup.Bounds m.startState := by
  obtain ⟨hroomy, hstart⟩ := stacked_of_new hm
  obtain ⟨hsetup, -⟩ := new_eq_ok hm
  obtain ⟨memory, hstate⟩ := state_of_new hm
  have hlimit : 0 ≤ m.setup.maxDepth := by
    rw [hsetup]
    unfold Options.setup
    dsimp only
    split
    · decide
    · exact hdepth
  rw [startState, hstate]
  refine ⟨hlimit, hlimit, Int.le_refl 0, ?_, ?_⟩
  · show 0 ≤ m.setup.memorySize.toInt - m.setup.program.dataSize.toInt
    have hdata := hroomy.data_le
    omega
  · rw [← hstart.size, startState, hstate]

/-- A run ends within the limits, and so is its record, up to an access that ended it. -/
theorem record_kept (hm : new p o = .ok m) (hdepth : 0 ≤ o.maxDepth) (fuel : Nat) (name : String)
    (arg : Word) :
    m.setup.Bounds (m.run fuel name arg).2.state ∧
    ∀ n ∈ m.record fuel name arg, n.Kept m.setup ∨
      ∃ addr count f m', n = .missed addr count ∧
        m.run fuel name arg = (.error (.stopped (.fault f)), m') ∧
        f.cause.address? = some addr := by
  have hstart : Tape.Kept m.setup ⟨m.startState, []⟩ :=
    ⟨bounds_of_new hm hdepth, fun n hn => absurd hn List.not_mem_nil⟩
  have hobeys := (Recorded.Obeys.reading (stacked_of_new hm).1).enter fuel name arg _ hstart trivial
  have herase := Recorded.erases_enter m.setup fuel name arg ⟨m.startState, []⟩
  rw [run_eq_outcome (new_eq_ok hm).2, ← herase]
  unfold record recorded
  cases h : Recorded.enter m.setup fuel name arg ⟨m.startState, []⟩ with
  | ok a t =>
    rw [h] at hobeys
    have hend := hobeys.1.state
    refine ⟨⟨hend.depth, hend.maxDepth, hend.peak_nonneg, hend.peak_le, hend.size⟩, ?_⟩
    exact fun n hn => .inl (hobeys.1.record n hn)
  | error e t =>
    rw [h] at hobeys
    refine ⟨hobeys.state, fun n hn => ?_⟩
    rcases hobeys.record n hn with hkept | ⟨addr, count, f, hmissed, rfl, hcause⟩
    · exact .inl hkept
    · exact .inr ⟨addr, count, f, _, hmissed, rfl, hcause⟩

/-- A run has nothing to do with bytes that are not listed: it leaves them as they are, and it
would go the same way if they were others. -/
structure Discloses (m : Machine) (fuel : Nat) (name : String) (arg : Word)
    (listed : Nat → Prop) : Prop where
  writes : ∀ i, ¬listed i → (m.run fuel name arg).2.state.memory.byte i = m.state.memory.byte i
  reads : ∀ m' : Machine, m'.setup = m.setup → m.state.AgreeOn listed m'.state →
    (m'.run fuel name arg).1 = (m.run fuel name arg).1 ∧
      (m.run fuel name arg).2.state.AgreeOn listed (m'.run fuel name arg).2.state

theorem agreeOn_startState {m' : Machine} (h : m.state.AgreeOn B m'.state) :
    m.startState.AgreeOn B m'.startState := by
  unfold startState
  generalize m'.state = s at h ⊢
  cases h with
  | intro memory hsize hbytes => exact .intro memory hsize hbytes

theorem agreeOn_outcome {r r' : EStateM.Result Stop State Word} (h : Exec.SameEnd B r r')
    (setup : Setup) :
    (outcome setup r').1 = (outcome setup r).1 ∧
      (outcome setup r).2.state.AgreeOn B (outcome setup r').2.state := by
  cases h with
  | ok a h =>
    cases h with
    | intro memory hsize hbytes => exact ⟨rfl, .intro memory hsize hbytes⟩
  | error e h => exact ⟨rfl, h⟩

/-- The record of a run lists all the bytes that the run has to do with. -/
theorem discloses_record (h : m.state.started = false) (fuel : Nat) (name : String) (arg : Word)
    : m.Discloses fuel name arg (Note.Listed (m.record fuel name arg)) := by
  have hlocal := Recorded.local_enter m.setup fuel name arg
  have herase := Recorded.erases_enter m.setup fuel name arg
  constructor
  · intro i hi
    have hwrites := hlocal.writes (t := ⟨m.startState, []⟩) hi
    rw [run_eq_outcome h, ← herase ⟨m.startState, []⟩]
    cases hrun : Recorded.enter m.setup fuel name arg ⟨m.startState, []⟩ with
    | ok _ _ | error _ _ =>
      rw [hrun] at hwrites
      exact hwrites
  · intro m' hsetup hagree
    have hstarted : m'.state.started = false := by
      generalize m'.state = s at hagree ⊢
      cases hagree
      exact h
    have hsame := hlocal.reads (t := ⟨m.startState, []⟩) (u := ⟨m'.startState, []⟩)
      (fun i hi => hi) (agreeOn_startState hagree)
    rw [herase, herase] at hsame
    rw [run_eq_outcome h, run_eq_outcome hstarted, hsetup]
    exact agreeOn_outcome hsame m.setup

/-- The limits of a machine hold at all times, whatever program it runs and whatever that does
to the stack. The record is that of the run, and it lists all the bytes of memory that the run
has to do with. -/
theorem limits_hold {p : Program} {o : Options} {m : Machine} (hm : new p o = .ok m)
    (hdepth : 0 ≤ o.maxDepth) (fuel : Nat) (name : String) (arg : Word) :
    Recorded.erase (m.recorded fuel name arg) = enter m.setup fuel name arg m.startState ∧
    m.Discloses fuel name arg (Note.Listed (m.record fuel name arg)) ∧
    (∀ s, .point s ∈ m.record fuel name arg → m.setup.Bounds s) ∧
    m.setup.Bounds (m.run fuel name arg).2.state ∧
    (∀ base, .frame base ∈ m.record fuel name arg →
      m.setup.program.dataSize.toInt ≤ base.toInt ∧
        base.toInt ≤ m.setup.memorySize.toInt - Word.byteSize) ∧
    (∀ addr (count : Nat), .touched addr count ∈ m.record fuel name arg →
      0 ≤ addr.toInt ∧ addr.toInt + count ≤ m.setup.memorySize.toInt) ∧
    ∀ addr (count : Nat), .missed addr count ∈ m.record fuel name arg →
      ∃ f m', m.run fuel name arg = (.error (.stopped (.fault f)), m') ∧
        f.kind = .badAddress ∧ f.cause.address? = some addr := by
  obtain ⟨hend, hrecord⟩ := record_kept hm hdepth fuel name arg
  refine ⟨Recorded.erases_enter _ _ _ _ _, discloses_record (new_eq_ok hm).2 fuel name arg,
    fun s hs => ?_, hend, fun base hbase => ?_, fun addr count htouched => ?_,
    fun addr count hmissed => ?_⟩
  · rcases hrecord _ hs with hkept | ⟨_, _, _, _, hnote, -⟩
    · exact hkept
    · cases hnote
  · rcases hrecord _ hbase with hkept | ⟨_, _, _, _, hnote, -⟩
    · exact hkept
    · cases hnote
  · rcases hrecord _ htouched with hkept | ⟨_, _, _, _, hnote, -⟩
    · exact hkept
    · cases hnote
  · rcases hrecord _ hmissed with hkept | ⟨_, _, f, m', hnote, hrun, hcause⟩
    · cases hkept
    · cases hnote
      exact ⟨f, m', hrun, FaultCause.kind_of_address? hcause, hcause⟩

end Machine

/-- The frame pointer at a point. -/
def Note.fp? : Note → Option Word
  | .point s => some s.fp
  | _ => none

/-- The address of a failed access. -/
def Note.missed? : Note → Option Word
  | .missed addr _ => some addr
  | _ => none

namespace Program

/-- The function `g` overwrites its saved frame pointer, so that `f` goes on with one at the
end of the address range. It calls `g` once more and then reads beyond that end. -/
def derailed : List IR.Chunk :=
  [.code ⟨.ofName "f", 1, [8], 24, 16⟩ (.seq [
      .exp (.call (.ofName "g") [.const 0, .const 1]),
      .exp (.call (.ofName "g") [.const 0, .const 2]),
      .exp (.mem (.binop .add (.temp Temp.fp) (.const 16)))]),
    .code ⟨.ofName "g", 1, [8], 24, 16⟩
      (.move (.mem (.binop .add (.temp Temp.fp) (.const 16))) (.const 9223372036854775800))]

/-- The machine is within its limits nevertheless, and the run ends in a fault of the address
that it has come to. -/
theorem derailed_limits_hold :
    ∃ p m, ofChunks derailed = .ok p ∧ Machine.new p ⟨48, 2, false⟩ = .ok m ∧
      (∃ s, .point s ∈ m.record 20 "f" 0 ∧ s.fp = 9223372036854775800 ∧ m.setup.Bounds s) ∧
      ∃ f m', m.run 20 "f" 0 = (.error (.stopped (.fault f)), m') ∧ f.kind = .badAddress ∧
        f.cause.address? = some (-9223372036854775800) ∧
        m'.state.stats.calls = 3 ∧ m'.state.stats.peakStack = 48 := by
  have hrun : ((ofChunks derailed).toOption.bind fun p =>
      (Machine.new p ⟨48, 2, false⟩).toOption.map fun m =>
        decide (some 9223372036854775800 ∈ (m.record 20 "f" 0).map Note.fp? ∧
          some (-9223372036854775800) ∈ (m.record 20 "f" 0).map Note.missed? ∧
          (m.run 20 "f" 0).2.state.stats.calls = 3 ∧
          (m.run 20 "f" 0).2.state.stats.peakStack = 48)) = some true := by
    decide +kernel
  obtain ⟨p, hp, hrun⟩ := Outcome.of_toOption_bind hrun
  obtain ⟨m, hm, hrun⟩ := Outcome.of_toOption_map hrun
  obtain ⟨hfp, hmissed, hcalls, hpeak⟩ := of_decide_eq_true hrun
  obtain ⟨-, -, hpoints, -, -, -, hmisses⟩ := Machine.limits_hold hm (by decide) 20 "f" 0
  have hpoint : ∃ s, .point s ∈ m.record 20 "f" 0 ∧ s.fp = 9223372036854775800 := by
    obtain ⟨n, hn, hfp⟩ := List.mem_map.1 hfp
    cases n with
    | point s => exact ⟨s, hn, Option.some.inj hfp⟩
    | _ => cases hfp
  have hmiss : ∃ count, .missed (-9223372036854775800) count ∈ m.record 20 "f" 0 := by
    obtain ⟨n, hn, hmissed⟩ := List.mem_map.1 hmissed
    cases n with
    | missed addr count => exact ⟨count, Option.some.inj hmissed ▸ hn⟩
    | _ => cases hmissed
  obtain ⟨s, hs, hfp⟩ := hpoint
  obtain ⟨count, hmiss⟩ := hmiss
  obtain ⟨f, m', hfault, hkind, haddr⟩ := hmisses _ count hmiss
  rw [hfault] at hcalls hpeak
  exact ⟨p, m, hp, hm, ⟨s, hs, hfp, hpoints s hs⟩, f, m', hfault, hkind, haddr, hcalls, hpeak⟩

end Program

end TreeCode
