/-
# Triples for watched runs

A triple says what a watched computation promises of its log and of the state it ends
in, if it starts in a state with a given property and its log is as asked. It also says
what becomes of memory from an address on: there, nothing changes but by the moves in the
log.

There is one rule for each way of putting watched computations together.
-/

import TreeCode.Proofs.Machine.Memory
import TreeCode.Proofs.Machine.Watch

namespace TreeCode

/-- From an address on, a memory is what moves have made of another. -/
structure Kept (k : Int) (stores : List (Word × Word)) (m m' : Memory) : Prop where
  size : m'.size = m.size
  nonneg : ∀ w ∈ stores, 0 ≤ w.1.toInt
  byte : ∀ i : Nat, k ≤ i → m'.byte i = (m.writeAll stores).byte i

namespace Kept

variable {k k' : Int} {m m' m'' : Memory} {stores stores' : List (Word × Word)}

theorem refl (k : Int) (m : Memory) : Kept k [] m m :=
  ⟨rfl, fun _ hw => absurd hw List.not_mem_nil, fun _ _ => rfl⟩

theorem trans (h : Kept k stores m m') (h' : Kept k stores' m' m'') :
    Kept k (stores ++ stores') m m'' where
  size := h'.size.trans h.size
  nonneg w hw := (List.mem_append.1 hw).elim (h.nonneg w) (h'.nonneg w)
  byte i hi := by
    have hsize : m'.size = (m.writeAll stores).size := by rw [h.size, Memory.size_writeAll]
    rw [h'.byte i hi, Memory.writeAll_append]
    exact Memory.byte_writeAll_congr hsize (h.byte i hi) stores'

theorem mono (hk : k ≤ k') (h : Kept k stores m m') : Kept k' stores m m' :=
  ⟨h.size, h.nonneg, fun i hi => h.byte i (Int.le_trans hk hi)⟩

/-- What is changed below an address leaves memory from there on alone. -/
theorem of_within {low : Int} (h : Memory.Within low k m m') : Kept k [] m m' :=
  ⟨h.size, fun _ hw => absurd hw List.not_mem_nil, fun i hi => h.byte i (Or.inr hi)⟩

/-- A byte that differs was written by a move. -/
theorem exists_store (h : Kept k stores m m') {i : Nat} (hi : k ≤ i) (hne : m'.byte i ≠ m.byte i) :
    ∃ w ∈ stores, w.1.toInt ≤ i ∧ i < w.1.toInt + Word.byteSize :=
  Memory.exists_of_byte_writeAll_ne h.nonneg (h.byte i hi ▸ hne)

end Kept

namespace Watched

variable {α β : Type}

@[simp]
theorem log_observed (live : List Live) (x : Watched α) (s : State) :
    (observed live x).log s = .moment live s :: x.log s := rfl

variable {x : Watched α} {f : α → Watched β} {s s' : State} {e : Stop} {a : α}

theorem log_bind_ok (h : x.run s = .ok a s') : (x >>= f).log s = x.log s ++ (f a).log s' := by
  rcases hx : x s with ⟨l, r⟩
  have hr : r = .ok a s' := by rw [run, hx] at h; exact h
  simp [log, bind, hx, hr]

theorem log_bind_error (h : x.run s = .error e s') : (x >>= f).log s = x.log s := by
  rcases hx : x s with ⟨l, r⟩
  have hr : r = .error e s' := by rw [run, hx] at h; exact h
  simp [log, bind, hx, hr]

theorem log_recorded_ok (h : x.run s = .ok a s') :
    (recorded x).log s = x.log s ++ [.returned s s' (Event.stores (x.log s))] := by
  rcases hx : x s with ⟨l, r⟩
  have hr : r = .ok a s' := by rw [run, hx] at h; exact h
  simp [log, recorded, hx, hr]

theorem log_recorded_error (h : x.run s = .error e s') : (recorded x).log s = x.log s := by
  rcases hx : x s with ⟨l, r⟩
  have hr : r = .error e s' := by rw [run, hx] at h; exact h
  simp [log, recorded, hx, hr]

/-- A computation that starts in a state with `P` and whose log is as asked has a log as
promised. If it yields a value, `Q` holds at its end, and memory from `k` on was changed
by moves only. -/
def Triple (asked promised : Event → Prop) (k : Int) (P : State → Prop) (x : Watched α)
    (Q : α → State → Prop) : Prop :=
  ∀ s, P s → (∀ e ∈ x.log s, asked e) →
    (∀ e ∈ x.log s, promised e) ∧ ∀ a s', x.run s = .ok a s' →
      Q a s' ∧ Kept k (Event.stores (x.log s)) s.memory s'.memory

namespace Triple

variable {asked promised : Event → Prop} {k : Int} {P : State → Prop} {x : Watched α}
  {Q : α → State → Prop}

/-- A computation that logs nothing is judged by its run. -/
theorem ofExec {x : Exec α}
    (h : ∀ s a s', P s → x s = .ok a s' → Q a s' ∧ Kept k [] s.memory s'.memory) :
    Triple asked promised k P (ofExec x) Q :=
  fun s hs _ => ⟨fun _ he => absurd he List.not_mem_nil, fun a s' hx => h s a s' hs hx⟩

theorem pure {a : α} (h : ∀ s, P s → Q a s) : Triple asked promised k P (pure a) Q := by
  apply Triple.ofExec
  intro s b s' hs hx
  injection hx with hb hs'
  subst hb hs'
  exact ⟨h s hs, Kept.refl _ _⟩

theorem bind {f : α → Watched β} {R : α → State → Prop} {Q : β → State → Prop}
    (hx : Triple asked promised k P x R) (hf : ∀ a, Triple asked promised k (R a) (f a) Q) :
    Triple asked promised k P (x >>= f) Q := by
  intro s hs hasked
  cases hrun : x.run s with
  | error e t =>
    rw [log_bind_error hrun] at hasked ⊢
    refine ⟨(hx s hs hasked).1, ?_⟩
    intro b s' hb
    rw [run_bind] at hb
    obtain ⟨a, t', ha, -⟩ := Exec.bind_eq_ok hb
    rw [hrun] at ha
    cases ha
  | ok a t =>
    rw [log_bind_ok hrun] at hasked ⊢
    obtain ⟨hlog, hend⟩ := hx s hs fun e he => hasked e (List.mem_append_left _ he)
    obtain ⟨hR, hkept⟩ := hend a t hrun
    obtain ⟨hlog', hend'⟩ := hf a t hR fun e he => hasked e (List.mem_append_right _ he)
    refine ⟨fun e he => (List.mem_append.1 he).elim (hlog e) (hlog' e), ?_⟩
    intro b s' hb
    rw [run_bind] at hb
    obtain ⟨a', t', ha, hb⟩ := Exec.bind_eq_ok hb
    rw [hrun] at ha
    injection ha with haa htt
    subst haa htt
    obtain ⟨hQ, hkept'⟩ := hend' b s' hb
    rw [Event.stores_append]
    exact ⟨hQ, hkept.trans hkept'⟩

theorem mono {P' : State → Prop} {Q' : α → State → Prop} {k' : Int}
    (h : Triple asked promised k P x Q) (hk : k ≤ k') (hP : ∀ s, P' s → P s)
    (hQ : ∀ a s, Q a s → Q' a s) : Triple asked promised k' P' x Q' := by
  intro s hs hasked
  obtain ⟨hlog, hend⟩ := h s (hP s hs) hasked
  refine ⟨hlog, ?_⟩
  intro a s' hx
  obtain ⟨hq, hkept⟩ := hend a s' hx
  exact ⟨hQ a s' hq, hkept.mono hk⟩

/-- A triple may be proved for each starting state apart. -/
theorem of_forall (h : ∀ s, P s → Triple asked promised k (fun t => t = s) x Q) :
    Triple asked promised k P x Q :=
  fun s hs => h s hs s rfl

/-- A moment may be noted when the promise for it holds at the start. -/
theorem observed {live : List Live} (hmoment : ∀ s, P s → promised (.moment live s))
    (h : Triple asked promised k P x Q) : Triple asked promised k P (observed live x) Q := by
  intro s hs hasked
  rw [log_observed] at hasked ⊢
  obtain ⟨hlog, hend⟩ := h s hs fun e he => hasked e (List.mem_cons_of_mem _ he)
  refine ⟨?_, hend⟩
  intro e he
  rcases List.mem_cons.1 he with rfl | he
  · exact hmoment s hs
  · exact hlog e he

/-- A return may be noted when the promise for it follows at the end. -/
theorem recorded (hreturn : ∀ s a s' stores, P s → Q a s' → Kept k stores s.memory s'.memory →
      promised (.returned s s' stores))
    (h : Triple asked promised k P x Q) : Triple asked promised k P (recorded x) Q := by
  intro s hs hasked
  cases hrun : x.run s with
  | error e t =>
    rw [log_recorded_error hrun] at hasked ⊢
    rw [run_recorded]
    exact h s hs hasked
  | ok a t =>
    rw [log_recorded_ok hrun] at hasked ⊢
    obtain ⟨hlog, hend⟩ := h s hs fun e he => hasked e (List.mem_append_left _ he)
    obtain ⟨hQ, hkept⟩ := hend a t hrun
    constructor
    · intro e he
      rcases List.mem_append.1 he with he | he
      · exact hlog e he
      · obtain rfl := List.mem_singleton.1 he
        exact hreturn s a t _ hs hQ hkept
    · intro b s' hb
      rw [run_recorded, hrun] at hb
      injection hb with hab hts
      subst hab hts
      rw [Event.stores_append, Event.stores_returned, List.append_nil]
      exact ⟨hQ, hkept⟩

end Triple

end Watched

end TreeCode
