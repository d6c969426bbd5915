/-
# Computations that do alike

`Sim` compares two computations from states that are related. Where what is known about
the activations is an equivalence, so is the comparison, but for one thing: a computation
need not do as it does itself, since it may look at what the view leaves out. Execution
never does. With enough fuel it depends on the view and on the temps of its activation,
and calls depend on the view alone.

`EndsAlike` says the same of two families of computations with growing fuel, started in
one state: both end or neither does, and all their ends look alike.
-/

import TreeCode.Proofs.Machine.Relation

namespace TreeCode.Exec

variable {α β γ : Type}

variable (setup : Setup) {Q : α → State → β → State → Prop}

theorem Matches.symm {x y} (h : Matches Q x y) : Matches (fun b t a s => Q a s b t) y x := by
  cases h with
  | ok h => exact .ok h
  | fault hc hv => exact .fault hc.symm hv.symm
  | defect hv => exact .defect hv.symm
  | lost => exact .lost

theorem Matches.trans {R : β → State → γ → State → Prop} {T : α → State → γ → State → Prop} {x y z}
    (h : Matches Q x y) (h' : Matches R y z) (hT : ∀ a s b t c u, Q a s b t → R b t c u → T a s c u)
    : Matches T x z := by
  cases h with
  | ok h =>
    cases h' with
    | ok h' => exact .ok (hT _ _ _ _ _ _ h h')
  | fault hc hv =>
    cases h' with
    | fault hc' hv' => exact .fault (hc.trans hc') (hv.trans hv')
  | defect hv =>
    cases h' with
    | defect hv' => exact .defect (hv.trans hv')
  | lost =>
    cases h' with
    | lost => exact .lost

section

variable {A : Activation → Activation → Prop} (hA : Equivalence A) {d : Nat}

include hA

theorem Rel.symm {s t : State} (h : Rel A d s t) : Rel A d t s :=
  ⟨h.view.symm, h.view.depth.symm.trans h.depth, hA.symm h.activation⟩

theorem Rel.trans {s t u : State} (h : Rel A d s t) (h' : Rel A d t u) : Rel A d s u :=
  ⟨h.view.trans h'.view, h.depth, hA.trans h.activation h'.activation⟩

theorem Sim.symm {x y : Exec α} (h : Sim (Rel A d) x y (Same A d)) :
    Sim (Rel A d) y x (Same A d) := by
  intro s t hst
  apply (h t s (hst.symm hA)).symm.mono
  rintro a s' b t' ⟨rfl, hrel⟩
  exact ⟨rfl, hrel.symm hA⟩

theorem Sim.trans {x y z : Exec α} (h : Sim (Rel A d) x y (Same A d))
    (h' : Sim (Rel A d) y z (Same A d)) : Sim (Rel A d) x z (Same A d) := by
  intro s t hst
  have ht : Rel A d t t := (hst.symm hA).trans hA hst
  apply (h s t hst).trans (h' t t ht)
  rintro a s' b t' c u ⟨rfl, hleft⟩ ⟨rfl, hright⟩
  exact ⟨rfl, hleft.trans hA hright⟩

end

/-- What holds with any amount of fuel holds with enough of it. -/
theorem Sim.of_tends {P : State → State → Prop} {x : Nat → Exec α} {y : Nat → Exec β} {x' : Exec α}
    {y' : Exec β} (hx : Tends x x') (hy : Tends y y') (h : ∀ n, Sim P (x n) (y n) Q)
    : Sim P x' y' Q := by
  intro s t hst
  by_cases hs : Finished (x' s)
  · obtain ⟨n, hn⟩ := hx.reached s hs
    have hxn : x n s = x' s := hn n (Nat.le_refl n)
    have hmatch := h n s t hst
    rw [hxn] at hmatch
    rw [hy.below n t (hmatch.finished_iff.1 hs)]
    exact hmatch
  by_cases ht : Finished (y' t)
  · obtain ⟨n, hn⟩ := hy.reached t ht
    have hyn : y n t = y' t := hn n (Nat.le_refl n)
    have hmatch := h n s t hst
    rw [hyn] at hmatch
    have hfin := hmatch.finished_iff.2 ht
    rw [← hx.below n s hfin] at hfin
    exact absurd hfin hs
  · rw [hx.lost s hs, hy.lost t ht]
    exact .lost

section

variable (setup : Setup)

/-- Execution depends on the view and on the temps only. -/
theorem quiet_sim_self (n d : Nat) (b : Block) (pc : Nat) :
    Sim (Rel Eq d) (quiet setup n b pc) (quiet setup n b pc) (Same Eq d) := by
  have hequal : Equivalence (Eq : Activation → Activation → Prop) :=
    ⟨Eq.refl, Eq.symm, Eq.trans⟩
  have hblock := block_sim_quiet setup n d b pc
  exact (hblock.symm hequal).trans hequal hblock

theorem full_sim_self (d : Nat) (b : Block) (pc : Nat) :
    Sim (Rel Eq d) (full setup b pc) (full setup b pc) (Same Eq d) :=
  Sim.of_tends (tends_full setup b pc) (tends_full setup b pc) fun n =>
    quiet_sim_self setup n d b pc

/-- Calls depend on the view only: the callee has temps of its own. -/
theorem Neutral.call (l : Label) (args : List Word) :
    Neutral (call setup (fullRun setup) l args) := by
  intro A d
  have hbody : ∀ f : Function, Sim (Rel Eq (d + 1)) (fullRun setup f.body)
      (fullRun setup f.body) (fun _ s _ t => Rel Eq (d + 1) s t) := fun f =>
    (full_sim_self setup (d + 1) f.body 0).mono (fun _ _ h => h) fun _ _ _ _ h => h.2
  exact call_sim (B := Eq) (Setup.Alike.refl setup) (fun _ => rfl) (fun _ _ h => by rw [h]) l
    (SameCallee.refl (fun f _ => hbody f) setup.program l) args

end

/-- Two outcomes that look alike, whatever their values. -/
abbrev LooksAlike : EStateM.Result Stop State α → EStateM.Result Stop State β → Prop :=
  Matches fun _ s _ t => SameView s t

/-- Two computations with growing fuel, started in one state: both end or neither does,
and wherever they end it looks alike. -/
structure EndsAlike (x : Nat → Exec α) (y : Nat → Exec β) (s : State) : Prop where
  ends_iff : (∃ n, Finished (x n s)) ↔ ∃ n, Finished (y n s)
  alike : ∀ n m, Finished (x n s) → Finished (y m s) → LooksAlike (x n s) (y m s)

namespace EndsAlike

/-- Computations end alike if they do with enough fuel. -/
theorem of_tends {x : Nat → Exec α} {y : Nat → Exec β} {x' : Exec α} {y' : Exec β}
    (hx : Tends x x') (hy : Tends y y') {s : State} (h : LooksAlike (x' s) (y' s)) :
    EndsAlike x y s where
  ends_iff := by
    constructor
    · rintro ⟨n, hn⟩
      have hy' : Finished (y' s) := h.finished_iff.1 ((hx.below n s hn).symm ▸ hn)
      obtain ⟨m, hm⟩ := hy.reached s hy'
      exact ⟨m, (hm m (Nat.le_refl m)).symm ▸ hy'⟩
    · rintro ⟨n, hn⟩
      have hx' : Finished (x' s) := h.finished_iff.2 ((hy.below n s hn).symm ▸ hn)
      obtain ⟨m, hm⟩ := hx.reached s hx'
      exact ⟨m, (hm m (Nat.le_refl m)).symm ▸ hx'⟩
  alike n m hn hm := by
    rw [← hx.below n s hn, ← hy.below m s hm]
    exact h

/-- Computations that look alike step for step end alike where the others do. -/
theorem congr {x x' : Nat → Exec α} {y y' : Nat → Exec β} {s : State} (h : EndsAlike x' y' s)
    (hx : ∀ n, LooksAlike (x n s) (x' n s)) (hy : ∀ n, LooksAlike (y n s) (y' n s)) :
    EndsAlike x y s where
  ends_iff := by
    simp only [(hx _).finished_iff, (hy _).finished_iff]
    exact h.ends_iff
  alike n m hn hm := by
    have hmiddle := h.alike n m ((hx n).finished_iff.1 hn) ((hy m).finished_iff.1 hm)
    have hleft : LooksAlike (x n s) (y' m s) :=
      (hx n).trans hmiddle fun _ _ _ _ _ _ h h' => h.trans h'
    exact hleft.trans (hy m).symm fun _ _ _ _ _ _ h h' => h.trans h'.symm

end EndsAlike

theorem tends_eval (e : IR.Expr) :
    Tends (fun n => eval setup (fun b => quiet setup n b 0) e) (eval setup (fullRun setup) e) :=
  (runs_full setup).eval e

/-- Runs of a statement and evaluations of an expression end alike if they do with enough
fuel. -/
theorem endsAlike_of_full {st : IR.Stmt} {e : IR.Expr} {s : State}
    (h : LooksAlike (full setup (.ofStmt st) 0 s) (eval setup (fullRun setup) e s)) :
    EndsAlike (fun n => block setup n (.ofStmt st) 0)
      (fun n => eval setup (fun b => block setup n b 0) e) s := by
  have hs : Rel Eq s.depth s s := ⟨.refl s, rfl, rfl⟩
  have hview : ∀ {δ : Type} {x y : EStateM.Result Stop State δ},
      Matches (Same Eq s.depth) x y → LooksAlike x y :=
    fun hmatch => hmatch.mono fun _ _ _ _ h => h.2.view
  have hquiet : EndsAlike (fun n => quiet setup n (.ofStmt st) 0)
      (fun n => eval setup (fun b => quiet setup n b 0) e) s :=
    .of_tends (tends_full setup (.ofStmt st) 0) (tends_eval setup e) h
  apply hquiet.congr
  · exact fun n => hview (block_sim_quiet setup n s.depth (.ofStmt st) 0 s s hs)
  · exact fun n => hview ((runs_quiet setup n s.depth).eval e s s hs)

end TreeCode.Exec
