/-
# Loops

`rounds` repeats a computation that says after each round whether and where to go
on; `forever` does so without a bound on the number of rounds. Execution of a block
is such a loop, one instruction in each round.

The main statement compares a loop with a block: if each round corresponds to some
instructions of the block, at least one, then the loop corresponds to the execution
of the block. One direction follows the rounds of the loop, the other the
instructions of the block.
-/

import TreeCode.Proofs.Machine.Control

namespace TreeCode.Exec

variable {α β ι : Type}

/-- Repeat a computation until it yields nothing, at most a number of times. -/
def rounds (F : ι → Exec (Option ι)) : Nat → ι → Exec Unit
  | 0, _ => throw .outOfFuel
  | n + 1, i => do
    match ← F i with
    | none => pure ()
    | some j => rounds F n j

variable (setup : Setup) (F : ι → Exec (Option ι)) (b : Block) (i : ι) (pc : Nat)

theorem rounds_ascending : Ascending (fun n => rounds F n i) := by
  intro n
  induction n generalizing i with
  | zero => exact fun s hs => absurd rfl (hs s)
  | succ n ih =>
    refine (Below.refl (F i)).bind fun r => ?_
    cases r with
    | none => exact Below.refl _
    | some j => exact ih j

/-- Repeat a computation until it yields nothing. -/
noncomputable def forever (F : ι → Exec (Option ι)) (i : ι) : Exec Unit :=
  limit fun n => rounds F n i

theorem tends_forever : Tends (fun n => rounds F n i) (forever F i) :=
  tends_limit (rounds_ascending F i)

/-- What happens after a round. -/
noncomputable def afterRound (F : ι → Exec (Option ι)) : Option ι → Exec Unit
  | none => pure ()
  | some j => forever F j

theorem forever_eq {F : ι → Exec (Option ι)} (hF : ∀ i, Proper (F i)) (i : ι) :
    forever F i = F i >>= afterRound F := by
  refine (tends_forever F i).succ.unique ((Tends.of_proper (hF i)).bind fun r => ?_)
  cases r with
  | none => exact Tends.const (Settled.pure ())
  | some j => exact tends_forever F j

theorem rounds_succ_cases (n : Nat) (i : ι) (s : State) :
    (∃ s', F i s = .ok none s' ∧ rounds F (n + 1) i s = .ok () s') ∨
      (∃ j s', F i s = .ok (some j) s' ∧ rounds F (n + 1) i s = rounds F n j s') ∨
      ∃ e s', F i s = .error e s' ∧ rounds F (n + 1) i s = .error e s' := by
  cases hs : F i s with
  | ok r s' =>
    cases r with
    | none => exact .inl ⟨s', rfl, bind_of_ok hs⟩
    | some j => exact .inr (.inl ⟨j, s', rfl, bind_of_ok hs⟩)
  | error e s' => exact .inr (.inr ⟨e, s', rfl, bind_of_error hs⟩)

/-- Loops do more if their rounds do. -/
theorem Below.rounds {F G : ι → Exec (Option ι)} (h : ∀ i, Below (F i) (G i)) (n : Nat) (i : ι) :
    Below (rounds F n i) (Exec.rounds G n i) := by
  induction n generalizing i with
  | zero => exact Below.refl _
  | succ n ih =>
    refine (h i).bind fun r => ?_
    cases r with
    | none => exact Below.refl _
    | some j => exact ih j

/-- Loops whose rounds tend to those of another loop tend to that loop. -/
theorem Tends.rounds {F : Nat → ι → Exec (Option ι)} {G : ι → Exec (Option ι)}
    (h : ∀ i, Tends (fun n => F n i) (G i)) (i : ι) :
    Tends (fun n => rounds (F n) n i) (forever G i) where
  below n := by
    intro s hs
    have hG := Below.rounds (fun i => (h i).below n) n i s hs
    rw [(tends_forever G i).below n s (hG ▸ hs), hG]
  reached s hs := by
    -- the fuel of a round and the number of rounds grow independently of each other
    have hreach : ∀ k i s, Finished (Exec.rounds G k i s) →
        ∃ N, ∀ m, N ≤ m → ∀ q, k ≤ q → Exec.rounds (F m) q i s = Exec.rounds G k i s := by
      intro k
      induction k with
      | zero => exact fun i s hfin => absurd rfl (hfin s)
      | succ k ih =>
        intro i s hfin
        rcases rounds_succ_cases G k i s with ⟨s', hG, hr⟩ | ⟨j, s', hG, hr⟩ | ⟨e, s', hG, hr⟩
        · obtain ⟨N, hN⟩ := (h i).reached s (hG ▸ finished_ok none s')
          refine ⟨N, fun m hm q hq => ?_⟩
          obtain ⟨q, rfl⟩ : ∃ q', q = q' + 1 := ⟨q - 1, by omega⟩
          rw [hr]
          exact bind_of_ok ((hN m hm).trans hG)
        · obtain ⟨N, hN⟩ := (h i).reached s (hG ▸ finished_ok (some j) s')
          obtain ⟨M, hM⟩ := ih j s' (hr ▸ hfin)
          refine ⟨max N M, fun m hm q hq => ?_⟩
          obtain ⟨q, rfl⟩ : ∃ q', q = q' + 1 := ⟨q - 1, by omega⟩
          rw [hr, ← hM m (by omega) q (by omega)]
          exact bind_of_ok ((hN m (by omega)).trans hG)
        · have he : e ≠ .outOfFuel := finished_error_iff.1 (hr ▸ hfin)
          obtain ⟨N, hN⟩ := (h i).reached s (hG ▸ finished_error he s')
          refine ⟨N, fun m hm q hq => ?_⟩
          obtain ⟨q, rfl⟩ : ∃ q', q = q' + 1 := ⟨q - 1, by omega⟩
          rw [hr]
          exact bind_of_error ((hN m hm).trans hG)
    obtain ⟨k, hk⟩ := (tends_forever G i).reached s hs
    have hG := hk k (Nat.le_refl k)
    obtain ⟨N, hN⟩ := hreach k i s (hG ▸ hs)
    exact ⟨max N k, fun m hm => (hN m (by omega) m (by omega)).trans hG⟩
  lost := (tends_forever G i).lost

/-- One instruction of a block as a round. -/
noncomputable def instructionRound (setup : Setup) (b : Block) (pc : Nat) : Exec (Option Nat) :=
  match b[pc]? with
  | none => pure none
  | some stmt => step setup (fullRun setup) b pc stmt >>= fun next => pure (some next)

theorem proper_step (stmt : IR.Stmt) : Proper (step setup (fullRun setup) b pc stmt) :=
  ((runs_full setup).step b pc stmt).lost

theorem proper_instructionRound : Proper (instructionRound setup b pc) := by
  unfold instructionRound
  cases b[pc]? with
  | none => exact fun s hs => absurd (finished_ok _ _) hs
  | some stmt =>
    exact (Tends.bind (Tends.of_proper (proper_step setup b pc stmt))
      (f := fun _ next => pure (some next))
      fun next => Tends.const (Settled.pure (some next))).lost

/-- Execution of a block is a loop over its instructions. -/
theorem full_eq_forever : full setup b pc = forever (instructionRound setup b) pc := by
  have below : ∀ n pc, Below (rounds (instructionRound setup b) n pc) (full setup b pc) := by
    intro n
    induction n with
    | zero => exact fun pc s hs => absurd rfl (hs s)
    | succ n ih =>
      intro pc
      simp only [rounds, instructionRound]
      cases hb : b[pc]? with
      | none =>
        rw [full_of_none hb]
        exact Below.refl _
      | some stmt =>
        rw [full_of_some hb]
        simp only [bind_assoc, pure_bind]
        exact (Below.refl _).bind ih
  have agree : ∀ n pc s, Finished (quiet setup n b pc s) →
      rounds (instructionRound setup b) n pc s = quiet setup n b pc s := by
    intro n
    induction n with
    | zero => exact fun pc s hs => absurd hs not_finished_quiet_zero
    | succ n ih =>
      intro pc s hs
      simp only [rounds, instructionRound]
      cases hb : b[pc]? with
      | none =>
        simp only [quiet, hb, pure_bind]
      | some stmt =>
        simp only [bind_assoc, pure_bind]
        rcases quiet_succ_cases hb hs with ⟨next, s', hstep, hq⟩ | ⟨e, s', hstep, hq⟩
        · rw [bind_of_ok hstep, hq]
          exact ih next s' (hq ▸ hs)
        · rw [bind_of_error hstep, hq]
  refine Tends.unique (x := fun n => rounds (instructionRound setup b) n pc)
    ⟨fun n => below n pc, fun s hs => ?_, (tends_full setup b pc).lost⟩ (tends_forever _ pc)
  obtain ⟨n, hn⟩ := exists_quiet hs
  have heq := agree n pc s (hn ▸ hs)
  refine ⟨n, fun m hm => ?_⟩
  rw [(rounds_ascending _ pc).le hm s (heq ▸ hn ▸ hs), heq, hn]

section

variable {setup : Setup} {F : ι → Exec (Option ι)} {b : Block} {off : ι → Nat}
  {P : State → State → Prop}

/-- Where control is in a block after a round: outside of it when the loop ends, and
else where the next round starts. -/
def Resumes (b : Block) (off : ι → Nat) (next : Nat) : Option ι → Prop
  | none => b[next]? = none
  | some j => next = off j

/-- A round of a loop, and the instructions of a block that do the same. A round that
does nothing but end the loop needs no instruction. -/
def RoundSim (setup : Setup) (F : ι → Exec (Option ι)) (b : Block) (off : ι → Nat)
    (P : State → State → Prop) (i : ι) : Prop :=
  (F i = pure none ∧ b[off i]? = none) ∨
  ∃ y, Does setup 1 b (off i) y ∧
    Sim P (F i) y (fun r s next t => P s t ∧ Resumes b off next r)

/-- A bounded number of rounds is matched by the block. -/
theorem rounds_sim (h : ∀ i, RoundSim setup F b off P i) (n : Nat) : ∀ i s t, P s t →
    Finished (rounds F n i s) →
    Matches (fun _ s _ t => P s t) (rounds F n i s) (full setup b (off i) t) := by
  induction n with
  | zero => exact fun i s t _ hs => absurd rfl (hs s)
  | succ n ih =>
    intro i s t hst hs
    obtain ⟨hF, hend⟩ | ⟨y, hdoes, hsim⟩ := h i
    · rw [full_of_none hend, rounds, hF, pure_bind]
      exact .ok hst
    have hround := hsim s t hst
    rw [hdoes.eq]
    rcases rounds_succ_cases F n i s with ⟨s', hF, hr⟩ | ⟨j, s', hF, hr⟩ | ⟨e, s', hF, hr⟩
    · rw [hF] at hround
      cases hy : y t <;> rw [hy] at hround
      case ok next t' =>
        cases hround with
        | ok hpost =>
          rw [bind_of_ok hy, full_of_none (show b[next]? = none from hpost.2), hr]
          exact .ok hpost.1
      case error => cases hround
    · rw [hF] at hround
      cases hy : y t <;> rw [hy] at hround
      case ok next t' =>
        cases hround with
        | ok hpost =>
          rw [bind_of_ok hy, hr, show next = off j from hpost.2]
          exact ih j s' t' hpost.1 (hr ▸ hs)
      case error => cases hround
    · rw [hF] at hround
      rw [hr]
      cases hy : y t <;> rw [hy] at hround
      case ok => cases hround
      case error =>
        rw [bind_of_error hy]
        cases hround with
        | fault hc hv => exact .fault hc hv
        | defect hv => exact .defect hv
        | lost => exact .lost

/-- A bounded number of instructions is matched by the loop. -/
theorem quiet_sim (hF : ∀ i, Proper (F i)) (h : ∀ i, RoundSim setup F b off P i) (n : Nat) :
    ∀ i s t, P s t → Finished (quiet setup n b (off i) t) →
    Matches (fun _ s _ t => P s t) (forever F i s) (quiet setup n b (off i) t) := by
  -- a round takes at least one instruction, so what remains has less fuel
  induction n using Nat.strongRecOn with
  | ind n ih =>
    intro i s t hst ht
    rw [forever_eq hF]
    have hfull := full_of_finished ht
    obtain ⟨hFi, hend⟩ | ⟨y, hdoes, hsim⟩ := h i
    · rw [full_of_none hend] at hfull
      rw [hFi, pure_bind, ← hfull]
      exact .ok hst
    have hround := hsim s t hst
    rw [hdoes.eq] at hfull
    cases hy : y t with
    | error e t' =>
      rw [bind_of_error hy] at hfull
      rw [hy] at hround
      rw [← hfull]
      cases hs : F i s <;> rw [hs] at hround
      case ok => cases hround
      case error e' s' =>
        rw [bind_of_error hs]
        cases hround with
        | fault hc hv => exact .fault hc hv
        | defect hv => exact .defect hv
        | lost => exact .lost
    | ok next t' =>
      rw [hy] at hround
      obtain ⟨m, hm, hq⟩ := hdoes.count t next t' hy n ht
      cases hs : F i s <;> rw [hs] at hround
      case error => cases hround
      case ok r s' =>
        rw [bind_of_ok hs]
        cases hround with
        | ok hpost =>
          cases r with
          | none =>
            have hnext : b[next]? = none := hpost.2
            rw [bind_of_ok hy, full_of_none hnext] at hfull
            rw [← hfull]
            exact .ok hpost.1
          | some j =>
            have hnext : next = off j := hpost.2
            rw [← hq]
            rw [hnext] at hq ⊢
            exact ih m (by omega) j s' t' hpost.1 (hq ▸ ht)

/-- A loop does what a block does if each of its rounds does. -/
theorem forever_sim (hF : ∀ i, Proper (F i)) (h : ∀ i, RoundSim setup F b off P i) (i : ι) :
    Sim P (forever F i) (full setup b (off i)) (fun _ s _ t => P s t) := by
  intro s t hst
  by_cases hs : Finished (forever F i s)
  · obtain ⟨n, hn⟩ := (tends_forever F i).reached s hs
    have heq := hn n (Nat.le_refl n)
    have hmatch := rounds_sim h n i s t hst (heq ▸ hs)
    rwa [heq] at hmatch
  · by_cases ht : Finished (full setup b (off i) t)
    · obtain ⟨n, hn⟩ := exists_quiet ht
      have hmatch := quiet_sim hF h n i s t hst (hn ▸ ht)
      rwa [hn] at hmatch
    · rw [(tends_forever F i).lost s hs, full_of_not_finished ht]
      exact .lost

end

end TreeCode.Exec
