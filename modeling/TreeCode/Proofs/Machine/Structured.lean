/-
# Structured code

Conditionals and loops are compiled into flat lists with labels and jumps. The
statements here take such lists back to their structure: a conditional evaluates its
condition and runs one of its arms, and a loop evaluates its condition and runs its
body until the condition fails.

All of them are about lists that place every label once and whose parts keep their
jumps to themselves.
-/

import TreeCode.Proofs.Machine.Loop

namespace TreeCode.Exec

open Block (Closed Embeds ofList placed)
open IR (Expr Stmt)

variable {α : Type} {setup : Setup}

/-- One piece of execution after another. -/
theorem Does.andThen {b : Block} {pc k k' : Nat} {x : Exec α} {next : α → Nat}
    {f : α → Exec Nat} (hx : Does setup k b pc (x >>= fun a => pure (next a)))
    (hf : ∀ a, Does setup k' b (next a) (f a)) : Does setup (k + k') b pc (x >>= f) where
  eq := by
    rw [hx.eq]
    simp only [bind_assoc, pure_bind, fun a => (hf a).eq]
  count s last s' hs n hn := by
    cases hxs : x s with
    | error e t =>
      rw [bind_of_error hxs] at hs
      cases hs
    | ok a t =>
      rw [bind_of_ok hxs] at hs
      have hnext : (x >>= fun a => pure (next a)) s = .ok (next a) t := bind_of_ok hxs
      obtain ⟨m, hm, hq⟩ := hx.count s (next a) t hnext n hn
      obtain ⟨m', hm', hq'⟩ := (hf a).count t last s' hs m (hq ▸ hn)
      exact ⟨m', by omega, hq'.trans hq⟩

/-- Execution that only goes to another position. -/
theorem Does.skip {b : Block} {pc j k k' : Nat} {y : Exec Nat} (h : Does setup k b pc (pure j))
    (h' : Does setup k' b j y) : Does setup (k + k') b pc y := by
  have hboth : Does setup (k + k') b pc (pure j >>= fun _ => y) := by
    refine Does.bind h fun s next s' hs => ?_
    cases hs
    exact h'
  rwa [pure_bind] at hboth

/-- Fewer instructions may be promised. -/
theorem Does.weaken {b : Block} {pc k k' : Nat} {x : Exec Nat} (h : Does setup k b pc x)
    (hk : k' ≤ k) : Does setup k' b pc x where
  eq := h.eq
  count s next s' hs n hn := by
    obtain ⟨m, hm, hq⟩ := h.count s next s' hs n hn
    exact ⟨m, by omega, hq⟩

section

variable {code : List Stmt}

theorem Does.label {i : Nat} {l : Label} (hi : code[i]? = some (.label l)) :
    Does setup 1 (ofList code) i (pure (i + 1)) := by
  have hget : (ofList code)[i]? = some (.label l) := by rw [Block.getElem?_ofList, hi]
  exact Does.instruction hget

variable (hnodup : (placed code).Nodup)

include hnodup

theorem target_eq {j : Nat} {l : Label} (hj : code[j]? = some (.label l)) :
    target (ofList code) l = pure j := by
  funext s
  exact target_of_some (Block.position?_of_nodup hnodup hj) s

theorem Does.jump {i j : Nat} {l : Label} (hi : code[i]? = some (.jump l))
    (hj : code[j]? = some (.label l)) : Does setup 1 (ofList code) i (pure j) := by
  have hget : (ofList code)[i]? = some (.jump l) := by rw [Block.getElem?_ofList, hi]
  have h : Does setup 1 (ofList code) i (target (ofList code) l) := Does.instruction hget
  rwa [target_eq hnodup hj] at h

theorem Does.cjump {i j k : Nat} {c : Expr} {t f : Label} (hi : code[i]? = some (.cjump c t f))
    (ht : code[j]? = some (.label t)) (hf : code[k]? = some (.label f)) :
    Does setup 1 (ofList code) i
      (eval setup (fullRun setup) c >>= fun v => pure (if v = 0 then k else j)) := by
  have hget : (ofList code)[i]? = some (.cjump c t f) := by rw [Block.getElem?_ofList, hi]
  have h : Does setup 1 (ofList code) i (eval setup (fullRun setup) c >>= fun v =>
      target (ofList code) (if v = 0 then f else t)) := Does.instruction hget
  have hgoal : (fun v : Word => target (ofList code) (if v = 0 then f else t)) =
      fun v => pure (if v = 0 then k else j) := by
    funext v
    split
    · exact target_eq hnodup hf
    · exact target_eq hnodup ht
  rwa [hgoal] at h

end

/-- A part of a list that keeps its jumps to itself runs as it runs alone. -/
theorem Does.part {code before part after : List Stmt} {i : Nat} (hclosed : Closed part)
    (hnodup : (placed code).Nodup) (hcode : code = before ++ part ++ after)
    (hi : before.length = i) :
    Does setup 0 (ofList code) i
      (full setup (ofList part) 0 >>= fun _ => pure (i + part.length)) := by
  subst hcode hi
  exact Does.embedded (Embeds.of_append hclosed hnodup) (Nat.zero_le _)

theorem full_part {code before part after : List Stmt} {i : Nat} (hclosed : Closed part)
    (hnodup : (placed code).Nodup) (hcode : code = before ++ part ++ after)
    (hi : before.length = i) :
    full setup (ofList code) i =
      full setup (ofList part) 0 >>= fun _ => full setup (ofList code) (i + part.length) := by
  rw [(Does.part hclosed hnodup hcode hi).eq]
  simp only [bind_assoc, pure_bind]

theorem full_label {code : List Stmt} {i : Nat} {l : Label} (hi : code[i]? = some (.label l)) :
    full setup (ofList code) i = full setup (ofList code) (i + 1) := by
  rw [(Does.label hi).eq, pure_bind]

theorem full_jump {code : List Stmt} (hnodup : (placed code).Nodup) {i j : Nat} {l : Label}
    (hi : code[i]? = some (.jump l)) (hj : code[j]? = some (.label l)) :
    full setup (ofList code) i = full setup (ofList code) j := by
  rw [(Does.jump hnodup hi hj).eq, pure_bind]

theorem full_cjump {code : List Stmt} (hnodup : (placed code).Nodup) {i j k : Nat} {c : Expr}
    {t f : Label} (hi : code[i]? = some (.cjump c t f)) (ht : code[j]? = some (.label t))
    (hf : code[k]? = some (.label f)) :
    full setup (ofList code) i = eval setup (fullRun setup) c >>= fun v =>
      if v = 0 then full setup (ofList code) k else full setup (ofList code) j := by
  rw [(Does.cjump hnodup hi ht hf).eq]
  simp only [bind_assoc, pure_bind]
  congr 1
  funext v
  split <;> rfl

/-- The code of a conditional with one arm. -/
def ifThenCode (c : Expr) (t f : Label) (arm : List Stmt) : List Stmt :=
  [.cjump c t f, .label t] ++ arm ++ [.label f]

/-- A conditional with one arm runs it if its condition holds. -/
theorem full_ifThen {c : Expr} {t f : Label} {arm : List Stmt} (harm : Closed arm)
    (hnodup : (placed (ifThenCode c t f arm)).Nodup) :
    full setup (ofList (ifThenCode c t f arm)) 0 =
      eval setup (fullRun setup) c >>= fun v =>
        if v = 0 then pure () else full setup (ofList arm) 0 := by
  have hlast : (ifThenCode c t f arm)[2 + arm.length]? = some (.label f) := by
    simp [ifThenCode, Nat.add_comm 2]
  have hend : full setup (ofList (ifThenCode c t f arm)) (2 + arm.length) = pure () := by
    rw [full_label hlast]
    exact full_of_none (by simp [ifThenCode]; omega)
  have htrue : full setup (ofList (ifThenCode c t f arm)) 1 = full setup (ofList arm) 0 := by
    refine (full_label (l := t) rfl).trans ((full_part (i := 2) harm hnodup rfl rfl).trans ?_)
    rw [hend]
    exact bind_pure_unit
  rw [full_cjump hnodup (i := 0) rfl (j := 1) rfl hlast, hend, htrue]

/-- The code of a conditional with two arms. -/
def ifElseCode (c : Expr) (t f last : Label) (thenArm elseArm : List Stmt) : List Stmt :=
  [.cjump c t f, .label t] ++ thenArm ++ ([.jump last, .label f] ++ elseArm ++ [.label last])

/-- A conditional with two arms runs one of them. -/
theorem full_ifElse {c : Expr} {t f last : Label} {thenArm elseArm : List Stmt}
    (hthen : Closed thenArm) (helse : Closed elseArm)
    (hnodup : (placed (ifElseCode c t f last thenArm elseArm)).Nodup) :
    full setup (ofList (ifElseCode c t f last thenArm elseArm)) 0 =
      eval setup (fullRun setup) c >>= fun v =>
        if v = 0 then full setup (ofList elseArm) 0 else full setup (ofList thenArm) 0 := by
  have hjump : (ifElseCode c t f last thenArm elseArm)[2 + thenArm.length]? =
      some (.jump last) := by simp [ifElseCode, Nat.add_comm 2]
  have hfalse : (ifElseCode c t f last thenArm elseArm)[thenArm.length + 3]? =
      some (.label f) := by simp [ifElseCode]
  have hlast : (ifElseCode c t f last thenArm elseArm)[thenArm.length + (elseArm.length + 2) + 2]? =
      some (.label last) := by simp [ifElseCode]
  have hend : full setup (ofList (ifElseCode c t f last thenArm elseArm))
      (thenArm.length + (elseArm.length + 2) + 2) = pure () := by
    rw [full_label hlast]
    exact full_of_none (by simp [ifElseCode]; omega)
  have htrue : full setup (ofList (ifElseCode c t f last thenArm elseArm)) 1 =
      full setup (ofList thenArm) 0 := by
    refine (full_label (l := t) rfl).trans ((full_part (i := 2) hthen hnodup rfl rfl).trans ?_)
    rw [full_jump hnodup hjump hlast, hend]
    exact bind_pure_unit
  have helse' : full setup (ofList (ifElseCode c t f last thenArm elseArm)) (thenArm.length + 3) =
      full setup (ofList elseArm) 0 := by
    have hcode : ifElseCode c t f last thenArm elseArm =
        ([.cjump c t f, .label t] ++ thenArm ++ [.jump last, .label f]) ++ elseArm ++
          [.label last] := by simp [ifElseCode]
    have hpos : thenArm.length + 4 + elseArm.length =
        thenArm.length + (elseArm.length + 2) + 2 := by
      omega
    rw [full_label hfalse, full_part helse hnodup hcode (i := thenArm.length + 4) (by simp), hpos,
      hend]
    exact bind_pure_unit
  rw [full_cjump hnodup (i := 0) rfl (j := 1) rfl hfalse, helse', htrue]

/-- The code of a loop. -/
def loopCode (c : Expr) (start body last : Label) (code : List Stmt) : List Stmt :=
  [.label start, .cjump c body last, .label body] ++ code ++ [.jump start, .label last]

/-- The instructions of one round of a loop. -/
theorem does_loop {c : Expr} {start body last : Label} {code : List Stmt} (hcode : Closed code)
    (hnodup : (placed (loopCode c start body last code)).Nodup) :
    Does setup 1 (ofList (loopCode c start body last code)) 0
      (eval setup (fullRun setup) c >>= fun v =>
        if v = 0 then pure (code.length + 5)
        else full setup (ofList code) 0 >>= fun _ => pure 0) := by
  have hjump : (loopCode c start body last code)[3 + code.length]? = some (.jump start) := by
    simp [loopCode, Nat.add_comm 3]
  have hlast : (loopCode c start body last code)[code.length + 4]? = some (.label last) := by
    simp [loopCode]
  have hround : Does setup 1 (ofList (loopCode c start body last code)) 2
      (full setup (ofList code) 0 >>= fun _ => pure 0) := by
    have hpart : Does setup (0 + 1) (ofList (loopCode c start body last code)) 3
        (full setup (ofList code) 0 >>= fun _ => pure 0) :=
      (Does.part hcode hnodup rfl rfl).andThen fun _ => Does.jump hnodup hjump rfl
    exact ((Does.label (l := body) rfl).skip hpart).weaken (by omega)
  have htest : Does setup (1 + 1) (ofList (loopCode c start body last code)) 1
      (eval setup (fullRun setup) c >>= fun v =>
        if v = 0 then pure (code.length + 5)
        else full setup (ofList code) 0 >>= fun _ => pure 0) := by
    refine (Does.cjump hnodup (j := 2) rfl rfl hlast).andThen fun v => ?_
    split
    · exact Does.label hlast
    · exact hround
  exact ((Does.label (l := start) rfl).skip htest).weaken (by omega)

/-- A loop does what its rounds do. -/
theorem loop_sim {P : State → State → Prop} {F : Exec (Option Unit)} (hF : Proper F) {c : Expr}
    {start body last : Label} {code : List Stmt} (hcode : Closed code)
    (hnodup : (placed (loopCode c start body last code)).Nodup)
    (hround : Sim P F (eval setup (fullRun setup) c >>= fun v =>
        if v = 0 then pure none else full setup (ofList code) 0 >>= fun _ => pure (some ()))
      (fun r s r' t => r = r' ∧ P s t)) :
    Sim P (forever (fun _ => F) ()) (full setup (ofList (loopCode c start body last code)) 0)
      (fun _ s _ t => P s t) := by
  have hrounds : ∀ i : Unit, RoundSim setup (fun _ => F)
      (ofList (loopCode c start body last code)) (fun _ => 0) P i := by
    refine fun _ => .inr ⟨_, does_loop hcode hnodup, ?_⟩
    -- what a round yields decides where control goes on
    have hbind := Sim.bind hround (f := pure)
      (g := fun r => pure (r.elim (code.length + 5) fun _ => 0))
      (R := fun r s next t => P s t ∧
        Resumes (ofList (loopCode c start body last code)) (fun _ => 0) next r) fun r r' => by
        rintro s t ⟨rfl, hst⟩
        cases r with
        | none => exact .ok ⟨hst, by simp [Resumes, loopCode]⟩
        | some u => exact .ok ⟨hst, rfl⟩
    have hnext : (fun v : Word => (if v = 0 then pure none
          else full setup (ofList code) 0 >>= fun _ => pure (some ())) >>= fun r =>
            pure (r.elim (code.length + 5) fun _ => 0)) =
        fun v => if v = 0 then pure (code.length + 5)
          else full setup (ofList code) 0 >>= fun _ => pure 0 := by
      funext v
      split
      · rw [pure_bind]
        rfl
      · rw [bind_assoc]
        simp only [pure_bind, Option.elim]
    rw [bind_pure, bind_assoc, hnext] at hbind
    exact hbind
  exact forever_sim (fun _ => hF) hrounds ()

end TreeCode.Exec
