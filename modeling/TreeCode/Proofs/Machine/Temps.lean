/-
# What a computation leaves alone

`Keeps f x` says that a computation that yields a value does not change what `f`
reads from the state. The main statement is about temps: executing code keeps every
temp that the code does not assign to. Calls keep all temps of the caller, because
they restore its activation, whatever the callee does.
-/

import TreeCode.Proofs.IR.Effects
import TreeCode.Proofs.Machine.Control

namespace TreeCode.Exec

open IR (Expr Stmt)

variable {α β γ δ : Type}

/-- Where a computation yields a value, `f` reads the same before and after it. -/
def Keeps (f : State → γ) (x : Exec α) : Prop :=
  ∀ s a s', x s = .ok a s' → f s' = f s

namespace Keeps

variable {f : State → γ}

theorem pure (a : α) : Keeps f (Pure.pure a : Exec α) := by
  intro s b s' h
  cases h
  rfl

variable {x : Exec α} (setup : Setup) (addr : Word) (op : IR.Op) (frame : Frame)
  (run : Block → Exec Unit)

theorem bind {g : α → Exec β} (hx : Keeps f x) (hg : ∀ a, Keeps f (g a)) : Keeps f (x >>= g) := by
  intro s b s' h
  obtain ⟨a, t, ha, hb⟩ := bind_eq_ok h
  rw [hg a t b s' hb, hx s a t ha]

theorem comp (hx : Keeps f x) (g : γ → δ) : Keeps (fun s => g (f s)) x :=
  fun s a s' h => congrArg g (hx s a s' h)

theorem fault (c : FaultCause) : Keeps f (fault c : Exec α) := by
  intro s a s' h
  cases h

theorem defect (d : Defect) : Keeps f (defect d : Exec α) := by
  intro s a s' h
  cases h

theorem get : Keeps f (MonadState.get : Exec State) := by
  intro s a s' h
  cases h
  rfl

theorem load : Keeps f (load addr) := by
  intro s a s' h
  unfold Exec.load at h
  split at h
  · cases h
    rfl
  · cases h

theorem readTemp (t : Temp) : Keeps f (readTemp t) := by
  intro s a s' h
  unfold Exec.readTemp at h
  split at h <;> cases h <;> rfl

theorem location : Keeps f location := by
  intro s a s' h
  cases h
  rfl

theorem loadString : Keeps f (loadString addr) := by
  intro s a s' h
  unfold Exec.loadString at h
  split at h
  · split at h
    · cases h
      rfl
    · cases h
  · cases h

theorem binary (x y : Word) : Keeps f (binary op x y) := by
  cases op <;> simp only [Exec.binary] <;> try exact pure _
  case div => split <;> first | exact fault _ | exact pure _
  case mod => split <;> first | exact fault _ | exact pure _
  all_goals exact defect _

theorem unary (x : Word) : Keeps f (unary op x) := by
  cases op <;> first | exact pure _ | exact defect _

theorem followLinks : ∀ (n : Nat) (fp : Word), Keeps f (followLinks n fp)
  | 0, _ => pure _
  | n + 1, _ => bind (load _) fun _ => followLinks n _

theorem target (b : Block) (l : Label) : Keeps f (target b l) := by
  unfold Exec.target
  split
  · exact pure _
  · exact fault _

theorem reserve (count : Nat) : Keeps f (reserve setup frame count) := by
  intro s a s' h
  unfold Exec.reserve at h
  dsimp only at h
  split at h
  · cases h
  split at h
  · cases h
  split at h
  · cases h
  · cases h
    rfl

theorem store (value : Word) : Keeps State.activation (store addr value) := by
  intro s a s' h
  unfold Exec.store at h
  split at h
  · injection h with _ h
    rw [← h]
  · cases h

theorem storeAll (base : Word) : ∀ slots, Keeps State.activation (storeAll base slots)
  | [] => pure ()
  | (_, _) :: rest => bind (store _ _) fun _ => storeAll base rest

theorem setLocation (l : Location) : Keeps State.activation (setLocation l) := by
  intro s a s' h
  cases h
  rfl

theorem countCall : Keeps State.activation countCall := by
  intro s a s' h
  cases h
  rfl

theorem print (bytes : List UInt8) : Keeps State.activation (print bytes) := by
  intro s a s' h
  cases h
  rfl

/-- A built-in function keeps what printing keeps. -/
theorem builtin (hprint : ∀ bytes, Keeps f (Exec.print bytes)) (b : Builtin) (args : List Word) :
    Keeps f (b.apply args) := by
  cases b with
  | putInt =>
    cases args with
    | nil => exact defect _
    | cons n rest => exact bind (hprint _) fun _ => pure _
  | putStr =>
    cases args with
    | nil => exact defect _
    | cons addr rest => exact bind (loadString _) fun _ => bind (hprint _) fun _ => pure _
  | putNl => cases args <;> exact bind (hprint _) fun _ => pure _

/-- A call of a label without code keeps what printing and counting keep. -/
theorem provided {setup : Setup} {l : Label} (hl : setup.program.function? l = none)
    (hcount : Keeps f Exec.countCall) (hprint : ∀ bytes, Keeps f (Exec.print bytes))
    (run : Block → Exec Unit) (args : List Word) : Keeps f (Exec.call setup run l args) := by
  unfold Exec.call
  rw [hl]
  cases Builtin.ofName? l.name with
  | none => exact fault _
  | some b =>
    refine bind hcount fun _ => ?_
    cases args with
    | nil => exact defect _
    | cons _ args => exact builtin hprint _ _

theorem fill (base link : Word) (args : List Word) :
    Keeps State.activation (fill frame base link args) :=
  bind (store _ _) fun _ => bind (storeAll _ _) fun _ => bind get fun _ => store _ _

/-- A call that returns leaves its caller with the activation it had. -/
theorem invoke (f : Function) (link : Word) (args : List Word)
    : Keeps State.activation (invoke setup run f link args) := by
  intro s w s' h
  obtain ⟨base, s₁, hreserve, h⟩ := bind_eq_ok h
  obtain ⟨_, s₂, hfill, h⟩ := bind_eq_ok h
  obtain ⟨_, _, hget, h⟩ := bind_eq_ok h
  cases hget
  obtain ⟨_, _, hget, h⟩ := bind_eq_ok h
  cases hget
  obtain ⟨_, s₃, henter, h⟩ := bind_eq_ok h
  obtain ⟨_, s₄, hrun, h⟩ := bind_eq_ok h
  obtain ⟨_, _, hget, h⟩ := bind_eq_ok h
  cases hget
  obtain ⟨saved, s₅, hload, h⟩ := bind_eq_ok h
  have hreturn : s'.activation = s₂.activation := by
    cases h
    rfl
  have hreserve : s₁.activation = s.activation := reserve _ _ _ s _ s₁ hreserve
  rw [hreturn, fill _ _ _ _ s₁ _ s₂ hfill, hreserve]

theorem call (l : Label) (args : List Word) : Keeps State.activation (call setup run l args) := by
  cases hl : setup.program.function? l with
  | some f =>
    rw [Exec.call, hl]
    cases args with
    | nil => exact defect _
    | cons hops args => exact bind get fun _ => bind (followLinks _ _) fun _ => invoke _ _ _ _ _
  | none => exact provided hl countCall print run args

end Keeps

/-- The value of a temp of the running activation. -/
abbrev tempValue (t : Temp) (s : State) : Word :=
  s.activation.temps.get t

section

variable {setup : Setup} {run : Block → Exec Unit} {t : Temp}

theorem keeps_writeTemp {u : Temp} (h : u ≠ t) (w : Word) :
    Keeps (tempValue t) (writeTemp u w) := by
  intro s a s' hs
  cases hs
  simp only [tempValue, Temps.get_set, if_neg h.symm]

theorem Keeps.tempValue {x : Exec α} (h : Keeps State.activation x) : Keeps (tempValue t) x :=
  h.comp fun a => a.temps.get t

variable (hrun : ∀ s : Stmt, .assign t ∉ s.effects → Keeps (tempValue t) (run (.ofStmt s)))
include hrun

-- lists need `hrun` through their members only
set_option linter.unusedSectionVars false in
mutual

/-- Evaluation keeps every temp that the expression does not assign to. -/
theorem eval_keeps : ∀ e : Expr, .assign t ∉ e.effects → Keeps (tempValue t) (eval setup run e)
  | .const _, _ => .pure _
  | .name l, _ => by
    unfold eval
    cases setup.program.address? l with
    | some _ => exact .pure _
    | none => exact .fault _
  | .temp _, _ => .readTemp _
  | .mem a, h => .bind (eval_keeps a h) fun _ => .load _
  | .unop _ x, h => .bind (eval_keeps x h) fun _ => .unary _ _
  | .binop _ x y, h => by
    rw [Expr.effects, List.mem_append, not_or] at h
    exact .bind (eval_keeps x h.1) fun _ => .bind (eval_keeps y h.2) fun _ => .binary _ _ _
  | .call f args, h => by
    rw [Expr.effects, List.mem_append, not_or] at h
    exact .bind (evalAll_keeps args h.1) fun _ => (Keeps.call _ _ _ _).tempValue
  | .eseq s e, h => by
    rw [Expr.effects, List.mem_append, not_or] at h
    exact .bind .location fun _ => .bind (hrun s h.1) fun _ =>
      .bind (Keeps.setLocation _).tempValue fun _ => eval_keeps e h.2

theorem evalAll_keeps : ∀ es : List Expr, .assign t ∉ Expr.effectsAll es →
    Keeps (tempValue t) (evalAll setup run es)
  | [], _ => .pure _
  | e :: es, h => by
    rw [Expr.effectsAll, List.mem_append, not_or] at h
    exact .bind (eval_keeps e h.1) fun _ => .bind (evalAll_keeps es h.2) fun _ => .pure _

end

theorem move_keeps (d e : Expr) (h : .assign t ∉ (Stmt.move d e).effects) :
    Keeps (tempValue t) (move setup run d e) := by
  cases d with
  | temp u =>
    rw [Stmt.effects, Expr.moveEffects, List.mem_append, not_or, List.mem_singleton] at h
    have hne : u ≠ t := fun heq => h.2 (congrArg _ heq.symm)
    by_cases hu : u = Temp.fp
    · simp only [move, if_pos hu]
      exact .defect _
    · simp only [move, if_neg hu]
      exact .bind (eval_keeps hrun e h.1) fun _ => keeps_writeTemp hne _
  | mem a =>
    rw [Stmt.effects, Expr.moveEffects, List.mem_append, List.mem_append, not_or, not_or] at h
    exact .bind (eval_keeps hrun a h.1.1) fun _ => .bind (eval_keeps hrun e h.1.2) fun _ =>
      (Keeps.store _ _).tempValue
  | _ => exact .defect _

theorem step_keeps (b : Block) (pc : Nat) (stmt : Stmt) (h : .assign t ∉ stmt.effects) :
    Keeps (tempValue t) (step setup run b pc stmt) := by
  cases stmt with
  | label _ => exact .pure _
  | jump _ => exact .target _ _
  | cjump c _ _ =>
    rw [Stmt.effects, List.mem_append, not_or] at h
    exact .bind (eval_keeps hrun c h.1) fun _ => .target _ _
  | move d e => exact .bind (move_keeps hrun d e h) fun _ => .pure _
  | exp e => exact .bind (eval_keeps hrun e h) fun _ => .pure _
  | seq _ | absent => exact .defect _

end

variable (setup : Setup) {t : Temp}

theorem quiet_keeps (n : Nat) : ∀ (code : List Stmt) (pc : Nat),
    .assign t ∉ Stmt.effectsAll code →
    Keeps (tempValue t) (quiet setup n (Block.ofList code) pc) := by
  induction n with
  | zero =>
    intro code pc _ s a s' h
    cases h
  | succ n ih =>
    intro code pc hcode
    simp only [quiet, Block.getElem?_ofList]
    cases hget : code[pc]? with
    | none => exact .pure _
    | some stmt =>
      have hrun : ∀ s : Stmt, .assign t ∉ s.effects →
          Keeps (tempValue t) (quiet setup n (.ofStmt s) 0) := by
        intro s hs
        rw [← Stmt.effectsAll_flatten] at hs
        exact ih s.flatten 0 hs
      have hstmt : .assign t ∉ stmt.effects :=
        fun hmem => hcode (Stmt.mem_effectsAll (List.mem_of_getElem? hget) hmem)
      exact .bind (step_keeps hrun _ _ _ hstmt) fun next => ih code next hcode

theorem keeps_activation_start (pc : Nat) (stmt : Stmt) :
    Keeps State.activation (start setup pc stmt) := by
  intro s a s' h
  cases h
  split <;> rfl

theorem block_keeps (fuel : Nat) : ∀ (b : Block) (pc : Nat),
    .assign t ∉ Stmt.effectsAll b.toList → Keeps (tempValue t) (block setup fuel b pc) := by
  induction fuel with
  | zero =>
    intro b pc _ s a s' h
    cases h
  | succ fuel ih =>
    intro b pc hb
    rw [block]
    cases hget : b[pc]? with
    | none => exact .pure _
    | some stmt =>
      have hrun : ∀ s : Stmt, .assign t ∉ s.effects →
          Keeps (tempValue t) (block setup fuel (.ofStmt s) 0) := by
        intro s hs
        rw [← Stmt.effectsAll_flatten] at hs
        exact ih (.ofStmt s) 0 hs
      have hstmt : .assign t ∉ stmt.effects :=
        fun hmem => hb (Stmt.mem_effectsAll (Array.mem_of_getElem? hget).val hmem)
      exact .bind (keeps_activation_start _ _ _).tempValue fun _ =>
        .bind (step_keeps hrun _ _ _ hstmt) fun next => ih b next hb

/-- Executing code keeps every temp that the code does not assign to. -/
theorem full_keeps {code : List Stmt} (h : .assign t ∉ Stmt.effectsAll code) (pc : Nat) :
    Keeps (tempValue t) (full setup (Block.ofList code) pc) := by
  intro s a s' hs
  obtain ⟨n, hn⟩ := exists_quiet (hs ▸ finished_ok a s')
  exact quiet_keeps setup n code pc h s a s' (hn.trans hs)

end TreeCode.Exec
