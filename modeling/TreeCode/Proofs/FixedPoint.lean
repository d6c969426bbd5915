/-
# Canonical code is left alone

Canonical code is plain, and calls stand on the tops of its instructions only. Lifting has
nothing to do there: no operand runs code before its value is known, so nothing is pulled in
front of an instruction, no value is saved and no temp is drawn. `Stmt.canonical_fixed` says
so for every list of canonical instructions.

Linear code is canonical unless its chunks hide a call, so bringing code into linear form a
second time changes nothing.
-/

import TreeCode.Proofs.Canonical
import TreeCode.Proofs.IR.Obedience

namespace TreeCode.IR

/-- Instructions in canonical form: without statements inside them, with moves to memory or to
temps, and with calls on their tops only. -/
structure Stmt.CanonicalCode (code : List Stmt) : Prop where
  plain : PlainCode code
  top : TopCalls code

/-- Lifting leaves an expression as it is and draws no temp. -/
def Expr.Unmoved (e : Expr) : Prop :=
  ∀ n : Nat, e.lift n = (⟨.absent, e⟩, n)

/-- As an operand, an expression without calls is lifted like any other. -/
theorem Expr.Unmoved.operand {e : Expr} (h : e.Unmoved) (hfree : e.callFree = true) (n : Nat) :
    e.liftOperand n = (⟨.absent, e⟩, n) := by
  refine (Lifted.operand_of_not_call (fun hcall => ?_) e.lift n).trans (h n)
  cases e with
  | call f args => cases hfree
  | _ => cases hcall

/-- Values are not saved from code that does nothing. -/
theorem Lifted.before_absent (e : Expr) (n : Nat) :
    Lifted.before ⟨.absent, e⟩ .absent n = (⟨.absent, e⟩, n) :=
  rfl

/-- Expressions without calls and statements are not moved. -/
theorem Expr.unmoved_of_callFree : ∀ {e : Expr}, e.callFree = true → e.Unmoved
  | .const _, _ | .name _, _ | .temp _, _ => fun _ => rfl
  | .mem a, h => by
    have ha := (Expr.unmoved_of_callFree (e := a) h).operand h
    intro n
    change (Lifted.mk (a.liftOperand n).1.pre (.mem (a.liftOperand n).1.value),
      (a.liftOperand n).2) = _
    rw [ha n]
  | .unop op x, h => by
    have hx := (Expr.unmoved_of_callFree (e := x) h).operand h
    intro n
    change (Lifted.mk (x.liftOperand n).1.pre (.unop op (x.liftOperand n).1.value),
      (x.liftOperand n).2) = _
    rw [hx n]
  | .binop op x y, h => by
    obtain ⟨hfree, hfree'⟩ := Bool.and_eq_true_iff.1 h
    have hx := (Expr.unmoved_of_callFree hfree).operand hfree
    have hy := (Expr.unmoved_of_callFree hfree').operand hfree'
    intro n
    simp only [Expr.lift_binop, hx n, hy n, Lifted.before_absent]

/-- Operands without calls and statements are not moved. -/
theorem Expr.liftAll_of_callFree {es : List Expr} (h : es.all Expr.callFree = true) (n : Nat) :
    Expr.liftAll es n = ((.absent, es), n) := by
  induction es with
  | nil => rfl
  | cons e es ih =>
    obtain ⟨he, hes⟩ := Bool.and_eq_true_iff.1 h
    simp only [Expr.liftAll_cons, (Expr.unmoved_of_callFree he).operand he n, ih hes,
      Lifted.before_absent]

/-- A call on top keeps its place. -/
theorem Expr.unmoved_of_callOnTop {e : Expr} (h : e.callOnTop = true) : e.Unmoved := by
  cases e with
  | call f args =>
    intro n
    change (Lifted.mk (Expr.liftAll args n).1.1 (.call f (Expr.liftAll args n).1.2),
      (Expr.liftAll args n).2) = _
    rw [Expr.liftAll_of_callFree h n]
  | _ => exact Expr.unmoved_of_callFree h

namespace Stmt

/-- Lifting leaves a canonical instruction as it is. -/
theorem lift_of_canonical {s : Stmt} (hplain : s.plain = true) (htop : s.callsOnTop = true)
    (n : Nat) : s.lift n = (s, n) := by
  cases s with
  | absent | seq _ => cases hplain
  | jump _ | label _ => rfl
  | exp e =>
    change ((e.lift n).1.pre.andThen (.exp (e.lift n).1.value), (e.lift n).2) = _
    rw [Expr.unmoved_of_callOnTop htop n]
    rfl
  | cjump c t f =>
    have hc := (Expr.unmoved_of_callFree (e := c) htop).operand htop n
    change ((c.liftOperand n).1.pre.andThen (.cjump (c.liftOperand n).1.value t f),
      (c.liftOperand n).2) = _
    rw [hc]
    rfl
  | move target source =>
    cases target with
    | temp t =>
      change ((source.lift n).1.pre.andThen (.move (.temp t) (source.lift n).1.value),
        (source.lift n).2) = _
      rw [Expr.unmoved_of_callOnTop htop n]
      rfl
    | mem a =>
      obtain ⟨hfree, hfree'⟩ := Bool.and_eq_true_iff.1 htop
      have ha := (Expr.unmoved_of_callFree (e := a) hfree).operand hfree n
      have hsource := (Expr.unmoved_of_callFree hfree').operand hfree' n
      change (Expr.mem a).liftMove ⟨source, source.lift⟩ n = _
      simp only [Expr.liftMove_mem, ha, hsource, Lifted.before_absent]
      rfl
    | _ => cases hplain

/-- A plain statement is one instruction. -/
theorem flatten_of_plain {s : Stmt} (h : s.plain = true) : s.flatten = [s] := by
  cases s with
  | absent | seq _ => cases h
  | _ => rfl

namespace CanonicalCode

variable {code : List Stmt}

theorem tail {s : Stmt} (h : CanonicalCode (s :: code)) : CanonicalCode code :=
  ⟨fun t ht => h.plain t (List.mem_cons_of_mem _ ht),
    fun t ht => h.top t (List.mem_cons_of_mem _ ht)⟩

/-- Lifting canonical instructions one after the other yields the same instructions. -/
theorem liftAll (h : CanonicalCode code) (n : Nat) :
    (Stmt.liftAll code n).1.flatten = code ∧ (Stmt.liftAll code n).2 = n := by
  induction code with
  | nil => exact ⟨rfl, rfl⟩
  | cons s code ih =>
    have hplain := h.plain s List.mem_cons_self
    obtain ⟨hcode, hnext⟩ := ih h.tail
    rw [Stmt.liftAll_cons, lift_of_canonical hplain (h.top s List.mem_cons_self) n]
    refine ⟨?_, hnext⟩
    rw [flatten_andThen, flatten_of_plain hplain, hcode, List.singleton_append]

/-- The canonical instructions of canonical code are its own. -/
theorem canonical (h : CanonicalCode code) (n : Nat) : (Stmt.seq code).canonical n = (code, n) :=
  Prod.ext (h.liftAll n).1 (h.liftAll n).2

end CanonicalCode

end Stmt

theorem Chunk.canonicalAll_code (frame : Frame) (body : Stmt) (rest : List Chunk) (n : Nat) :
    Chunk.canonicalAll (.code frame body :: rest) n =
      let body' := body.canonical n
      let rest' := Chunk.canonicalAll rest body'.2
      (.code frame (.seq body'.1) :: rest'.1, rest'.2) := rfl

namespace Stmt

/-- Canonical code is a fixed point. The canonical instructions of a sequence of canonical
instructions are these instructions, and no temp is drawn; so a chunk with such a body stays
as it is, and what is drawn for the chunks behind it does not depend on it. -/
theorem canonical_fixed {code : List Stmt} (h : CanonicalCode code) (n : Nat) :
    (Stmt.seq code).canonical n = (code, n) ∧
      ∀ (frame : Frame) (rest : List Chunk),
        Chunk.canonicalAll (.code frame (.seq code) :: rest) n =
          (.code frame (.seq code) :: (Chunk.canonicalAll rest n).1,
            (Chunk.canonicalAll rest n).2) := by
  refine ⟨h.canonical n, fun frame rest => ?_⟩
  rw [Chunk.canonicalAll_code, h.canonical n]

/-- Instructions of every kind, with nested operators and with calls wherever they may stand. -/
def settled : List Stmt :=
  [.label (.ofName "L0"),
    .move (.temp ⟨5⟩) (.call (.ofName "f")
      [.const 0, .binop .add (.mem (.temp ⟨0⟩)) (.unop .neg (.temp ⟨3⟩)), .name (.ofName "S0")]),
    .move (.mem (.binop .add (.name (.ofName "x")) (.temp ⟨5⟩))) (.mem (.mem (.temp ⟨0⟩))),
    .cjump (.binop .lt (.temp ⟨5⟩) (.mem (.name (.ofName "x")))) (.ofName "L0") (.ofName "L1"),
    .label (.ofName "L1"),
    .exp (.call (.ofName "g") []),
    .exp (.binop .div (.mem (.const 8)) (.const 0)),
    .jump (.ofName "L2")]

theorem settled_fixed : CanonicalCode settled ∧ (Stmt.seq settled).canonical 6 = (settled, 6) := by
  have h : CanonicalCode settled := ⟨List.all_eq_true.1 rfl, List.all_eq_true.1 rfl⟩
  exact ⟨h, (canonical_fixed h 6).1⟩

end Stmt

/-- Chunks with canonical code stay as they are. -/
theorem Chunk.canonicalAll_of_canonical {chunks : List Chunk}
    (h : ∀ frame body, .code frame body ∈ chunks →
      ∃ code, body = .seq code ∧ Stmt.CanonicalCode code) (n : Nat) :
    Chunk.canonicalAll chunks n = (chunks, n) := by
  induction chunks with
  | nil => rfl
  | cons c rest ih =>
    have hrest := ih fun frame body hmem => h frame body (List.mem_cons_of_mem _ hmem)
    cases c with
    | data l size init =>
      change (.data l size init :: (canonicalAll rest n).1, (canonicalAll rest n).2) = _
      rw [hrest]
    | code frame body =>
      obtain ⟨code, rfl, hcode⟩ := h frame body List.mem_cons_self
      simp only [Chunk.canonicalAll_code, hcode.canonical n, hrest]

/-- Linear form is reached at once: bringing linear code into linear form again changes nothing
and draws no temp, if the moves of the chunks go to targets and none of their operands hides a
call. -/
theorem Chunk.canonicalAll_idempotent {chunks : List Chunk}
    (haimed : ∀ frame body, .code frame body ∈ chunks → body.aimed = true)
    (hopen : ∀ frame body, .code frame body ∈ chunks → body.allOpen = true) (n m : Nat) :
    Chunk.canonicalAll (Chunk.canonicalAll chunks n).1 m =
      ((Chunk.canonicalAll chunks n).1, m) := by
  refine Chunk.canonicalAll_of_canonical (fun frame code hmem => ?_) m
  obtain ⟨body, k, hbody, rfl⟩ := Chunk.mem_canonicalAll hmem
  exact ⟨_, rfl, Stmt.plain_lift (haimed frame body hbody) k,
    Stmt.topCalls_lift (haimed frame body hbody) (hopen frame body hbody) k⟩

end TreeCode.IR
