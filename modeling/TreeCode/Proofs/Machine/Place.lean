/-
# Places

The place of an address expression is what it evaluates to: a word that depends on the
frame pointer and on memory only. Evaluating an address changes nothing.
-/

import TreeCode.Proofs.IR.Flow
import TreeCode.Proofs.Machine.Stack

namespace TreeCode

open IR (Expr)

/-- The value of an address expression in a frame. -/
def IR.Expr.place (p : Program) (fp : Word) (m : Memory) : Expr → Word
  | .const n => n
  | .name l => (p.address? l).getD 0
  | .temp _ => fp
  | .mem a => m.readWord (a.place p fp m)
  | .binop _ x y => x.place p fp m + y.place p fp m
  | _ => 0

/-- Whether a word is the place of an address, if that is known. -/
def IR.Expr.StandsFor (p : Program) (fp : Word) (m : Memory) (e : Option Expr) (w : Word) : Prop :=
  ∀ q, e = some q → w = q.place p fp m

namespace Exec

variable {setup : Setup} {run : Block → Exec Unit} {s' : State} {v : Word}

/-- An address evaluates to its place. -/
theorem eval_address : ∀ {e : Expr} {v : Word} {s s' : State}, e.isAddress = true →
    eval setup run e s = .ok v s' → s' = s ∧ v = e.place setup.program s.fp s.memory
  | .const n, _, s, _, _, h => by
    cases h
    exact ⟨rfl, rfl⟩
  | .name l, _, s, _, _, h => by
    simp only [eval] at h
    rw [Expr.place]
    cases haddr : setup.program.address? l with
    | none =>
      rw [haddr] at h
      cases h
    | some addr =>
      rw [haddr] at h
      cases h
      exact ⟨rfl, rfl⟩
  | .temp t, _, s, _, ht, h => by
    rw [Expr.isAddress, beq_iff_eq] at ht
    simp only [eval, readTemp, if_pos ht] at h
    cases h
    exact ⟨rfl, rfl⟩
  | .mem a, _, s, _, ha, h => by
    obtain ⟨addr, t, heval, hload⟩ := bind_eq_ok h
    obtain ⟨ht, haddr⟩ := eval_address (e := a) ha heval
    subst ht haddr
    exact load_eq_ok hload
  | .binop op x y, _, s, _, hxy, h => by
    rw [Expr.isAddress, Bool.and_eq_true, Bool.and_eq_true, beq_iff_eq] at hxy
    obtain ⟨rfl, hxy⟩ := hxy
    obtain ⟨u, t, hx, h⟩ := bind_eq_ok h
    obtain ⟨ht, hu⟩ := eval_address hxy.1 hx
    obtain ⟨w, t', hy, h⟩ := bind_eq_ok h
    obtain ⟨ht', hw⟩ := eval_address hxy.2 hy
    subst ht ht' hu hw
    cases h
    exact ⟨rfl, rfl⟩
  | .unop _ _, _, _, _, h, _ | .call _ _, _, _, _, h, _ | .eseq _ _, _, _, _, h, _ => nomatch h

/-- An expression that is seen to be constant has that value. -/
theorem eval_constant {c : Word} : ∀ {e : Expr} {s : State}, e.constant? = some c →
    eval setup run e s = .ok v s' → v = c
  | .const _, _, hc, h => by
    cases h
    exact Option.some.inj hc
  | .eseq _ e, _, hc, h => by
    obtain ⟨_, _, _, h⟩ := bind_eq_ok h
    obtain ⟨_, _, _, h⟩ := bind_eq_ok h
    obtain ⟨_, _, _, h⟩ := bind_eq_ok h
    exact eval_constant (e := e) hc h
  | .name _, _, hc, _ | .temp _, _, hc, _ | .mem _, _, hc, _ | .binop _ _ _, _, hc, _
  | .unop _ _, _, hc, _ | .call _ _, _, hc, _ => nomatch hc

end Exec

end TreeCode
