/-
# Plain code

Plain code has no statement inside an expression, and its moves go to memory or to
temps. Lifting makes plain code of every tree whose moves are aimed at places that can
be stored to: a temp, memory, or either of these after some statements. Moves to anything
else are left as they stand, so that the code for other trees is plain but for these; such
code is *linear*.

Nothing is said here about calls; where they stand in lifted code is the subject of
`TreeCode.Proofs.Canonical`.
-/

import TreeCode.Proofs.IR.Effects

namespace TreeCode.IR

mutual

/-- Whether no statement stands inside an expression. -/
def Expr.plain : Expr → Bool
  | .const _ => true
  | .name _ => true
  | .temp _ => true
  | .mem a => a.plain
  | .binop _ x y => x.plain && y.plain
  | .unop _ x => x.plain
  | .call _ args => Expr.plainAll args
  | .eseq _ _ => false

/-- Whether no statement stands inside the expressions of a list. -/
def Expr.plainAll : List Expr → Bool
  | [] => true
  | e :: es => e.plain && Expr.plainAll es

end

namespace Tally

variable {α : Type} (T : Tally α) (a : α)

mutual

/-- What is read off a plain expression is read off the temps and the calls in it. -/
theorem of_plain : ∀ {e : Expr}, e.plain = true → a ∈ T.expr e →
    (∃ t, a ∈ T.read t) ∨ ∃ f first, a ∈ T.call f first
  | .const _, _, ha | .name _, _, ha => by
    rw [T.expr_of_isFixed rfl] at ha
    cases ha
  | .temp t, _, ha => .inl ⟨t, T.expr_temp t ▸ ha⟩
  | .mem x, h, ha => of_plain (e := x) h (T.expr_mem x ▸ ha)
  | .unop op x, h, ha => of_plain (e := x) h (T.expr_unop op x ▸ ha)
  | .binop op x y, h, ha => by
    rw [Expr.plain, Bool.and_eq_true] at h
    rw [T.expr_binop, List.mem_append] at ha
    exact ha.elim (of_plain h.1) (of_plain h.2)
  | .call f args, h, ha => by
    rw [T.expr_call, List.mem_append] at ha
    exact ha.elim (of_plainAll h) fun ha => .inr ⟨f, _, ha⟩

theorem of_plainAll : ∀ {es : List Expr}, Expr.plainAll es = true → a ∈ T.exprs es →
    (∃ t, a ∈ T.read t) ∨ ∃ f first, a ∈ T.call f first
  | [], _, ha => by
    rw [T.exprs_nil] at ha
    cases ha
  | e :: es, h, ha => by
    rw [Expr.plainAll, Bool.and_eq_true] at h
    rw [T.exprs_cons, List.mem_append] at ha
    exact ha.elim (of_plain h.1) (of_plainAll h.2)

end

end Tally

/-- Whether a statement is an instruction with plain expressions, and moves to memory
or to a temp if it moves. -/
def Stmt.plain : Stmt → Bool
  | .exp e => e.plain
  | .move (.temp _) e => e.plain
  | .move (.mem a) e => a.plain && e.plain
  | .move _ _ => false
  | .cjump c _ _ => c.plain
  | .jump _ => true
  | .label _ => true
  | .seq _ => false
  | .absent => false

/-- Instructions without blocks inside them. -/
def Stmt.PlainCode (code : List Stmt) : Prop :=
  ∀ s ∈ code, s.plain = true

/-- Whether an expression is a temp or memory, apart from statements before it. -/
def Expr.isTarget : Expr → Bool
  | .temp _ => true
  | .mem _ => true
  | .eseq _ e => e.isTarget
  | _ => false

mutual

/-- Whether every move inside an expression goes to a target. -/
def Expr.aimed : Expr → Bool
  | .const _ => true
  | .name _ => true
  | .temp _ => true
  | .mem a => a.aimed
  | .binop _ x y => x.aimed && y.aimed
  | .unop _ x => x.aimed
  | .call _ args => Expr.aimedAll args
  | .eseq s e => s.aimed && e.aimed

/-- Whether every move inside the expressions of a list goes to a target. -/
def Expr.aimedAll : List Expr → Bool
  | [] => true
  | e :: es => e.aimed && Expr.aimedAll es

/-- Whether every move inside a statement goes to a target. -/
def Stmt.aimed : Stmt → Bool
  | .absent => true
  | .exp e => e.aimed
  | .move d e => d.isTarget && d.aimed && e.aimed
  | .seq ss => Stmt.aimedAll ss
  | .cjump c _ _ => c.aimed
  | .jump _ => true
  | .label _ => true

/-- Whether every move inside the statements of a list goes to a target. -/
def Stmt.aimedAll : List Stmt → Bool
  | [] => true
  | s :: ss => s.aimed && Stmt.aimedAll ss

end

/-- A property of all plain instructions, and of moves to no target if there may be any.
Statements in front of such a target are lifted out of it. -/
structure Stmt.Covers (S : Stmt → Prop) (stray : Prop) : Prop where
  plain : ∀ {s : Stmt}, s.plain = true → S s
  stray : stray → ∀ {d e : Expr}, d.isTarget = false → (∀ s d', d ≠ .eseq s d') → S (.move d e)

/-- Lifted code whose instructions have a property. Its value is plain. -/
structure Lifted.Meets (S : Stmt → Prop) (x : Lifted) : Prop where
  pre : ∀ i ∈ x.pre.flatten, S i
  value : x.value.plain = true

/-- Lifted code without blocks inside it. -/
structure Lifted.Plain (x : Lifted) : Prop where
  pre : Stmt.PlainCode x.pre.flatten
  value : x.value.plain = true

section

variable {S : Stmt → Prop} {stray : Prop}

theorem Stmt.forall_mem_andThen {a b : Stmt} (ha : ∀ i ∈ a.flatten, S i)
    (hb : ∀ i ∈ b.flatten, S i) : ∀ i ∈ (a.andThen b).flatten, S i := by
  intro i hi
  rw [Stmt.flatten_andThen] at hi
  rcases List.mem_append.1 hi with h | h
  · exact ha i h
  · exact hb i h

/-- Code that ends in a plain instruction. -/
theorem Stmt.Covers.andThen (hS : Covers S stray) {a s : Stmt} (ha : ∀ i ∈ a.flatten, S i)
    (hs : s.plain = true) : ∀ i ∈ (a.andThen s).flatten, S i := by
  apply Stmt.forall_mem_andThen ha
  intro i hi
  have hflat : s.flatten = [s] := by
    cases s with
    | seq _ | absent => cases hs
    | _ => rfl
  rw [hflat] at hi
  cases List.mem_singleton.1 hi
  exact hS.plain hs

/-- A move to no target is left as it stands. -/
theorem Stmt.Covers.strayMove (hS : Covers S stray) {d e : Expr} (hd : d.isTarget = false)
    (hbare : ∀ s d', d ≠ .eseq s d') (h : stray ∨ d.isTarget = true ∧ d.aimed = true) :
    ∀ i ∈ (Stmt.move d e).flatten, S i := by
  intro i hi
  cases List.mem_singleton.1 hi
  rcases h with h | h
  · exact hS.stray h hd hbare
  · rw [hd] at h
    cases h.1

namespace Lifted

theorem Meets.operand (hS : Stmt.Covers S stray) {e : Expr} {lifted : Fresh Lifted}
    (h : ∀ n, (lifted n).1.Meets S) (n : Nat) : (Lifted.operand e lifted n).1.Meets S := by
  by_cases hcall : e.isCall = true
  · rw [operand_of_call hcall]
    exact ⟨hS.andThen (h (n + 1)).pre (h (n + 1)).value, rfl⟩
  · rw [operand_of_not_call hcall]
    exact h n

theorem Meets.before (hS : Stmt.Covers S stray) {x : Lifted} {later : Stmt} (hx : x.Meets S)
    (hlater : ∀ i ∈ later.flatten, S i) (n : Nat) : (x.before later n).1.Meets S := by
  by_cases hcomm : later.commutes x.value = true
  · rw [before_of_commutes hcomm]
    exact ⟨Stmt.forall_mem_andThen hx.pre hlater, hx.value⟩
  · rw [before_of_not_commutes hcomm]
    exact ⟨Stmt.forall_mem_andThen (hS.andThen hx.pre hx.value) hlater, rfl⟩

end Lifted

mutual

theorem Expr.meets_lift (hS : Stmt.Covers S stray) : ∀ {e : Expr}, stray ∨ e.aimed = true →
    ∀ n, (e.lift n).1.Meets S
  | .const _, _, _ | .name _, _, _ | .temp _, _, _ => ⟨by rintro _ ⟨⟩, rfl⟩
  | .mem a, h, n => by
    have ha := Lifted.Meets.operand hS (e := a) (Expr.meets_lift hS (e := a) h) n
    exact ⟨ha.pre, ha.value⟩
  | .unop _ x, h, n => by
    have hx := Lifted.Meets.operand hS (e := x) (Expr.meets_lift hS (e := x) h) n
    exact ⟨hx.pre, hx.value⟩
  | .binop op x y, h, n => by
    rw [Expr.aimed, Bool.and_eq_true] at h
    have hx := Lifted.Meets.operand hS (e := x)
      (Expr.meets_lift hS (e := x) (h.imp_right And.left)) n
    have hy := Lifted.Meets.operand hS (e := y)
      (Expr.meets_lift hS (e := y) (h.imp_right And.right)) (x.liftOperand n).2
    have hz := hx.before hS hy.pre (y.liftOperand (x.liftOperand n).2).2
    rw [Expr.lift_binop]
    exact ⟨hz.pre, Bool.and_eq_true_iff.2 ⟨hz.value, hy.value⟩⟩
  | .call _ args, h, n =>
    ⟨(Expr.meets_liftAll hS (l := args) h n).1, (Expr.meets_liftAll hS (l := args) h n).2⟩
  | .eseq s e, h, n => by
    rw [Expr.aimed, Bool.and_eq_true] at h
    have hs := Stmt.meets_lift hS (h.imp_right And.left) n
    have he := Expr.meets_lift hS (e := e) (h.imp_right And.right) (s.lift n).2
    exact ⟨Stmt.forall_mem_andThen hs he.pre, he.value⟩

theorem Expr.meets_liftAll (hS : Stmt.Covers S stray) : ∀ {l : List Expr},
    stray ∨ Expr.aimedAll l = true → ∀ n,
    (∀ i ∈ (Expr.liftAll l n).1.1.flatten, S i) ∧ Expr.plainAll (Expr.liftAll l n).1.2 = true
  | [], _, _ => ⟨by rintro _ ⟨⟩, rfl⟩
  | e :: es, h, n => by
    rw [Expr.aimedAll, Bool.and_eq_true] at h
    have he := Lifted.Meets.operand hS (e := e)
      (Expr.meets_lift hS (e := e) (h.imp_right And.left)) n
    have hes := Expr.meets_liftAll hS (h.imp_right And.right) (e.liftOperand n).2
    have hz := he.before hS hes.1 (Expr.liftAll es (e.liftOperand n).2).2
    rw [Expr.liftAll_cons]
    exact ⟨hz.pre, Bool.and_eq_true_iff.2 ⟨hz.value, hes.2⟩⟩

/-- Whatever its target, a move is lifted to proper code if its source is. -/
theorem Expr.meets_liftMove (hS : Stmt.Covers S stray) {s : MoveSource}
    (hsource : ∀ n, (s.lifted n).1.Meets S) : ∀ {d : Expr},
    stray ∨ d.isTarget = true ∧ d.aimed = true → ∀ n, ∀ i ∈ (d.liftMove s n).1.flatten, S i
  | .temp t, _, n => hS.andThen (s := .move (.temp t) _) (hsource n).pre (hsource n).value
  | .mem a, h, n => by
    have ha := Lifted.Meets.operand hS (e := a)
      (Expr.meets_lift hS (e := a) (h.imp_right And.right)) n
    have hv := Lifted.Meets.operand hS (e := s.plain) hsource (a.liftOperand n).2
    have hz := ha.before hS hv.pre (Lifted.operand s.plain s.lifted (a.liftOperand n).2).2
    rw [Expr.liftMove_mem]
    exact hS.andThen (s := .move (.mem _) _) hz.pre (Bool.and_eq_true_iff.2 ⟨hz.value, hv.value⟩)
  | .eseq first d, h, n => by
    rw [Expr.aimed, Bool.and_eq_true] at h
    have hfirst := Stmt.meets_lift hS (h.imp_right fun h => h.2.1) n
    have hd := Expr.meets_liftMove hS hsource (d := d) (h.imp_right fun h => ⟨h.1, h.2.2⟩)
      (first.lift n).2
    exact Stmt.forall_mem_andThen hfirst hd
  | .const _, h, _ | .name _, h, _ | .binop _ _ _, h, _ | .unop _ _, h, _ | .call _ _, h, _ =>
    hS.strayMove rfl nofun h

theorem Stmt.meets_lift (hS : Stmt.Covers S stray) : ∀ {s : Stmt}, stray ∨ s.aimed = true →
    ∀ n, ∀ i ∈ (s.lift n).1.flatten, S i
  | .absent, _, _ => by rintro _ ⟨⟩
  | .exp e, h, n => by
    have he := Expr.meets_lift hS (e := e) h n
    exact hS.andThen (s := .exp _) he.pre he.value
  | .move d e, h, n => by
    rw [Stmt.aimed, Bool.and_eq_true, Bool.and_eq_true] at h
    exact Expr.meets_liftMove hS (s := ⟨e, e.lift⟩)
      (Expr.meets_lift hS (e := e) (h.imp_right And.right)) (h.imp_right And.left) n
  | .seq ss, h, n => Stmt.meets_liftAll hS (l := ss) h n
  | .cjump c t f, h, n => by
    have hc := Lifted.Meets.operand hS (e := c) (Expr.meets_lift hS (e := c) h) n
    exact hS.andThen (s := .cjump _ t f) hc.pre hc.value
  | .jump l, _, _ | .label l, _, _ => by
    intro i hi
    cases List.mem_singleton.1 hi
    exact hS.plain rfl

theorem Stmt.meets_liftAll (hS : Stmt.Covers S stray) : ∀ {l : List Stmt},
    stray ∨ Stmt.aimedAll l = true → ∀ n, ∀ i ∈ (Stmt.liftAll l n).1.flatten, S i
  | [], _, _ => by rintro _ ⟨⟩
  | s :: ss, h, n => by
    rw [Stmt.aimedAll, Bool.and_eq_true] at h
    have hs := Stmt.meets_lift hS (h.imp_right And.left) n
    have hss := Stmt.meets_liftAll hS (l := ss) (h.imp_right And.right) (s.lift n).2
    exact Stmt.forall_mem_andThen hs hss

end

end

/-- Code whose moves all go to targets has no others. -/
theorem Stmt.covers_plain : Stmt.Covers (·.plain = true) False :=
  ⟨id, False.elim⟩

/-- Whether an instruction evaluates plain expressions only. What would be moved to no target
is not evaluated. -/
def Stmt.linear : Stmt → Bool
  | .move d e => !d.isTarget || (Stmt.move d e).plain
  | s => s.plain

theorem Stmt.covers_linear : Stmt.Covers (·.linear = true) True where
  plain {s} h := by
    cases s with
    | move d e => exact Bool.or_eq_true_iff.2 (.inr h)
    | _ => exact h
  stray _ d e hd _ := by
    rw [linear, hd]
    rfl

namespace Lifted

theorem Meets.plain {x : Lifted} (h : x.Meets (·.plain = true)) : x.Plain :=
  ⟨h.pre, h.value⟩

theorem Plain.operand {e : Expr} {lifted : Fresh Lifted} (h : ∀ n, (lifted n).1.Plain)
    (n : Nat) : (Lifted.operand e lifted n).1.Plain :=
  (Meets.operand Stmt.covers_plain (fun n => ⟨(h n).pre, (h n).value⟩) n).plain

theorem Plain.before {x : Lifted} {later : Stmt} (hx : x.Plain)
    (hlater : Stmt.PlainCode later.flatten) (n : Nat) : (x.before later n).1.Plain :=
  (Meets.before Stmt.covers_plain ⟨hx.pre, hx.value⟩ hlater n).plain

end Lifted

theorem Expr.plain_lift {e : Expr} (h : e.aimed = true) (n : Nat) : (e.lift n).1.Plain :=
  (Expr.meets_lift Stmt.covers_plain (.inr h) n).plain

theorem Expr.plain_liftAll {l : List Expr} (h : Expr.aimedAll l = true) (n : Nat) :
    Stmt.PlainCode (Expr.liftAll l n).1.1.flatten ∧ Expr.plainAll (Expr.liftAll l n).1.2 = true :=
  Expr.meets_liftAll Stmt.covers_plain (.inr h) n

/-- Lifting makes plain code of a tree whose moves all go to targets. -/
theorem Stmt.plain_lift {s : Stmt} (h : s.aimed = true) (n : Nat) :
    Stmt.PlainCode (s.lift n).1.flatten :=
  Stmt.meets_lift Stmt.covers_plain (.inr h) n

/-- Lifting makes linear code of every tree. -/
theorem Stmt.linear_lift (s : Stmt) (n : Nat) : ∀ i ∈ (s.lift n).1.flatten, i.linear = true :=
  Stmt.meets_lift Stmt.covers_linear (.inl trivial) n

end TreeCode.IR
