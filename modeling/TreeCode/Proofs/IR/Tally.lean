/-
# What is read off code

Much of what is known about code is a list that is read off it in the order of evaluation:
its effects, or the places where it uses temps. A `Tally` is any such list. Splicing sequences
does not change it.

Lifting moves code about and draws temps to save values in. `Tally.Follows` collects what a
relation between the lists of a tree and of its lifted form has to allow for: a temp that is
drawn is written in front of some code and read behind it. `Tally.Follows.stmt` says that every
such relation holds.
-/

import TreeCode.IR.Canonical

namespace TreeCode.IR

/-- The constant that an expression is seen to have as its value. -/
def Expr.constant? : Expr → Option Word
  | .const n => some n
  | .eseq _ e => e.constant?
  | _ => none

/-- The constant that comes first among some expressions. -/
def Expr.firstConstant? (es : List Expr) : Option Word :=
  es.head?.bind Expr.constant?

namespace Stmt

variable (a ss b : List Stmt)

theorem mem_flattenAll {ss : List Stmt} {i : Stmt} :
    i ∈ flattenAll ss ↔ ∃ s ∈ ss, i ∈ s.flatten := by
  induction ss with
  | nil => simp [flattenAll]
  | cons s ss ih => simp [flattenAll, ih]

theorem flattenAll_append : flattenAll (a ++ b) = flattenAll a ++ flattenAll b := by
  induction a with
  | nil => rfl
  | cons s ss ih => simp only [List.cons_append, flattenAll, ih, List.append_assoc]

mutual

theorem flatten_of_isNop : ∀ {s : Stmt}, s.isNop = true → s.flatten = []
  | .absent, _ => rfl
  | .seq ss, h => by
    rw [isNop] at h
    exact flattenAll_of_allNop h

theorem flattenAll_of_allNop : ∀ {ss : List Stmt}, allNop ss = true → flattenAll ss = []
  | [], _ => rfl
  | s :: ss, h => by
    rw [allNop, Bool.and_eq_true] at h
    rw [flattenAll, flatten_of_isNop h.1, flattenAll_of_allNop h.2, List.append_nil]

end

@[simp]
theorem flatten_andThen (a b : Stmt) : (a.andThen b).flatten = a.flatten ++ b.flatten := by
  unfold andThen
  split
  next h => rw [flatten_of_isNop h, List.nil_append]
  next =>
    split
    next h => rw [flatten_of_isNop h, List.append_nil]
    next => simp only [flatten, flattenAll, List.append_nil]

mutual

/-- Instructions are spliced once and for all. -/
theorem flattenAll_flatten : ∀ s : Stmt, flattenAll s.flatten = s.flatten
  | .absent => rfl
  | .seq ss => flattenAll_flattenAll ss
  | .exp _ | .move _ _ | .cjump _ _ _ | .jump _ | .label _ => rfl

theorem flattenAll_flattenAll : ∀ ss : List Stmt, flattenAll (flattenAll ss) = flattenAll ss
  | [] => rfl
  | s :: ss => by
    rw [flattenAll, flattenAll_append, flattenAll_flatten s, flattenAll_flattenAll ss]

end

theorem flattenAll_filter : flattenAll (ss.filter fun s => !s.isAbsent) = flattenAll ss := by
  induction ss with
  | nil => rfl
  | cons s ss ih =>
    cases s with
    | absent => exact ih
    | _ =>
      rw [List.filter_cons_of_pos rfl, flattenAll, flattenAll, ih]

@[simp]
theorem flatten_join : (join ss).flatten = flattenAll ss := by
  rw [← flattenAll_filter ss, join]
  split
  next s hs => rw [hs, flattenAll, flattenAll, List.append_nil]
  next => rw [flatten]

/-- What holds of the statements of a list holds of them joined, if it holds of sequences of
such statements. -/
theorem join_induction {P : Stmt → Prop} {Q : List Stmt → Prop}
    (hcons : ∀ s ss, Q (s :: ss) → P s ∧ Q ss) (hkeep : ∀ s ss, P s → Q ss → Q (s :: ss))
    (hseq : ∀ ss, Q ss → P (.seq ss)) {ss : List Stmt} (h : Q ss) : P (join ss) := by
  have hfilter : Q (ss.filter fun s => !s.isAbsent) := by
    induction ss with
    | nil => exact h
    | cons s ss ih =>
      obtain ⟨hs, hss⟩ := hcons s ss h
      rw [List.filter_cons]
      split
      · exact hkeep s _ hs (ih hss)
      · exact ih hss
  unfold join
  split
  next s hs => exact (hcons s [] (hs ▸ hfilter)).1
  next => exact hseq _ hfilter

end Stmt

/-- Lift everything out of an operand. -/
abbrev Expr.liftOperand (e : Expr) : Fresh Lifted :=
  Lifted.operand e e.lift

namespace Lifted

variable {e : Expr} {x : Lifted} {later : Stmt}

theorem operand_of_call (h : e.isCall = true) (lifted : Fresh Lifted) (n : Nat) :
    operand e lifted n =
      (⟨(lifted (n + 1)).1.pre.andThen (.move (.temp ⟨n⟩) (lifted (n + 1)).1.value),
        .temp ⟨n⟩⟩, (lifted (n + 1)).2) := by
  unfold operand
  rw [if_pos h]

theorem operand_of_not_call (h : ¬ e.isCall = true) (lifted : Fresh Lifted) (n : Nat)
    : operand e lifted n = lifted n := by
  unfold operand
  rw [if_neg h]

theorem before_of_commutes (h : later.commutes x.value = true) (n : Nat)
    : x.before later n = (⟨x.pre.andThen later, x.value⟩, n) := by
  unfold before
  rw [if_pos h]

theorem before_of_not_commutes (h : ¬ later.commutes x.value = true) (n : Nat) :
    x.before later n =
      (⟨(x.pre.andThen (.move (.temp ⟨n⟩) x.value)).andThen later, .temp ⟨n⟩⟩, n + 1) := by
  unfold before
  rw [if_neg h]

end Lifted

theorem Expr.lift_binop (op : Op) (x y : Expr) (n : Nat) :
    (Expr.binop op x y).lift n =
      let x' := x.liftOperand n
      let y' := y.liftOperand x'.2
      let z := x'.1.before y'.1.pre y'.2
      (⟨z.1.pre, .binop op z.1.value y'.1.value⟩, z.2) := rfl

theorem Expr.liftAll_cons (e : Expr) (es : List Expr) (n : Nat) :
    Expr.liftAll (e :: es) n =
      let e' := e.liftOperand n
      let es' := Expr.liftAll es e'.2
      let z := e'.1.before es'.1.1 es'.2
      ((z.1.pre, z.1.value :: es'.1.2), z.2) := rfl

theorem Expr.liftMove_mem (a : Expr) (source : MoveSource) (n : Nat) :
    (Expr.mem a).liftMove source n =
      let a' := a.liftOperand n
      let v := Lifted.operand source.plain source.lifted a'.2
      let z := a'.1.before v.1.pre v.2
      (z.1.pre.andThen (.move (.mem z.1.value) v.1.value), z.2) := rfl

/-- Lifting leaves a constant where it can be seen. -/
theorem Expr.lift_of_constant? {c : Word} : ∀ {e : Expr}, e.constant? = some c →
    ∀ n, (e.lift n).1.value = .const c
  | .const _, h, _ => congrArg Expr.const (Option.some.inj h)
  | .eseq s e, h, n => lift_of_constant? (e := e) h (s.lift n).2

theorem Expr.constant?_lift : ∀ (e : Expr), e.constant? = none →
    ∀ n, (e.lift n).1.value.constant? = none
  | .name _, _, _ | .temp _, _, _ | .mem _, _, _ | .binop _ _ _, _, _ | .unop _ _, _, _
  | .call _ _, _, _ => rfl
  | .eseq s e, h, n => constant?_lift e h (s.lift n).2

/-- Lifting keeps the first constant of a list of operands. -/
theorem Expr.firstConstant?_liftAll (es : List Expr) (n : Nat) :
    firstConstant? (Expr.liftAll es n).1.2 = firstConstant? es := by
  cases es with
  | nil => rfl
  | cons e es =>
    rw [Expr.liftAll_cons]
    change (Lifted.before _ _ _).1.value.constant? = e.constant?
    by_cases hcall : e.isCall = true
    · have hnone : e.constant? = none := by cases e <;> first | rfl | cases hcall
      rw [hnone, Expr.liftOperand, Lifted.operand_of_call hcall]
      unfold Lifted.before
      split <;> rfl
    · rw [Expr.liftOperand, Lifted.operand_of_not_call hcall]
      cases hc : e.constant? with
      | some c =>
        have hvalue := Expr.lift_of_constant? hc n
        rw [Lifted.before_of_commutes (by rw [Stmt.commutes, hvalue]; exact Bool.or_true _),
          hvalue]
        rfl
      | none =>
        unfold Lifted.before
        split
        · exact Expr.constant?_lift e hc n
        · rfl

/-- A list that is read off code in the order of evaluation. -/
structure Tally (α : Type) where
  expr : Expr → List α
  exprs : List Expr → List α
  /-- The list of a move into a target, from that of its source. -/
  move : Expr → List α → List α
  stmt : Stmt → List α
  stmts : List Stmt → List α
  read : Temp → List α
  write : Temp → List α
  call : Label → Option Word → List α
  store : List α
  branch : Label → Label → List α
  expr_of_isFixed : ∀ {e}, e.isFixed = true → expr e = []
  expr_temp : ∀ t, expr (.temp t) = read t
  expr_mem : ∀ a, expr (.mem a) = expr a
  expr_binop : ∀ op x y, expr (.binop op x y) = expr x ++ expr y
  expr_unop : ∀ op x, expr (.unop op x) = expr x
  expr_call : ∀ f args, expr (.call f args) = exprs args ++ call f (Expr.firstConstant? args)
  expr_eseq : ∀ s e, expr (.eseq s e) = stmt s ++ expr e
  exprs_nil : exprs [] = []
  exprs_cons : ∀ e es, exprs (e :: es) = expr e ++ exprs es
  move_temp : ∀ t source, move (.temp t) source = source ++ write t
  move_mem : ∀ a source, move (.mem a) source = expr a ++ source ++ store
  move_eseq : ∀ s d source, move (.eseq s d) source = stmt s ++ move d source
  stmt_absent : stmt .absent = []
  stmt_exp : ∀ e, stmt (.exp e) = expr e
  stmt_move : ∀ d e, stmt (.move d e) = move d (expr e)
  stmt_seq : ∀ ss, stmt (.seq ss) = stmts ss
  stmt_cjump : ∀ c t f, stmt (.cjump c t f) = expr c ++ branch t f
  stmts_nil : stmts [] = []
  stmts_cons : ∀ s ss, stmts (s :: ss) = stmt s ++ stmts ss

namespace Tally

variable {α : Type} (T : Tally α)

theorem stmts_append (a b : List Stmt) : T.stmts (a ++ b) = T.stmts a ++ T.stmts b := by
  induction a with
  | nil => rw [T.stmts_nil, List.nil_append, List.nil_append]
  | cons s ss ih => rw [List.cons_append, T.stmts_cons, ih, T.stmts_cons, List.append_assoc]

mutual

/-- Splicing sequences does not change what is read off them. -/
theorem stmts_flatten : ∀ s : Stmt, T.stmts s.flatten = T.stmt s
  | .absent => T.stmts_nil.trans T.stmt_absent.symm
  | .seq ss => (stmts_flattenAll ss).trans (T.stmt_seq ss).symm
  | .exp _ | .move _ _ | .cjump _ _ _ | .jump _ | .label _ => (T.stmts_cons _ _).trans (by
      rw [T.stmts_nil, List.append_nil])

theorem stmts_flattenAll : ∀ ss : List Stmt, T.stmts (Stmt.flattenAll ss) = T.stmts ss
  | [] => rfl
  | s :: ss => by
    rw [Stmt.flattenAll, T.stmts_append, stmts_flatten s, stmts_flattenAll ss, T.stmts_cons]

end

theorem stmt_of_isNop {s : Stmt} (h : s.isNop = true) : T.stmt s = [] := by
  rw [← T.stmts_flatten, Stmt.flatten_of_isNop h, T.stmts_nil]

theorem stmt_andThen (a b : Stmt) : T.stmt (a.andThen b) = T.stmt a ++ T.stmt b := by
  rw [← T.stmts_flatten, Stmt.flatten_andThen, T.stmts_append, T.stmts_flatten, T.stmts_flatten]

/-- A relation between what is read off a tree and off its lifted form, where the temps from
one number up to another are drawn: before the code that they are written behind, or after the
code that they are written in front of. -/
structure Follows (R : List α → List α → Nat → Nat → Prop) : Prop where
  refl : ∀ old n, R old old n n
  append : ∀ {old old' new new' n m k}, R old new n m → R old' new' m k →
    R (old ++ old') (new ++ new') n k
  early : ∀ {old new n m}, R old new (n + 1) m → R old (new ++ (T.write ⟨n⟩ ++ T.read ⟨n⟩)) n m
  late : ∀ {old a b c n m}, R old (a ++ (b ++ c)) n m →
    R old (a ++ (T.write ⟨m⟩ ++ (b ++ (T.read ⟨m⟩ ++ c)))) n (m + 1)

/-- The relation holds of some list and of lifted code. -/
def Lifts (R : List α → List α → Nat → Nat → Prop) (old : List α) (lifted : Fresh Lifted) : Prop :=
  ∀ n, R old (T.stmt (lifted n).1.pre ++ T.expr (lifted n).1.value) n (lifted n).2

namespace Follows

variable {T} {R : List α → List α → Nat → Nat → Prop} (hR : T.Follows R)

include hR

theorem snoc {old new : List α} {n m : Nat} (h : R old new n m) (rest : List α) :
    R (old ++ rest) (new ++ rest) n m :=
  hR.append h (hR.refl rest m)

/-- A call that is moved into a temp is read from there. -/
theorem operand {e : Expr} {old : List α} {lifted : Fresh Lifted} (h : T.Lifts R old lifted) :
    T.Lifts R old (Lifted.operand e lifted) := by
  intro n
  by_cases hcall : e.isCall = true
  · have hearly := hR.early (h (n + 1))
    simp only [Lifted.operand_of_call hcall, T.stmt_andThen, T.stmt_move, T.move_temp, T.expr_temp]
    simpa only [List.append_assoc] using hearly
  · rw [Lifted.operand_of_not_call hcall]
    exact h n

/-- A saved operand is written before the later code and read after it. -/
theorem before {x : Lifted} {later : Stmt} {old old' rest : List α} {n m k : Nat}
    (hx : R old (T.stmt x.pre ++ T.expr x.value) n m) (hlater : R old' (T.stmt later ++ rest) m k) :
    R (old ++ old')
      (T.stmt (x.before later k).1.pre ++ (T.expr (x.before later k).1.value ++ rest)) n
      (x.before later k).2 := by
  have happend := hR.append hx hlater
  by_cases hcomm : later.commutes x.value = true
  · simp only [Lifted.before_of_commutes hcomm, T.stmt_andThen]
    rw [Stmt.commutes, Bool.or_eq_true] at hcomm
    rcases hcomm with hnop | hfixed
    · rw [T.stmt_of_isNop hnop] at happend ⊢
      simpa only [List.append_nil, List.nil_append, List.append_assoc] using happend
    · rw [T.expr_of_isFixed hfixed] at happend ⊢
      simpa only [List.append_nil, List.nil_append, List.append_assoc] using happend
  · have hlate := hR.late happend
    simpa only [Lifted.before_of_not_commutes hcomm, T.stmt_andThen, T.stmt_move, T.move_temp,
      T.expr_temp, List.append_assoc] using hlate

mutual

theorem lift : ∀ e : Expr, T.Lifts R (T.expr e) e.lift
  | .const _ | .name _ | .temp _ => fun n => by
    change R _ (T.stmt .absent ++ _) n n
    rw [T.stmt_absent]
    exact hR.refl _ n
  | .mem a => fun n => by
    change R _ (_ ++ T.expr (.mem _)) n _
    rw [T.expr_mem, T.expr_mem]
    exact hR.operand (lift a) n
  | .unop _ x => fun n => by
    change R _ (_ ++ T.expr (.unop _ _)) n _
    rw [T.expr_unop, T.expr_unop]
    exact hR.operand (lift x) n
  | .binop op x y => fun n => by
    simp only [Expr.lift_binop, T.expr_binop]
    exact hR.before (hR.operand (lift x) n) (hR.operand (lift y) _)
  | .call f args => fun n => by
    have h := hR.snoc (liftAll args n) (T.call f (Expr.firstConstant? args))
    change R _ (_ ++ T.expr (.call f (Expr.liftAll args n).1.2)) n _
    rw [List.append_assoc] at h
    rw [T.expr_call, T.expr_call, Expr.firstConstant?_liftAll]
    exact h
  | .eseq s e => fun n => by
    have h := hR.append (stmt s n) (lift e (s.lift n).2)
    rw [← List.append_assoc, ← T.stmt_andThen, ← T.expr_eseq] at h
    exact h

theorem liftAll : ∀ (es : List Expr) (n : Nat),
    R (T.exprs es) (T.stmt (Expr.liftAll es n).1.1 ++ T.exprs (Expr.liftAll es n).1.2) n
      (Expr.liftAll es n).2
  | [], n => by
    change R _ (T.stmt .absent ++ _) n n
    rw [T.stmt_absent]
    exact hR.refl _ n
  | e :: es, n => by
    simp only [Expr.liftAll_cons, T.exprs_cons]
    exact hR.before (hR.operand (lift e) n) (liftAll es _)

theorem liftMove : ∀ (target : Expr) (source : MoveSource),
    T.Lifts R (T.expr source.plain) source.lifted → ∀ n,
    R (T.move target (T.expr source.plain)) (T.stmt (target.liftMove source n).1) n
      (target.liftMove source n).2
  | .temp t, source, h, n => by
    have hsource := hR.snoc (h n) (T.write t)
    rw [List.append_assoc] at hsource
    simp only [Expr.liftMove, T.stmt_andThen, T.stmt_move, T.move_temp]
    exact hsource
  | .mem a, source, h, n => by
    have hpair := hR.snoc (hR.before (hR.operand (lift a) n)
      (hR.operand (e := source.plain) h (a.liftOperand n).2)) T.store
    simp only [Expr.liftMove_mem, T.stmt_andThen, T.stmt_move, T.move_mem]
    simp only [List.append_assoc] at hpair ⊢
    exact hpair
  | .eseq s d, source, h, n => by
    have hpair := hR.append (stmt s n) (liftMove d source h (s.lift n).2)
    rw [← T.stmt_andThen, ← T.move_eseq] at hpair
    exact hpair
  | .const _, _, _, n | .name _, _, _, n | .binop _ _ _, _, _, n | .unop _ _, _, _, n
  | .call _ _, _, _, n => T.stmt_move _ _ ▸ hR.refl _ n

/-- What is read off a statement is followed by what is read off its lifted form. -/
theorem stmt : ∀ (s : Stmt) (n : Nat), R (T.stmt s) (T.stmt (s.lift n).1) n (s.lift n).2
  | .absent, n | .jump _, n | .label _, n => hR.refl _ n
  | .exp e, n => by
    have h := lift e n
    rw [← T.stmt_exp, ← T.stmt_exp, ← T.stmt_andThen] at h
    exact h
  | .move d e, n => T.stmt_move d e ▸ liftMove d ⟨e, e.lift⟩ (lift e) n
  | .seq ss, n => T.stmt_seq ss ▸ stmts ss n
  | .cjump c t f, n => by
    have h := hR.snoc (hR.operand (e := c) (lift c) n) (T.branch t f)
    rw [List.append_assoc, ← T.stmt_cjump, ← T.stmt_cjump, ← T.stmt_andThen] at h
    exact h

theorem stmts : ∀ (ss : List Stmt) (n : Nat),
    R (T.stmts ss) (T.stmt (Stmt.liftAll ss n).1) n (Stmt.liftAll ss n).2
  | [], n => T.stmts_nil ▸ T.stmt_absent ▸ hR.refl _ n
  | s :: ss, n => by
    have h := hR.append (stmt s n) (stmts ss (s.lift n).2)
    rw [← T.stmt_andThen, ← T.stmts_cons] at h
    exact h

end

end Follows

end Tally

end TreeCode.IR
