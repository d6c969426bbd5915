/-
# Effects of code

The effects of a piece of code are the calls, labels, jumps, stores and assignments
to temps that occur in it, in the order in which it is evaluated. A call is told by the
function and, if its first argument is a constant, by that. Lifting keeps
them: apart from assignments to temps that it takes itself, lifted code has the
effects of the code it was made from, in the same order.

`Refresh` states this for two lists of effects together with the numbers of the
temps taken. Everything that is known about the labels, jumps and temps of lifted
code follows from it.
-/

import TreeCode.Proofs.IR.Tally

namespace TreeCode.IR

/-- Something that happens when code is evaluated. -/
inductive Effect where
  | call (function : Label) (first : Option Word)
  | label (label : Label)
  | jump (target : Label)
  | cjump (ifTrue ifFalse : Label)
  | store
  | assign (temp : Temp)
deriving DecidableEq, Repr

mutual

/-- The effects of an expression. -/
def Expr.effects : Expr → List Effect
  | .const _ => []
  | .name _ => []
  | .temp _ => []
  | .mem a => a.effects
  | .binop _ x y => x.effects ++ y.effects
  | .unop _ x => x.effects
  | .call f args => Expr.effectsAll args ++ [.call f (Expr.firstConstant? args)]
  | .eseq s e => s.effects ++ e.effects

/-- The effects of a list of expressions. -/
def Expr.effectsAll : List Expr → List Effect
  | [] => []
  | e :: es => e.effects ++ Expr.effectsAll es

/-- The effects of a move into a target, from those of its source. An address is
computed before the source. -/
def Expr.moveEffects : Expr → List Effect → List Effect
  | .temp t, source => source ++ [.assign t]
  | .mem a, source => a.effects ++ source ++ [.store]
  | .eseq s d, source => s.effects ++ d.moveEffects source
  | .const _, source => source
  | .name _, source => source
  | .binop _ x y, source => x.effects ++ y.effects ++ source
  | .unop _ x, source => x.effects ++ source
  | .call f args, source => Expr.effectsAll args ++ .call f (Expr.firstConstant? args) :: source

/-- The effects of a statement. -/
def Stmt.effects : Stmt → List Effect
  | .absent => []
  | .exp e => e.effects
  | .move d e => d.moveEffects e.effects
  | .seq ss => Stmt.effectsAll ss
  | .cjump c t f => c.effects ++ [.cjump t f]
  | .jump l => [.jump l]
  | .label l => [.label l]

/-- The effects of a list of statements. -/
def Stmt.effectsAll : List Stmt → List Effect
  | [] => []
  | s :: ss => s.effects ++ Stmt.effectsAll ss

end

/-- The effects of code, as they are read off it. -/
def Effect.tally : Tally Effect where
  expr := Expr.effects
  exprs := Expr.effectsAll
  move := Expr.moveEffects
  stmt := Stmt.effects
  stmts := Stmt.effectsAll
  read _ := []
  write t := [.assign t]
  call f first := [.call f first]
  store := [.store]
  branch t f := [.cjump t f]
  expr_of_isFixed {e} h := by cases e <;> first | rfl | cases h
  expr_temp _ := rfl
  expr_mem _ := rfl
  expr_binop _ _ _ := rfl
  expr_unop _ _ := rfl
  expr_call _ _ := rfl
  expr_eseq _ _ := rfl
  exprs_nil := rfl
  exprs_cons _ _ := rfl
  move_temp _ _ := rfl
  move_mem _ _ := rfl
  move_eseq _ _ _ := rfl
  stmt_absent := rfl
  stmt_exp _ := rfl
  stmt_move _ _ := rfl
  stmt_seq _ := rfl
  stmt_cjump _ _ _ := rfl
  stmts_nil := rfl
  stmts_cons _ _ := rfl

namespace Stmt

theorem mem_effectsAll {code : List Stmt} {s : Stmt} (hs : s ∈ code) {e : Effect}
    (he : e ∈ s.effects) : e ∈ effectsAll code := by
  induction hs with
  | head => exact List.mem_append_left _ he
  | tail _ _ ih => exact List.mem_append_right _ ih

theorem effectsAll_flatten (s : Stmt) : effectsAll s.flatten = s.effects :=
  Effect.tally.stmts_flatten s

@[simp]
theorem effects_join (ss : List Stmt) : (join ss).effects = effectsAll ss := by
  rw [← effectsAll_flatten, flatten_join]
  exact Effect.tally.stmts_flattenAll ss

end Stmt

namespace Effect

/-- Every effect except an assignment to a temp from the given number on. -/
def isOld (n : Nat) : Effect → Bool
  | .assign t => decide (t.index < n)
  | _ => true

@[simp]
theorem isOld_assign (n : Nat) (t : Temp) : isOld n (.assign t) = decide (t.index < n) := rfl

end Effect

/-- `new` has the effects of `old`, in the same order, and besides them assignments
to temps with numbers from `n` up to `n'`. -/
structure Refresh (old new : List Effect) (n n' : Nat) : Prop where
  le : n ≤ n'
  kept : ∀ k, k ≤ n → new.filter (Effect.isOld k) = old.filter (Effect.isOld k)
  fresh : ∀ t : Temp, .assign t ∈ new → .assign t ∈ old ∨ (n : Int) ≤ t.index ∧ t.index < n'

namespace Refresh

variable {old old' new new' : List Effect} {n m k : Nat}

theorem refl (old : List Effect) (n : Nat) : Refresh old old n n :=
  ⟨Nat.le_refl n, fun _ _ => rfl, fun _ h => .inl h⟩

theorem append (h : Refresh old new n m) (h' : Refresh old' new' m k) :
    Refresh (old ++ old') (new ++ new') n k where
  le := Nat.le_trans h.le h'.le
  kept i hi := by
    rw [List.filter_append, List.filter_append, h.kept i hi, h'.kept i (Nat.le_trans hi h.le)]
  fresh t ht := by
    have hle := h.le
    have hle' := h'.le
    rcases List.mem_append.1 ht with ht | ht
    · rcases h.fresh t ht with hmem | hrange
      · exact .inl (List.mem_append_left _ hmem)
      · exact .inr (by omega)
    · rcases h'.fresh t ht with hmem | hrange
      · exact .inl (List.mem_append_right _ hmem)
      · exact .inr (by omega)

/-- Assign to a temp that is taken before or after those of the code. -/
theorem insert {first rest : List Effect} {n' m' : Nat} (h : Refresh old (first ++ rest) n m)
    {t : Nat} (hn : n' ≤ t) (ht : t < m') (hn' : n' ≤ n) (hm : m ≤ m') :
    Refresh old (first ++ .assign ⟨t⟩ :: rest) n' m' where
  le := by
    have hle := h.le
    omega
  kept i hi := by
    have hdrop : Effect.isOld i (.assign ⟨t⟩) = false := by
      rw [Effect.isOld_assign, decide_eq_false_iff_not]
      simp only [Int.ofNat_lt]
      omega
    rw [List.filter_append, List.filter_cons_of_neg (by rw [hdrop]; exact Bool.false_ne_true),
      ← List.filter_append, h.kept i (by omega)]
  fresh u hu := by
    rw [List.mem_append, List.mem_cons] at hu
    have hold : .assign u ∈ first ++ rest →
        .assign u ∈ old ∨ (n' : Int) ≤ u.index ∧ u.index < m' := by
      intro hmem
      rcases h.fresh u hmem with hmem | hrange
      · exact .inl hmem
      · exact .inr (by omega)
    rcases hu with hu | hu | hu
    · exact hold (List.mem_append_left _ hu)
    · cases hu
      exact .inr ⟨Int.ofNat_le.2 hn, Int.ofNat_lt.2 ht⟩
    · exact hold (List.mem_append_right _ hu)

end Refresh

/-- Lifted code has the effects of the code it was made from. -/
def Lifted.Refreshes (old : List Effect) (lifted : Fresh Lifted) : Prop :=
  ∀ n, Refresh old ((lifted n).1.pre.effects ++ (lifted n).1.value.effects) n (lifted n).2

/-- A temp that is drawn is assigned to once more. -/
theorem Refresh.follows : Effect.tally.Follows Refresh where
  refl := .refl
  append := .append
  early {old new n m} h := by
    rw [← List.append_nil new] at h
    exact h.insert (Nat.le_refl n) h.le (Nat.le_succ n) (Nat.le_refl m)
  late {old a b c n m} h := h.insert h.le (Nat.lt_succ_self m) (Nat.le_refl n) (Nat.le_succ m)

/-- Saving an operand adds one assignment to a fresh temp. -/
theorem Lifted.refresh_before {x : Lifted} {later : Stmt} {old old' rest : List Effect}
    {n m k : Nat} (hx : Refresh old (x.pre.effects ++ x.value.effects) n m)
    (hlater : Refresh old' (later.effects ++ rest) m k) :
    Refresh (old ++ old')
      ((x.before later k).1.pre.effects ++ ((x.before later k).1.value.effects ++ rest)) n
      (x.before later k).2 :=
  Refresh.follows.before hx hlater

theorem Expr.refreshes_lift (e : Expr) : Lifted.Refreshes e.effects e.lift :=
  Refresh.follows.lift e

theorem Expr.refreshes_liftOperand (e : Expr) : Lifted.Refreshes e.effects e.liftOperand :=
  Refresh.follows.operand e.refreshes_lift

theorem Expr.refresh_liftAll (es : List Expr) (n : Nat) :
    Refresh (Expr.effectsAll es)
      ((Expr.liftAll es n).1.1.effects ++ Expr.effectsAll (Expr.liftAll es n).1.2) n
      (Expr.liftAll es n).2 :=
  Refresh.follows.liftAll es n

/-- Lifting keeps the effects of a statement. -/
theorem Stmt.refresh_lift (s : Stmt) (n : Nat) :
    Refresh s.effects (s.lift n).1.effects n (s.lift n).2 :=
  Refresh.follows.stmt s n

theorem Stmt.refresh_liftAll (ss : List Stmt) (n : Nat) :
    Refresh (Stmt.effectsAll ss) (Stmt.liftAll ss n).1.effects n (Stmt.liftAll ss n).2 :=
  Refresh.follows.stmts ss n

/-- Whether an effect is an assignment to a temp with a number from `n` up to `n'`. -/
def Effect.assignsWithin (n n' : Nat) : Effect → Bool
  | .assign t => decide ((n : Int) ≤ t.index ∧ t.index < n')
  | _ => false

/-- Where new assignments go to temps from `n` up to `n'` only, dropping these gives back the
old effects. -/
theorem Refresh.filter_eq {old new : List Effect} {n n' : Nat} (h : Refresh old new n n')
    (hold : ∀ t : Temp, .assign t ∈ old → t.index < n) :
    new.filter (fun e => !e.assignsWithin n n') = old := by
  have hsplit : ∀ e ∈ new, (!e.assignsWithin n n') = e.isOld n := by
    intro e he
    cases e with
    | assign t =>
      rw [Effect.assignsWithin, Effect.isOld_assign, ← decide_not, decide_eq_decide]
      rcases h.fresh t he with hmem | hrange
      · have hlt := hold t hmem
        omega
      · omega
    | _ => rfl
  calc new.filter (fun e => !e.assignsWithin n n')
      = new.filter (Effect.isOld n) := List.filter_congr hsplit
    _ = old.filter (Effect.isOld n) := h.kept n (Nat.le_refl n)
    _ = old := by
        rw [List.filter_eq_self]
        intro e he
        cases e with
        | assign t => exact decide_eq_true (hold t he)
        | _ => rfl

/-- Canonical code has the effects of the statement that it was made from, each as often and
in the same order, apart from assignments to the temps that were taken for it. -/
theorem Stmt.canonical_keeps_effects (s : Stmt) (n : Nat)
    (hbelow : ∀ t : Temp, .assign t ∈ s.effects → t.index < n) :
    (effectsAll (s.canonical n).1).filter (fun e => !e.assignsWithin n (s.canonical n).2) =
      s.effects := by
  have heffects : effectsAll (s.canonical n).1 = (s.lift n).1.effects :=
    effectsAll_flatten (s.lift n).1
  rw [heffects]
  exact (s.refresh_lift n).filter_eq hbelow

/-- The sum of two calls, the second one behind a jump, is stored to the address that a call
yields. -/
def Stmt.entangled : Stmt :=
  .move (.mem (.call (.ofName "f") [.const 0]))
    (.binop .add (.call (.ofName "g") [.temp ⟨2⟩])
      (.eseq (.seq [.jump (.ofName "L0"), .label (.ofName "L0"), .move (.temp ⟨2⟩) (.const 1)])
        (.call (.ofName "h") [])))

theorem Stmt.effects_entangled :
    entangled.effects =
      [.call (.ofName "f") (some 0), .call (.ofName "g") none, .jump (.ofName "L0"),
        .label (.ofName "L0"), .assign ⟨2⟩, .call (.ofName "h") none, .store] := by
  decide +kernel

theorem Stmt.entangled_keeps_effects :
    effectsAll (entangled.canonical 3).1 =
      [.call (.ofName "f") (some 0), .assign ⟨3⟩, .assign ⟨6⟩, .call (.ofName "g") none,
        .assign ⟨4⟩, .assign ⟨5⟩, .jump (.ofName "L0"), .label (.ofName "L0"), .assign ⟨2⟩,
        .call (.ofName "h") none, .store] ∧
    (entangled.canonical 3).2 = 7 ∧
    (effectsAll (entangled.canonical 3).1).filter
      (fun e => !e.assignsWithin 3 (entangled.canonical 3).2) = entangled.effects := by
  refine ⟨by decide +kernel, by decide +kernel, canonical_keeps_effects entangled 3 ?_⟩
  intro t ht
  rw [effects_entangled] at ht
  obtain rfl : t = ⟨2⟩ := by simpa using ht
  decide

end TreeCode.IR
