/-
# Uses of temps

The uses of a piece of code are the places where it reads and writes temps, in the order in
which it is evaluated. Lifting keeps the uses of the temps that it finds, and uses every temp
that it draws twice: it writes the temp, and reads it afterwards.

`Renewal` states this for two lists of uses together with the numbers of the temps drawn. A
move to no target is left as it stands, whatever it contains, so uses inside such a move are
marked: no temp that is drawn is used there.
-/

import TreeCode.Proofs.IR.Effects

namespace TreeCode.IR

/-- A place where code reads or writes a temp. -/
structure Use where
  temp : Temp
  writes : Bool
  /-- Whether it is inside a move to no target. -/
  stray : Bool
deriving DecidableEq, Repr

namespace Use

/-- A place where a temp is read. -/
def read (t : Temp) : Use :=
  ⟨t, false, false⟩

/-- A place where a temp is written. -/
def write (t : Temp) : Use :=
  ⟨t, true, false⟩

/-- The use, inside a move to no target. -/
def asStray (u : Use) : Use :=
  { u with stray := true }

/-- Whether it is a use of the given temp. -/
def isOf (t : Temp) (u : Use) : Bool :=
  u.temp = t

/-- Whether it is a use of a temp with a number below the given one. -/
def isBelow (k : Nat) (u : Use) : Bool :=
  u.temp.index < k

theorem isOf_iff {t : Temp} {u : Use} : u.isOf t = true ↔ u.temp = t :=
  decide_eq_true_iff

theorem isBelow_iff {k : Nat} {u : Use} : u.isBelow k = true ↔ u.temp.index < k :=
  decide_eq_true_iff

end Use

mutual

/-- The uses of an expression. -/
def Expr.uses : Expr → List Use
  | .const _ => []
  | .name _ => []
  | .temp t => [.read t]
  | .mem a => a.uses
  | .binop _ x y => x.uses ++ y.uses
  | .unop _ x => x.uses
  | .call _ args => Expr.usesAll args
  | .eseq s e => s.uses ++ e.uses

/-- The uses of a list of expressions. -/
def Expr.usesAll : List Expr → List Use
  | [] => []
  | e :: es => e.uses ++ Expr.usesAll es

/-- The uses of a move into a target, from those of its source. -/
def Expr.moveUses : Expr → List Use → List Use
  | .temp t, source => source ++ [.write t]
  | .mem a, source => a.uses ++ source
  | .eseq s d, source => s.uses ++ d.moveUses source
  | .const _, source => source.map Use.asStray
  | .name _, source => source.map Use.asStray
  | .binop _ x y, source => (x.uses ++ y.uses ++ source).map Use.asStray
  | .unop _ x, source => (x.uses ++ source).map Use.asStray
  | .call _ args, source => (Expr.usesAll args ++ source).map Use.asStray

/-- The uses of a statement. -/
def Stmt.uses : Stmt → List Use
  | .absent => []
  | .exp e => e.uses
  | .move d e => d.moveUses e.uses
  | .seq ss => Stmt.usesAll ss
  | .cjump c _ _ => c.uses
  | .jump _ => []
  | .label _ => []

/-- The uses of a list of statements. -/
def Stmt.usesAll : List Stmt → List Use
  | [] => []
  | s :: ss => s.uses ++ Stmt.usesAll ss

end

namespace Stmt

theorem usesAll_eq_flatMap (code : List Stmt) : usesAll code = code.flatMap uses := by
  induction code with
  | nil => rfl
  | cons s ss ih => rw [usesAll, ih, List.flatMap_cons]

end Stmt

/-- The uses of temps, as they are read off code. -/
def Use.tally : Tally Use where
  expr := Expr.uses
  exprs := Expr.usesAll
  move := Expr.moveUses
  stmt := Stmt.uses
  stmts := Stmt.usesAll
  read t := [.read t]
  write t := [.write t]
  call _ _ := []
  store := []
  branch _ _ := []
  expr_of_isFixed {e} h := by cases e <;> first | rfl | cases h
  expr_temp _ := rfl
  expr_mem _ := rfl
  expr_binop _ _ _ := rfl
  expr_unop _ _ := rfl
  expr_call _ _ := (List.append_nil _).symm
  expr_eseq _ _ := rfl
  exprs_nil := rfl
  exprs_cons _ _ := rfl
  move_temp _ _ := rfl
  move_mem _ _ := (List.append_nil _).symm
  move_eseq _ _ _ := rfl
  stmt_absent := rfl
  stmt_exp _ := rfl
  stmt_move _ _ := rfl
  stmt_seq _ := rfl
  stmt_cjump _ _ _ := (List.append_nil _).symm
  stmts_nil := rfl
  stmts_cons _ _ := rfl

theorem Stmt.usesAll_append (a b : List Stmt) : usesAll (a ++ b) = usesAll a ++ usesAll b :=
  Use.tally.stmts_append a b

/-- `new` has the uses of `old`, in the same order, and besides them uses of temps with numbers
from `n` up to `m`: each of these temps is written, and afterwards read. -/
structure Renewal (old new : List Use) (n m : Nat) : Prop where
  le : n ≤ m
  kept : ∀ k, k ≤ n → new.filter (Use.isBelow k) = old.filter (Use.isBelow k)
  mem : ∀ u ∈ new, u ∈ old ∨ (n : Int) ≤ u.temp.index ∧ u.temp.index < m
  once : ∀ t : Nat, n ≤ t → t < m → (∀ u ∈ old, u.temp ≠ ⟨t⟩) →
    new.filter (Use.isOf ⟨t⟩) = [.write ⟨t⟩, .read ⟨t⟩]

namespace Renewal

variable {old old' new new' : List Use} {n m k : Nat}

theorem refl (old : List Use) (n : Nat) : Renewal old old n n where
  le := Nat.le_refl n
  kept _ _ := rfl
  mem _ h := .inl h
  once t hn hm := by omega

/-- Temps that are neither found nor drawn are not used. -/
theorem filter_eq_nil (h : Renewal old new n m) {t : Nat} (hold : ∀ u ∈ old, u.temp ≠ ⟨t⟩)
    (ht : t < n ∨ m ≤ t) : new.filter (Use.isOf ⟨t⟩) = [] := by
  rw [List.filter_eq_nil_iff]
  intro u hu hof
  have htemp : u.temp = ⟨t⟩ := Use.isOf_iff.1 hof
  rcases h.mem u hu with hmem | hrange
  · exact hold u hmem htemp
  · rw [htemp] at hrange
    have hn : (n : Int) ≤ t := hrange.1
    have hm : (t : Int) < m := hrange.2
    omega

theorem append (h : Renewal old new n m) (h' : Renewal old' new' m k) :
    Renewal (old ++ old') (new ++ new') n k where
  le := Nat.le_trans h.le h'.le
  kept i hi := by
    rw [List.filter_append, List.filter_append, h.kept i hi, h'.kept i (Nat.le_trans hi h.le)]
  mem u hu := by
    have hle := h.le
    have hle' := h'.le
    rcases List.mem_append.1 hu with hu | hu
    · rcases h.mem u hu with hmem | hrange
      · exact .inl (List.mem_append_left _ hmem)
      · exact .inr (by omega)
    · rcases h'.mem u hu with hmem | hrange
      · exact .inl (List.mem_append_right _ hmem)
      · exact .inr (by omega)
  once t hn hk hold := by
    have hleft : ∀ u ∈ old, u.temp ≠ ⟨t⟩ := fun u hu => hold u (List.mem_append_left _ hu)
    have hright : ∀ u ∈ old', u.temp ≠ ⟨t⟩ := fun u hu => hold u (List.mem_append_right _ hu)
    rw [List.filter_append]
    by_cases ht : t < m
    · rw [h.once t hn ht hleft, h'.filter_eq_nil hright (.inl ht)]
      rfl
    · rw [h.filter_eq_nil hleft (.inr (by omega)), h'.once t (by omega) hk hright]
      rfl

theorem filter_insert_of_neg {p : Use → Bool} {a b c : List Use} {u v : Use} (hu : ¬ p u = true)
    (hv : ¬ p v = true) : (a ++ u :: (b ++ v :: c)).filter p = (a ++ (b ++ c)).filter p := by
  rw [List.filter_append, List.filter_cons_of_neg hu, List.filter_append,
    List.filter_cons_of_neg hv, ← List.filter_append, ← List.filter_append]

/-- Write a temp that is drawn before or after those of the code, and read it later. -/
theorem insert {a b c : List Use} {n' m' t : Nat} (h : Renewal old (a ++ (b ++ c)) n m)
    (hn : n' ≤ n) (hm : m ≤ m') (ht : n' ≤ t ∧ t < m') (hout : t < n ∨ m ≤ t)
    (hcover : ∀ i, n' ≤ i → i < m' → i = t ∨ n ≤ i ∧ i < m) :
    Renewal old (a ++ .write ⟨t⟩ :: (b ++ .read ⟨t⟩ :: c)) n' m' where
  le := by omega
  kept i hi := by
    have hdrop : ∀ u : Use, u.temp = ⟨t⟩ → ¬ u.isBelow i = true := by
      intro u hu hbelow
      rw [Use.isBelow_iff, hu] at hbelow
      have hlt : (t : Int) < i := hbelow
      omega
    rw [filter_insert_of_neg (hdrop _ rfl) (hdrop _ rfl), h.kept i (by omega)]
  mem u hu := by
    have hcases : u ∈ a ++ (b ++ c) ∨ u.temp = ⟨t⟩ := by
      simp only [List.mem_append, List.mem_cons] at hu ⊢
      rcases hu with hu | rfl | hu | rfl | hu
      · exact .inl (.inl hu)
      · exact .inr rfl
      · exact .inl (.inr (.inl hu))
      · exact .inr rfl
      · exact .inl (.inr (.inr hu))
    rcases hcases with hmem | htemp
    · rcases h.mem u hmem with hmem | hrange
      · exact .inl hmem
      · exact .inr (by omega)
    · rw [htemp]
      exact .inr ⟨Int.ofNat_le.2 ht.1, Int.ofNat_lt.2 ht.2⟩
  once i hi hi' hold := by
    rcases Nat.decEq i t with hne | rfl
    · have hdrop : ∀ u : Use, u.temp = ⟨t⟩ → ¬ u.isOf ⟨i⟩ = true := by
        intro u hu hof
        rw [Use.isOf_iff, hu] at hof
        have heq : (t : Int) = i := congrArg Temp.index hof
        omega
      have hrange : n ≤ i ∧ i < m := (hcover i hi hi').resolve_left hne
      rw [filter_insert_of_neg (hdrop _ rfl) (hdrop _ rfl)]
      exact h.once i hrange.1 hrange.2 hold
    · have hnil := h.filter_eq_nil hold hout
      rw [List.filter_append, List.filter_append, List.append_eq_nil_iff,
        List.append_eq_nil_iff] at hnil
      obtain ⟨ha, hb, hc⟩ := hnil
      have hwrite : (Use.write ⟨i⟩).isOf ⟨i⟩ = true := Use.isOf_iff.2 rfl
      have hread : (Use.read ⟨i⟩).isOf ⟨i⟩ = true := Use.isOf_iff.2 rfl
      rw [List.filter_append, ha, List.filter_cons_of_pos hwrite, List.filter_append, hb,
        List.filter_cons_of_pos hread, hc]
      rfl

/-- A temp that is drawn is written and then read. -/
theorem follows : Use.tally.Follows Renewal where
  refl := .refl
  append := .append
  early {old new n m} h := by
    have hle := h.le
    rw [← List.append_nil new, ← List.append_nil []] at h
    exact h.insert (by omega) (Nat.le_refl m) (by omega) (.inl (by omega)) (by omega)
  late {old a b c n m} h := by
    have hle := h.le
    exact h.insert (Nat.le_refl n) (Nat.le_succ m) (by omega) (.inr (Nat.le_refl m)) (by omega)

end Renewal

/-- Lifting keeps the uses of a statement and uses every temp that it draws twice. -/
theorem Stmt.renewal_lift (s : Stmt) (n : Nat) :
    Renewal s.uses (usesAll (s.lift n).1.flatten) n (s.lift n).2 := by
  have h := Renewal.follows.stmt s n
  rw [← Use.tally.stmts_flatten (s.lift n).1] at h
  exact h

end TreeCode.IR
