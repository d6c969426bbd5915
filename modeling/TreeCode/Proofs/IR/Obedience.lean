/-
# Code that names its addresses

`Obeys` is a judgement on trees: every store and every call names the addresses that it
uses, either on the spot or in the statement before it. Such code follows the policy that
the addresses are taken from.

Lifting keeps this. It saves an address in a fresh temp when later code has to run before
the address is used, and then the fact that the temp has the value of the address must
hold at every label of the code in between. Labels are distinct and jumps stay inside
their blocks, so a table of facts can be put together from those of the parts: `Flowing`
says that code can be followed with every table that agrees with a given one on the labels
of the code.
-/

import Mathlib.Data.List.Nodup
import TreeCode.Proofs.IR.Flow
import TreeCode.Proofs.IR.Sound

namespace TreeCode.IR

open Effect (labels)

/-- What a statement is executed as: itself, or the last instruction of what it is lifted to. -/
inductive Stmt.Becomes (s : Stmt) : Stmt → Prop
  | same : s.Becomes s
  | lifted {n : Nat} {before : List Stmt} {last : Stmt} :
      (s.lift n).1.flatten = before ++ [last] → s.Becomes last

/-- Whether a move may store to an address in all forms in which it is executed. -/
def Policy.Allows (P : Policy) (s : Stmt) (a : Expr) : Prop :=
  ∀ s', s.Becomes s' → P.store s' (some a)

/-- A piece of code. Arguments stand together with the addresses that they pass. -/
inductive Piece where
  | expr (e : Expr)
  | args (es : List Expr) (ps : List (Option Expr))
  | stmt (s : Stmt)
  | stmts (ss : List Stmt)

/-- Code that stores to addresses which it names, and passes them to functions. -/
inductive Obeys (P : Policy) : Piece → Prop
  | const {c : Word} : Obeys P (.expr (.const c))
  | name {l : Label} : Obeys P (.expr (.name l))
  | temp {t : Temp} : Obeys P (.expr (.temp t))
  | mem {a : Expr} : Obeys P (.expr a) → Obeys P (.expr (.mem a))
  | binop {op : Op} {x y : Expr} : Obeys P (.expr x) → Obeys P (.expr y) →
      Obeys P (.expr (.binop op x y))
  | unop {op : Op} {x : Expr} : Obeys P (.expr x) → Obeys P (.expr (.unop op x))
  | call {f : Label} {es : List Expr} {ps : List (Option Expr)} : Obeys P (.args es ps) →
      P.site f ps → Obeys P (.expr (.call f es))
  | eseq {s : Stmt} {e : Expr} : Obeys P (.stmt s) → Obeys P (.expr e) →
      Obeys P (.expr (.eseq s e))
  | noArg : Obeys P (.args [] [])
  | arg {e : Expr} {es : List Expr} {p : Option Expr} {ps : List (Option Expr)} :
      Obeys P (.expr e) → (∀ q, p = some q → e = q ∧ P.address q) → Obeys P (.args es ps) →
      Obeys P (.args (e :: es) (p :: ps))
  | absent : Obeys P (.stmt .absent)
  | exp {e : Expr} : Obeys P (.expr e) → Obeys P (.stmt (.exp e))
  | assign {t : Temp} {e : Expr} : Obeys P (.expr e) → Obeys P (.stmt (.move (.temp t) e))
  | store {a e : Expr} : P.address a → P.Allows (.move (.mem a) e) a → Obeys P (.expr e) →
      Obeys P (.stmt (.move (.mem a) e))
  /-- The address is remembered in a temp while the source is evaluated. -/
  | remember {t u : Temp} {a e : Expr} : t ≠ u → .assign t ∉ e.effects → P.address a →
      P.Allows (.move (.mem (.temp t)) (.temp u)) a → Obeys P (.expr e) →
      Obeys P (.stmt (.seq [.move (.temp t) a, .move (.temp u) e,
        .move (.mem (.temp t)) (.temp u)]))
  | seq {ss : List Stmt} : Obeys P (.stmts ss) → Obeys P (.stmt (.seq ss))
  | cjump {c : Expr} {t f : Label} : Obeys P (.expr c) → Obeys P (.stmt (.cjump c t f))
  | jump {l : Label} : Obeys P (.stmt (.jump l))
  | label {l : Label} : Obeys P (.stmt (.label l))
  | noStmt : Obeys P (.stmts [])
  | cons {s : Stmt} {ss : List Stmt} : Obeys P (.stmt s) → Obeys P (.stmts ss) →
      Obeys P (.stmts (s :: ss))

namespace Expr

theorem effects_of_isAddress : ∀ {e : Expr}, e.isAddress = true → e.effects = []
  | .const _, _ | .name _, _ | .temp _, _ => rfl
  | .mem a, h => effects_of_isAddress (e := a) h
  | .binop _ x y, h => by
    rw [isAddress, Bool.and_eq_true, Bool.and_eq_true] at h
    rw [effects, effects_of_isAddress h.2.1, effects_of_isAddress h.2.2, List.append_nil]
  | .unop _ _, h | .call _ _, h | .eseq _ _, h => nomatch h

theorem flows_of_isAddress {P : Policy} {T : FactTable} : ∀ {e : Expr} {D : Facts},
    e.isAddress = true → e.Flows P T D
  | .const _, _, _ | .name _, _, _ | .temp _, _, _ => trivial
  | .mem a, _, h => flows_of_isAddress (e := a) h
  | .binop _ x y, _, h => by
    rw [isAddress, Bool.and_eq_true, Bool.and_eq_true] at h
    exact ⟨flows_of_isAddress h.2.1, flows_of_isAddress h.2.2⟩
  | .unop _ _, _, h | .call _ _, _, h | .eseq _ _, _, h => nomatch h

theorem isCall_of_isAddress {e : Expr} (h : e.isAddress = true) : ¬ e.isCall = true := by
  cases e with
  | call _ _ => cases h
  | _ => exact Bool.false_ne_true

/-- There is nothing to be lifted out of an address. -/
theorem lift_of_isAddress : ∀ {e : Expr}, e.isAddress = true → ∀ n,
    e.lift n = (⟨.absent, e⟩, n)
  | .const _, _, _ | .name _, _, _ | .temp _, _, _ => rfl
  | .mem a, h, n => by
    have ha : a.liftOperand n = (⟨.absent, a⟩, n) :=
      (Lifted.operand_of_not_call (isCall_of_isAddress (e := a) h) _ n).trans
        (lift_of_isAddress (e := a) h n)
    simp only [lift, ha]
  | .binop op x y, h, n => by
    rw [isAddress, Bool.and_eq_true, Bool.and_eq_true] at h
    have hx : x.liftOperand n = (⟨.absent, x⟩, n) :=
      (Lifted.operand_of_not_call (isCall_of_isAddress h.2.1) _ n).trans
        (lift_of_isAddress h.2.1 n)
    have hy : y.liftOperand n = (⟨.absent, y⟩, n) :=
      (Lifted.operand_of_not_call (isCall_of_isAddress h.2.2) _ n).trans
        (lift_of_isAddress h.2.2 n)
    rw [lift_binop]
    simp only [hx, hy]
    rfl
  | .unop _ _, h, _ | .call _ _, h, _ | .eseq _ _, h, _ => nomatch h

theorem liftOperand_of_isAddress {e : Expr} (h : e.isAddress = true) (n : Nat) :
    e.liftOperand n = (⟨.absent, e⟩, n) :=
  (Lifted.operand_of_not_call (isCall_of_isAddress h) _ n).trans (lift_of_isAddress h n)

/-- A plain expression assigns to no temp. -/
theorem assign_notMem_of_plain {t : Temp} {e : Expr} (h : e.plain = true) :
    .assign t ∉ e.effects := by
  intro hmem
  obtain ⟨_, ⟨⟩⟩ | ⟨f, first, hcall⟩ := Effect.tally.of_plain _ h hmem
  cases List.mem_singleton.1 hcall

end Expr

section Trees

/-- A piece of code can be followed as it is, from any facts on and without any at its
labels. -/
def Piece.Flows (P : Policy) : Piece → Prop
  | .expr e => ∀ D, e.Flows P (fun _ => ∅) D
  | .args es ps => ∀ D, Expr.FlowsAll P (fun _ => ∅) D es ps
  | .stmt s => ∀ D, s.Flows P (fun _ => ∅) D ∅
  | .stmts ss => ∀ D, Stmt.FlowsAll P (fun _ => ∅) D ss ∅

theorem Obeys.flows {P : Policy} (hP : ∀ a, P.address a → a.isAddress = true) {x : Piece}
    (h : Obeys P x) : x.Flows P := by
  induction h with
  | const | name | temp => exact fun _ => trivial
  | mem _ ih | unop _ ih | seq _ ih => exact ih
  | binop _ _ ihx ihy => exact fun D => ⟨ihx D, ihy _⟩
  | call _ hsite ih => exact fun D => ⟨_, ih D, hsite⟩
  | eseq _ _ ihs ihe => exact fun D => ⟨⟨∅, ihs D⟩, ihe _⟩
  | noArg => exact fun _ => rfl
  | arg _ hp _ ihe ihes =>
    refine fun D => ⟨_, _, rfl, ihe D, fun q hq => ?_, ihes _⟩
    exact ⟨(hp q hq).2, .inl (hp q hq).1⟩
  | absent => exact fun D => Set.empty_subset D
  | exp _ ih => exact fun D => ⟨ih D, Set.empty_subset _⟩
  | assign _ ih => exact fun D => ⟨ih D, fun _ hx => hx.elim⟩
  | store ha hstore _ ih =>
    refine fun D => ⟨Expr.flows_of_isAddress (hP _ ha), ih _,
      ⟨some _, fun q hq => ?_, hstore _ .same⟩, Set.empty_subset _⟩
    cases hq
    exact ⟨ha, .inl rfl⟩
  | @remember t u a e htu ht ha hstore _ ih =>
    intro D
    have hknown : P.Known {(t, a)} (.temp t) a := ⟨ha, .inr (.inr ⟨t, rfl, rfl⟩)⟩
    refine ⟨{(t, a)}, ⟨Expr.flows_of_isAddress (hP a ha), fun x hx => .inr ?_⟩,
      {(t, a)}, ⟨ih _, fun x hx => .inl ⟨hx, ?_⟩⟩,
      ∅, ⟨trivial, trivial, ⟨some a, fun q hq => ?_, hstore _ .same⟩, Set.empty_subset _⟩,
      Set.empty_subset _⟩
    · cases hx
      exact ⟨rfl, ha, .inl rfl⟩
    · cases hx
      rw [List.mem_append, not_or, List.mem_singleton]
      exact ⟨ht, fun heq => htu (Effect.assign.inj heq)⟩
    · cases hq
      exact hknown
  | cjump _ ih => exact fun D => ⟨ih D, Set.empty_subset _, Set.empty_subset _⟩
  | jump | noStmt => exact fun _ => Set.empty_subset _
  | label => exact fun _ => ⟨Set.empty_subset _, Set.empty_subset _⟩
  | cons _ _ ihs ihss => exact fun D => ⟨∅, ihs D, ihss ∅⟩

end Trees

section Lifting

/-- Facts about temps that code does not assign to and does not draw. -/
def Facts.Clear (X : Facts) (es : List Effect) (n m : Nat) : Prop :=
  ∀ x ∈ X, .assign x.1 ∉ es ∧ (x.1.index < n ∨ (m : Int) ≤ x.1.index)

/-- Some facts and further ones about temps from a range. -/
structure Facts.Grows (X X' : Facts) (n m : Nat) : Prop where
  subset : X ⊆ X'
  fresh : ∀ x ∈ X', x ∈ X ∨ (n : Int) ≤ x.1.index ∧ x.1.index < m

namespace Facts

variable {X X' X'' : Facts} {es es' : List Effect} {n m k i j : Nat}

theorem Clear.mono (h : X.Clear es n m) (hes : ∀ e ∈ es', e ∈ es) (hi : n ≤ i) (hj : j ≤ m) :
    X.Clear es' i j := by
  intro x hx
  obtain ⟨hassign, hrange⟩ := h x hx
  exact ⟨fun hmem => hassign (hes _ hmem), by omega⟩

theorem Grows.refl (X : Facts) (n m : Nat) : X.Grows X n m :=
  ⟨Set.Subset.refl X, fun _ => .inl⟩

theorem Grows.trans (h : X.Grows X' n m) (h' : X'.Grows X'' m k) (hn : n ≤ m) (hm : m ≤ k) :
    X.Grows X'' n k := by
  refine ⟨Set.Subset.trans h.subset h'.subset, fun x hx => ?_⟩
  rcases h'.fresh x hx with hx | hx
  · exact (h.fresh x hx).imp_right fun hx => by omega
  · exact .inr (by omega)

theorem Grows.mono (h : X.Grows X' n m) (hi : i ≤ n) (hj : m ≤ j) : X.Grows X' i j :=
  ⟨h.subset, fun x hx => (h.fresh x hx).imp_right fun hx => by omega⟩

/-- Code that comes later does not touch the temps that earlier code has drawn. -/
theorem Clear.of_grows (h : X.Clear es n k) (hgrows : X.Grows X' n m)
    (hbound : ∀ t : Temp, .assign t ∈ es → t.index < n) (hm : n ≤ m) (hj : j ≤ k) :
    X'.Clear es m j := by
  intro x hx
  rcases hgrows.fresh x hx with hx | hx
  · obtain ⟨hassign, hrange⟩ := h x hx
    exact ⟨hassign, by omega⟩
  · exact ⟨fun hmem => absurd (hbound _ hmem) (by omega), by omega⟩

end Facts

/-- Code leads from some facts to others for every table that has the facts `F` at the
labels in `B` and agrees with some table on the other labels of the code. -/
def Flowing (P : Policy) (L B : List Label) (F X : Facts) (code : List Stmt) (Y : Facts) : Prop :=
  ∃ T₁ : FactTable, ∀ T : FactTable, (∀ l ∈ L, l ∉ B → T l = T₁ l) → (∀ l ∈ B, T l = F) →
    Stmt.FlowsAll P T X code Y

namespace Flowing

variable {P : Policy} {L L' B : List Label} {F F' X Y Z : Facts} {a b : List Stmt}

theorem nil (h : Y ⊆ X) : Flowing P L B F X [] Y :=
  ⟨fun _ => ∅, fun _ _ _ => h⟩

theorem append (ha : Flowing P L B F X a Y) (hb : Flowing P L' B F Y b Z)
    (hdisjoint : L.Disjoint L') : Flowing P (L ++ L') B F X (a ++ b) Z := by
  obtain ⟨T₁, ha⟩ := ha
  obtain ⟨T₂, hb⟩ := hb
  refine ⟨fun l => if l ∈ L then T₁ l else T₂ l, fun T hT hF => ?_⟩
  refine Stmt.flowsAll_append (ha T (fun l hl hout => ?_) hF) (hb T (fun l hl hout => ?_) hF)
  · exact (hT l (List.mem_append_left _ hl) hout).trans (if_pos hl)
  · exact (hT l (List.mem_append_right _ hl) hout).trans (if_neg fun hmem => hdisjoint hmem hl)

theorem snoc {s : Stmt} (ha : Flowing P L B F X a Y)
    (hs : ∀ T : FactTable, (∀ l ∈ B, T l = F) → s.Flows P T Y Z) :
    Flowing P L B F X (a ++ [s]) Z := by
  obtain ⟨T₁, ha⟩ := ha
  exact ⟨T₁, fun T hT hF => Stmt.flowsAll_append (ha T hT hF) (Stmt.flowsAll_singleton (hs T hF))⟩

/-- Facts may be fixed at labels that the code does not place. -/
theorem outer (h : Flowing P L [] F X a Y) (hdisjoint : ∀ l ∈ B, l ∉ L) :
    Flowing P L B F' X a Y := by
  obtain ⟨T₁, h⟩ := h
  exact ⟨T₁, fun T hT _ => h T (fun l hl _ => hT l hl fun hmem => hdisjoint l hmem hl)
    fun _ hl => nomatch hl⟩

/-- The labels of a block belong to the code that the block is part of. -/
theorem inner (h : Flowing P L B F X a Y) (hB : ∀ l ∈ B, l ∈ L) : Flowing P L [] F' X a Y := by
  obtain ⟨T₁, h⟩ := h
  refine ⟨fun l => if l ∈ B then F else T₁ l,
    fun T hT _ => h T (fun l hl hout => ?_) fun l hl => ?_⟩
  · exact (hT l hl List.not_mem_nil).trans (if_neg hout)
  · exact (hT l (hB l hl) List.not_mem_nil).trans (if_pos hl)

end Flowing

/-- What was lifted in front of some code leads from some facts to more, under which `V`
holds. The new facts are about the temps drawn on the way. -/
def Carries (P : Policy) (L : List Label) (X : Facts) (n m : Nat) (pre : Stmt)
    (V : Facts → Prop) : Prop :=
  ∃ X', X.Grows X' n m ∧ Flowing P L [] ∅ X pre.flatten X' ∧ V X'

/-- A lifted expression follows a policy. -/
def Lifted.Carries (P : Policy) (e : Expr) (lifted : Fresh Lifted) : Prop :=
  ∀ {N : Label → Prop} {k n : Nat} {X : Facts}, e.Sound N k → k ≤ n → (labels e.effects).Nodup →
    X.Clear e.effects n (lifted n).2 → IR.Carries P (labels e.effects) X n (lifted n).2
      (lifted n).1.pre fun X' => ∀ T, (lifted n).1.value.Flows P T X'

/-- The labels to which the jumps of a block may lead. Apart from those on its top level
it places none of them. -/
structure Hosts (B : List Label) (s : Stmt) : Prop where
  targets : ∀ i ∈ s.flatten, ∀ l ∈ Block.targets i, l ∈ B
  placed : ∀ l ∈ Block.placed s.flatten, l ∈ B
  apart : ∀ l ∈ B, l ∈ labels s.effects → l ∈ Block.placed s.flatten

/-- A lifted statement follows a policy. It keeps the facts that it starts from, which
also hold at the labels of the block it is part of. -/
def Stmt.Carries (P : Policy) (s : Stmt) (lifted : Fresh Stmt) : Prop :=
  ∀ {N : Label → Prop} {k n : Nat} {X : Facts} {B : List Label}, s.Sound N k → k ≤ n →
    (labels s.effects).Nodup → X.Clear s.effects n (lifted n).2 → Hosts B s →
    Flowing P (labels s.effects) B X X (lifted n).1.flatten X

section

variable {P : Policy} {L L' : List Label} {X : Facts} {n m k : Nat}

theorem Facts.after_of_plain {e : Expr} (h : e.plain = true) : X.after e.effects = X :=
  after_of_forall fun _ => Expr.assign_notMem_of_plain h

theorem Carries.imp {pre : Stmt} {V V' : Facts → Prop} (h : Carries P L X n m pre V)
    (hV : ∀ X', V X' → V' X') : Carries P L X n m pre V' := by
  obtain ⟨X', hgrows, hflow, hvalue⟩ := h
  exact ⟨X', hgrows, hflow, hV X' hvalue⟩

/-- An operand that is a call goes into a temp of which nothing is known. -/
theorem Lifted.Carries.operand {e : Expr} (h : Lifted.Carries P e e.lift) :
    Lifted.Carries P e e.liftOperand := by
  intro N k n X hsound hk hnodup hclear
  by_cases hcall : e.isCall = true
  · have hle := (e.refreshes_lift (n + 1)).le
    have hplain := (Expr.plain_lift hsound.aimed (n + 1)).value
    rw [Expr.liftOperand, Lifted.operand_of_call hcall] at hclear ⊢
    obtain ⟨X', hgrows, hflow, hvalue⟩ := h hsound (Nat.le_succ_of_le hk) hnodup
      (hclear.mono (fun _ => id) (Nat.le_succ n) (Nat.le_refl _))
    refine ⟨X', hgrows.mono (Nat.le_succ n) (Nat.le_refl _), ?_, fun _ => trivial⟩
    rw [Stmt.flatten_andThen]
    refine hflow.snoc fun T _ => ⟨hvalue T, fun x hx => .inl ?_⟩
    rw [Facts.after_append, Facts.after_of_plain hplain]
    refine ⟨hx, fun hmem => ?_⟩
    have hindex : x.1.index = n := congrArg Temp.index
      (Effect.assign.inj (List.mem_singleton.1 hmem))
    rcases hgrows.fresh x hx with hx | hx
    · have hrange := (hclear x hx).2
      dsimp only at hrange
      omega
    · omega
  · rw [Expr.liftOperand, Lifted.operand_of_not_call hcall] at hclear ⊢
    exact h hsound hk hnodup hclear

theorem Lifted.le_before (x : Lifted) (later : Stmt) (n : Nat) : n ≤ (x.before later n).2 := by
  unfold before
  split
  · exact Nat.le_refl n
  · exact Nat.le_succ n

/-- What is known of an operand is known of the temp in which it is saved, and code that
runs before the operand is used keeps it. -/
theorem Carries.before {x : Lifted} {later : Stmt} {es : List Effect} {p : Option Expr}
    {V : Facts → Prop} (hx : Carries P L X n m x.pre fun X' => ∀ T, x.value.Flows P T X')
    (hplain : x.value.plain = true) (hp : ∀ q, p = some q → x.value = q ∧ P.address q)
    (hlater : ∀ Y : Facts, Y.Clear es m k → Carries P L' Y m k later V)
    (hclear : X.Clear es n (x.before later k).2) (hbound : ∀ t : Temp, .assign t ∈ es → t.index < n)
    (hm : n ≤ m) (hk : m ≤ k) (hdisjoint : L.Disjoint L') :
    Carries P (L ++ L') X n (x.before later k).2 (x.before later k).1.pre fun X' =>
      (∀ T, (x.before later k).1.value.Flows P T X') ∧
        (∀ q, p = some q → P.Known X' (x.before later k).1.value q) ∧ V X' := by
  obtain ⟨X₁, hgrows, hflow, hvalue⟩ := hx
  by_cases hcomm : later.commutes x.value = true
  · rw [Lifted.before_of_commutes hcomm] at hclear ⊢
    obtain ⟨Y, hgrows', hflow', hV⟩ :=
      hlater X₁ (hclear.of_grows hgrows hbound hm (Nat.le_refl k))
    refine ⟨Y, hgrows.trans hgrows' hm hk, ?_, fun T => (hvalue T).mono hgrows'.subset,
      fun q hq => ⟨(hp q hq).2, .inl (hp q hq).1⟩, hV⟩
    rw [Stmt.flatten_andThen]
    exact hflow.append hflow' hdisjoint
  · rw [Lifted.before_of_not_commutes hcomm] at hclear ⊢
    -- The temp that saves the value is fresh, so all facts survive and one may be added.
    let Y₁ : Facts := X₁ ∪ {y | y.1 = ⟨k⟩ ∧ p = some y.2}
    have hold := hclear.of_grows hgrows hbound hm (Nat.le_succ k)
    have hother : ∀ y ∈ X₁, y.1 ≠ ⟨k⟩ := by
      intro y hy heq
      have hindex : y.1.index = k := congrArg Temp.index heq
      rcases hgrows.fresh y hy with hy | hy
      · have hrange := (hclear y hy).2
        dsimp only at hrange
        omega
      · omega
    have hclear₁ : Y₁.Clear es m k := by
      rintro y (hy | hy)
      · exact hold y hy
      · rw [hy.1]
        exact ⟨fun hmem => absurd (hbound _ hmem) (by dsimp only; omega), .inr (Int.le_refl _)⟩
    obtain ⟨Y, hgrows', hflow', hV⟩ := hlater Y₁ hclear₁
    have hsaved : Flowing P L [] ∅ X (x.pre.flatten ++ [.move (.temp ⟨k⟩) x.value]) Y₁ := by
      refine hflow.snoc fun T _ => ⟨hvalue T, ?_⟩
      rintro y (hy | hy)
      · refine .inl ?_
        rw [Facts.after_append, Facts.after_of_plain hplain]
        exact ⟨hy, fun hmem => hother y hy (Effect.assign.inj (List.mem_singleton.1 hmem))⟩
      · exact .inr ⟨hy.1, (hp _ hy.2).2, .inl (hp _ hy.2).1⟩
    have hknown : ∀ q, p = some q → ((⟨k⟩, q) : Temp × Expr) ∈ Y :=
      fun q hq => hgrows'.subset (.inr ⟨rfl, hq⟩)
    refine ⟨Y, ⟨?_, fun y hy => ?_⟩, ?_, fun _ => trivial,
      fun q hq => ⟨(hp q hq).2, .inr (.inr ⟨⟨k⟩, rfl, hknown q hq⟩)⟩, hV⟩
    · exact Set.Subset.trans hgrows.subset
        (Set.Subset.trans Set.subset_union_left hgrows'.subset)
    · rcases hgrows'.fresh y hy with (hy | hy) | hy
      · exact (hgrows.fresh y hy).imp_right fun hy => by dsimp only; omega
      · have hindex : y.1.index = k := congrArg Temp.index hy.1
        exact .inr (by dsimp only; omega)
      · exact .inr (by dsimp only; omega)
    · rw [Stmt.flatten_andThen, Stmt.flatten_andThen]
      exact hsaved.append hflow' hdisjoint

end

namespace Hosts

variable {B : List Label} {s : Stmt} {ss : List Stmt}

theorem of_closed (h : Block.Closed s.flatten) : Hosts (Block.placed s.flatten) s :=
  ⟨h, fun _ => id, fun _ hl _ => hl⟩

variable (h : Hosts B (.seq (s :: ss)))
  (hdisjoint : (labels s.effects).Disjoint (labels (Stmt.effectsAll ss)))
include h hdisjoint

theorem head : Hosts B s where
  targets i hi := h.targets i (List.mem_append_left _ hi)
  placed l hl := by
    refine h.placed l ?_
    rw [Stmt.flatten, Stmt.flattenAll, Block.placed_append]
    exact List.mem_append_left _ hl
  apart l hl hmem := by
    have hplaced := h.apart l hl (by
      rw [Stmt.effects, Stmt.effectsAll, Effect.labels_append]
      exact List.mem_append_left _ hmem)
    rw [Stmt.flatten, Stmt.flattenAll, Block.placed_append, List.mem_append] at hplaced
    exact hplaced.resolve_right fun hlater =>
      hdisjoint hmem ((Stmt.placed_flattenAll ss).subset hlater)

theorem tail :
    Hosts B (.seq ss) where
  targets i hi := h.targets i (List.mem_append_right _ hi)
  placed l hl := by
    refine h.placed l ?_
    rw [Stmt.flatten, Stmt.flattenAll, Block.placed_append]
    exact List.mem_append_right _ hl
  apart l hl hmem := by
    have hplaced := h.apart l hl (by
      rw [Stmt.effects, Stmt.effectsAll, Effect.labels_append]
      exact List.mem_append_right _ hmem)
    rw [Stmt.flatten, Stmt.flattenAll, Block.placed_append, List.mem_append] at hplaced
    exact hplaced.resolve_left fun hearlier =>
      hdisjoint ((Stmt.placed_flatten s).subset hearlier) hmem

end Hosts

variable {P : Policy}

theorem Stmt.liftAll_cons (s : Stmt) (ss : List Stmt) (n : Nat) :
    Stmt.liftAll (s :: ss) n =
      let s' := s.lift n
      let ss' := Stmt.liftAll ss s'.2
      (s'.1.andThen ss'.1, ss'.2) := rfl

variable {a e : Expr} {s : Stmt} {p : Option Expr} {N : Label → Prop} {k n : Nat} {X : Facts}

/-- One statement after another keeps the facts if both do. -/
theorem Stmt.Carries.cons {ss : List Stmt} (hs : s.Carries P s.lift)
    (hss : Stmt.Carries P (.seq ss) (Stmt.liftAll ss)) :
    Stmt.Carries P (.seq (s :: ss)) (Stmt.liftAll (s :: ss)) := by
  intro N k n X B hsound hk hnodup hclear hhosts
  have hle := (Stmt.refresh_lift s n).le
  have hle' := (Stmt.refresh_liftAll ss (s.lift n).2).le
  rw [Stmt.effects, Stmt.effectsAll, Effect.labels_append] at hnodup ⊢
  obtain ⟨hnodup₁, hnodup₂, hdisjoint⟩ := List.nodup_append'.1 hnodup
  have hfirst := hs hsound.1 hk hnodup₁
    (hclear.mono (fun _ => List.mem_append_left _) (Nat.le_refl n) hle') (hhosts.head hdisjoint)
  have hrest := hss hsound.2 (Nat.le_trans hk hle) hnodup₂
    (hclear.mono (fun _ => List.mem_append_right _) hle (Nat.le_refl _)) (hhosts.tail hdisjoint)
  rw [Stmt.liftAll_cons, Stmt.flatten_andThen]
  exact hfirst.append hrest hdisjoint

/-- A block inside an expression keeps the facts. -/
theorem Stmt.Carries.closed (h : s.Carries P s.lift) (hsound : s.Sound N k)
    (hclosed : Block.Closed s.flatten) (hk : k ≤ n) (hnodup : (labels s.effects).Nodup)
    (hclear : X.Clear s.effects n (s.lift n).2) :
    Flowing P (labels s.effects) [] ∅ X (s.lift n).1.flatten X :=
  (h hsound hk hnodup hclear (.of_closed hclosed)).inner fun _ hl =>
    (Stmt.placed_flatten s).subset hl

/-- What an instruction lifts in front of it, followed by the instruction. -/
theorem Carries.snoc {L B : List Label} {m : Nat} {pre : Stmt} {V : Facts → Prop}
    (h : Carries P L X n m pre V) (hdisjoint : ∀ l ∈ B, l ∉ L)
    (hs : ∀ (T : FactTable) (X' : Facts), (∀ l ∈ B, T l = X) → X ⊆ X' → V X' →
      s.Flows P T X' X) : Flowing P L B X X (pre.flatten ++ [s]) X := by
  obtain ⟨X', hgrows, hflow, hvalue⟩ := h
  exact hflow.outer hdisjoint |>.snoc fun T hT => hs T X' hT hgrows.subset hvalue

theorem Lifted.Carries.assign (h : Lifted.Carries P e e.lift) (t : Temp) :
    Stmt.Carries P (.move (.temp t) e) (Stmt.move (.temp t) e).lift := by
  intro N k n X B hsound hk hnodup hclear hhosts
  have hplain := (Expr.plain_lift hsound.2.aimed n).value
  have hlabels : labels (Stmt.move (.temp t) e).effects = labels e.effects := by
    rw [Stmt.effects, Expr.moveEffects, Effect.labels_append]
    exact List.append_nil _
  rw [hlabels] at hnodup ⊢
  have hvalue := h hsound.2 hk hnodup
    (hclear.mono (fun _ => List.mem_append_left _) (Nat.le_refl n) (Nat.le_refl _))
  change Flowing P _ B X X ((e.lift n).1.pre.andThen (.move (.temp t) (e.lift n).1.value)).flatten X
  rw [Stmt.flatten_andThen]
  refine hvalue.snoc (fun l hl hmem => ?_) fun T X' _ hsub hflows => ⟨hflows T, fun x hx => .inl ?_⟩
  · exact List.not_mem_nil (hhosts.apart l hl (hlabels ▸ hmem))
  · rw [Facts.after_append, Facts.after_of_plain hplain]
    exact ⟨hsub hx, fun hmem => (hclear x hx).1 (List.mem_append_right _ hmem)⟩

/-- Two operands, the first of which is used after the second was lifted. -/
theorem Lifted.Carries.pair {x y : Expr} (hx : Lifted.Carries P x x.liftOperand)
    (hy : Lifted.Carries P y y.liftOperand)
    (hp : ∀ q, p = some q → (x.liftOperand n).1.value = q ∧ P.address q) (hsound : x.Sound N k)
    (hsound' : y.Sound N k) (hk : k ≤ n) (hnodup : (labels (x.effects ++ y.effects)).Nodup)
    (hclear : X.Clear (x.effects ++ y.effects) n ((x.liftOperand n).1.before
      (y.liftOperand (x.liftOperand n).2).1.pre (y.liftOperand (x.liftOperand n).2).2).2) :
    let y' := y.liftOperand (x.liftOperand n).2
    let z := (x.liftOperand n).1.before y'.1.pre y'.2
    IR.Carries P (labels (x.effects ++ y.effects)) X n z.2 z.1.pre fun X' =>
      (∀ T, z.1.value.Flows P T X') ∧ (∀ q, p = some q → P.Known X' z.1.value q) ∧
        ∀ T, y'.1.value.Flows P T X' := by
  have hle := (x.refreshes_liftOperand n).le
  have hle' := (y.refreshes_liftOperand (x.liftOperand n).2).le
  have hlast := (x.liftOperand n).1.le_before (y.liftOperand (x.liftOperand n).2).1.pre
    (y.liftOperand (x.liftOperand n).2).2
  rw [Effect.labels_append] at hnodup ⊢
  obtain ⟨hnodup₁, hnodup₂, hdisjoint⟩ := List.nodup_append'.1 hnodup
  refine IR.Carries.before (hx hsound hk hnodup₁ (hclear.mono (fun _ => List.mem_append_left _)
    (Nat.le_refl n) (Nat.le_trans hle' hlast))) ?_ hp
    (fun Y hY => hy hsound' (Nat.le_trans hk hle) hnodup₂ hY)
    (hclear.mono (fun _ => List.mem_append_right _) (Nat.le_refl n) (Nat.le_refl _)) ?_ hle hle'
    hdisjoint
  · exact (Lifted.Plain.operand (e := x) (Expr.plain_lift hsound.aimed) n).value
  · intro t ht
    have hlt := hsound'.confined.bounded t ht
    omega

/-- Lifting a piece of code gives code that follows the policy. -/
def Piece.Carries (P : Policy) : Piece → Prop
  | .expr e => Lifted.Carries P e e.lift
  | .args es ps => ∀ {N : Label → Prop} {k n : Nat} {X : Facts}, Expr.SoundAll N k es → k ≤ n →
      (labels (Expr.effectsAll es)).Nodup →
      X.Clear (Expr.effectsAll es) n (Expr.liftAll es n).2 →
      IR.Carries P (labels (Expr.effectsAll es)) X n (Expr.liftAll es n).2 (Expr.liftAll es n).1.1
        fun X' => ∀ T, Expr.FlowsAll P T X' (Expr.liftAll es n).1.2 ps
  | .stmt s => s.Carries P s.lift
  | .stmts ss => Stmt.Carries P (.seq ss) (Stmt.liftAll ss)

theorem Piece.Carries.arg {es : List Expr} {ps : List (Option Expr)}
    (he : Lifted.Carries P e e.lift) (hp : ∀ q, p = some q → e = q ∧ P.address q)
    (hP : ∀ a, P.address a → a.isAddress = true) (hes : (Piece.args es ps).Carries P) :
    (Piece.args (e :: es) (p :: ps)).Carries P := by
  intro N k n X hsound hk hnodup hclear
  have hle := (e.refreshes_liftOperand n).le
  have hle' := (Expr.refresh_liftAll es (e.liftOperand n).2).le
  have hlast := (e.liftOperand n).1.le_before (Expr.liftAll es (e.liftOperand n).2).1.1
    (Expr.liftAll es (e.liftOperand n).2).2
  have hplain := Lifted.Plain.operand (e := e) (Expr.plain_lift hsound.1.aimed) n
  have hplain' := hplain.before (Expr.plain_liftAll hsound.2.aimed (e.liftOperand n).2).1
    (Expr.liftAll es (e.liftOperand n).2).2
  rw [Expr.effectsAll, Effect.labels_append] at hnodup ⊢
  obtain ⟨hnodup₁, hnodup₂, hdisjoint⟩ := List.nodup_append'.1 hnodup
  have hvalue : ∀ q, p = some q → (e.liftOperand n).1.value = q ∧ P.address q := by
    intro q hq
    obtain ⟨rfl, haddr⟩ := hp q hq
    exact ⟨by rw [Expr.liftOperand_of_isAddress (hP e haddr)], haddr⟩
  have hboth := IR.Carries.before
    (he.operand hsound.1 hk hnodup₁ (hclear.mono (fun _ => List.mem_append_left _)
      (Nat.le_refl n) (Nat.le_trans hle' hlast))) hplain.value hvalue
    (fun Y hY => hes hsound.2 (Nat.le_trans hk hle) hnodup₂ hY)
    (hclear.mono (fun _ => List.mem_append_right _) (Nat.le_refl n) (Nat.le_refl _))
    (fun t ht => by have hlt := hsound.2.confined.bounded t ht; omega) hle hle' hdisjoint
  rw [Expr.liftAll_cons]
  refine hboth.imp fun X' hX' T => ⟨p, ps, rfl, hX'.1 T, hX'.2.1, ?_⟩
  rw [Facts.after_of_plain hplain'.value]
  exact hX'.2.2 T

section

variable (he : Lifted.Carries P e e.lift) (hP : ∀ a, P.address a → a.isAddress = true)
include he hP

theorem Lifted.Carries.store (ha : P.address a) (hstore : P.Allows (.move (.mem a) e) a) :
    Stmt.Carries P (.move (.mem a) e) (Stmt.move (.mem a) e).lift := by
  intro N k n X B hsound hk hnodup hclear hhosts
  have hisaddr := hP a ha
  have hlift := Expr.liftOperand_of_isAddress hisaddr n
  have hplain := (Lifted.Plain.operand (e := a) (Expr.plain_lift hsound.1.aimed) n)
  have hplain' := Lifted.Plain.operand (e := e) (Expr.plain_lift hsound.2.aimed)
    (a.liftOperand n).2
  have hplain₂ := hplain.before hplain'.pre (e.liftOperand (a.liftOperand n).2).2
  have hlabels : labels (Stmt.move (.mem a) e).effects = labels (a.effects ++ e.effects) := by
    rw [Stmt.effects, Expr.moveEffects, Effect.labels_append (a.effects ++ e.effects)]
    exact List.append_nil _
  rw [hlabels] at hnodup ⊢
  have haddr : Lifted.Carries P a a.liftOperand := by
    intro N k n X _ _ _ _
    rw [Expr.liftOperand_of_isAddress hisaddr n]
    exact ⟨X, .refl _ _ _, .nil (Set.Subset.refl X), fun T => Expr.flows_of_isAddress hisaddr⟩
  have hboth := Lifted.Carries.pair haddr he.operand
    (fun q hq => ⟨(congrArg (·.1.value) hlift).trans (Option.some.inj hq), Option.some.inj hq ▸ ha⟩)
    hsound.1 hsound.2 hk hnodup
    (hclear.mono (fun _ => List.mem_append_left _) (Nat.le_refl n) (Nat.le_refl _))
  let y := e.liftOperand (a.liftOperand n).2
  let z := (a.liftOperand n).1.before y.1.pre y.2
  have hshape : ((Stmt.move (.mem a) e).lift n).1.flatten =
      z.1.pre.flatten ++ [.move (.mem z.1.value) y.1.value] := Stmt.flatten_andThen _ _
  rw [hshape]
  refine hboth.snoc (fun l hl hmem => ?_) fun T X' _ hsub hX' => ⟨hX'.1 T, ?_, ?_, ?_⟩
  · exact List.not_mem_nil (hhosts.apart l hl (hlabels ▸ hmem))
  · rw [Facts.after_of_plain hplain₂.value]
    exact hX'.2.2 T
  · exact ⟨some a, hX'.2.1, hstore _ (.lifted hshape)⟩
  · rw [Facts.after_append, Facts.after_of_plain hplain₂.value, Facts.after_of_plain hplain'.value]
    exact hsub

/-- An address that waits in a temp is still known when it is used. -/
theorem Lifted.Carries.remember {t u : Temp} (htu : t ≠ u) (ht : .assign t ∉ e.effects)
    (ha : P.address a) (hstore : P.Allows (.move (.mem (.temp t)) (.temp u)) a) :
    Stmt.Carries P (.seq [.move (.temp t) a, .move (.temp u) e, .move (.mem (.temp t)) (.temp u)])
      (Stmt.liftAll [.move (.temp t) a, .move (.temp u) e, .move (.mem (.temp t)) (.temp u)]) := by
  intro N k n X B hsound hk hnodup hclear hhosts
  have hisaddr := hP a ha
  have hfirst : (Stmt.move (.temp t) a).lift n = (.move (.temp t) a, n) := by
    change ((a.lift n).1.pre.andThen (.move (.temp t) (a.lift n).1.value), (a.lift n).2) = _
    rw [Expr.lift_of_isAddress hisaddr n]
    rfl
  have heffects : (Stmt.seq [.move (.temp t) a, .move (.temp u) e,
      .move (.mem (.temp t)) (.temp u)]).effects =
        .assign t :: ((Stmt.move (.temp u) e).effects ++ [.store]) := by
    simp only [Stmt.effects, Stmt.effectsAll, Expr.moveEffects, Expr.effects,
      Expr.effects_of_isAddress hisaddr, List.nil_append, List.append_nil, List.cons_append]
  have hlabels : labels (.assign t :: ((Stmt.move (.temp u) e).effects ++ [.store])) =
      labels (Stmt.move (.temp u) e).effects :=
    (Effect.labels_append _ [.store]).trans (List.append_nil _)
  have hlift : Stmt.liftAll [.move (.temp t) a, .move (.temp u) e,
      .move (.mem (.temp t)) (.temp u)] n = (Stmt.andThen (.move (.temp t) a)
        (((Stmt.move (.temp u) e).lift n).1.andThen (.move (.mem (.temp t)) (.temp u))),
          ((Stmt.move (.temp u) e).lift n).2) := by
    rw [Stmt.liftAll_cons, hfirst]
    rfl
  have hapart : ∀ l ∈ B, l ∉ labels (Stmt.move (.temp u) e).effects := by
    intro l hl hmem
    refine List.not_mem_nil (hhosts.apart l hl ?_)
    rwa [heffects, hlabels]
  rw [hlift, heffects] at hclear
  rw [heffects, hlabels] at hnodup ⊢
  let X₁ : Facts := X ∪ {(t, a)}
  have hclear₁ : X₁.Clear (Stmt.move (.temp u) e).effects n ((Stmt.move (.temp u) e).lift n).2 := by
    rintro x (hx | rfl)
    · exact hclear.mono (fun f hf => List.mem_cons_of_mem _ (List.mem_append_left _ hf))
        (Nat.le_refl n) (Nat.le_refl _) x hx
    · refine ⟨fun hmem => ?_, .inl ?_⟩
      · rcases List.mem_append.1 hmem with hmem | hmem
        · exact ht hmem
        · exact htu (Effect.assign.inj (List.mem_singleton.1 hmem))
      · have hlt : t.index < k := hsound.1.1.2.2
        exact Int.lt_of_lt_of_le hlt (Int.ofNat_le.2 hk)
  have hclosed : Block.Closed (Stmt.move (.temp u) e).flatten :=
    @Block.closed_single (.move (.temp u) e) rfl
  have hnone : Hosts [] (.move (.temp u) e) := .of_closed hclosed
  have hsource : Flowing P _ B X _ _ _ :=
    (he.assign u hsound.2.1 hk hnodup hclear₁ hnone).outer hapart
  have hsave : Flowing P [] B X X [.move (.temp t) a] X₁ := by
    refine Flowing.snoc (.nil (Set.Subset.refl X)) fun T _ =>
      ⟨Expr.flows_of_isAddress hisaddr, ?_⟩
    rintro x (hx | rfl)
    · refine .inl ⟨hx, fun hmem => (hclear x hx).1 ?_⟩
      rw [Expr.effects_of_isAddress hisaddr, List.nil_append, List.mem_singleton] at hmem
      exact hmem ▸ List.mem_cons_self
    · exact .inr ⟨rfl, ha, .inl rfl⟩
  rw [hlift, Stmt.flatten_andThen, Stmt.flatten_andThen]
  refine hsave.append (L := []) (hsource.snoc fun T _ =>
    ⟨trivial, trivial, ⟨some a, ?_, hstore _ .same⟩, ?_⟩)
    (List.disjoint_nil_left _)
  · intro q hq
    cases hq
    exact ⟨ha, .inr (.inr ⟨t, rfl, .inr rfl⟩)⟩
  · exact fun x hx => ⟨.inl hx, List.not_mem_nil⟩

end

/-- Lifting code that names its addresses gives code that follows the policy. -/
theorem Obeys.carries (hP : ∀ a, P.address a → a.isAddress = true) {x : Piece}
    (h : Obeys P x) : x.Carries P := by
  induction h with
  | const | name | temp =>
    exact fun _ _ _ _ => ⟨_, .refl _ _ _, .nil (Set.Subset.refl _), fun _ => trivial⟩
  | mem _ ih | unop _ ih => exact ih.operand
  | @binop op x y _ _ ihx ihy =>
    intro N k n X hsound hk hnodup hclear
    have hplain := Lifted.Plain.operand (e := x) (Expr.plain_lift hsound.1.aimed) n
    have hplain' := hplain.before (Lifted.Plain.operand (e := y) (Expr.plain_lift hsound.2.aimed)
      (x.liftOperand n).2).pre (y.liftOperand (x.liftOperand n).2).2
    have hboth := Lifted.Carries.pair (p := none) ihx.operand ihy.operand
      (by rintro _ ⟨⟩) hsound.1 hsound.2 hk hnodup hclear
    rw [Expr.lift_binop]
    refine hboth.imp fun X' hX' T => ⟨hX'.1 T, ?_⟩
    rw [Facts.after_of_plain hplain'.value]
    exact hX'.2.2 T
  | @call f es ps _ hsite ih =>
    intro N k n X hsound hk hnodup hclear
    have hlabels : labels (Expr.call f es).effects = labels (Expr.effectsAll es) :=
      (Effect.labels_append _ _).trans (List.append_nil _)
    rw [hlabels] at hnodup ⊢
    have hargs := ih hsound hk hnodup
      (hclear.mono (fun _ => List.mem_append_left _) (Nat.le_refl n) (Nat.le_refl _))
    exact hargs.imp fun X' hX' T => ⟨ps, hX' T, hsite⟩
  | @eseq s e _ _ ihs ihe =>
    intro N k n X hsound hk hnodup hclear
    have hle := (Stmt.refresh_lift s n).le
    have hle' := (e.refreshes_lift (s.lift n).2).le
    rw [Expr.effects, Effect.labels_append] at hnodup ⊢
    obtain ⟨hnodup₁, hnodup₂, hdisjoint⟩ := List.nodup_append'.1 hnodup
    have hfirst := ihs.closed hsound.1.1 hsound.1.2 hk hnodup₁
      (hclear.mono (fun _ => List.mem_append_left _) (Nat.le_refl n) hle')
    obtain ⟨X', hgrows, hflow, hvalue⟩ := ihe hsound.2 (Nat.le_trans hk hle) hnodup₂
      (hclear.mono (fun _ => List.mem_append_right _) hle (Nat.le_refl _))
    refine ⟨X', hgrows.mono hle (Nat.le_refl _), ?_, hvalue⟩
    change Flowing P _ [] ∅ X ((s.lift n).1.andThen (e.lift (s.lift n).2).1.pre).flatten X'
    rw [Stmt.flatten_andThen]
    exact hfirst.append hflow hdisjoint
  | noArg =>
    exact fun _ _ _ _ => ⟨_, .refl _ _ _, .nil (Set.Subset.refl _), fun _ => rfl⟩
  | arg _ hp _ ihe ihes => exact Piece.Carries.arg ihe hp hP ihes
  | absent | noStmt => exact fun _ _ _ _ _ => .nil (Set.Subset.refl _)
  | @exp e _ ih =>
    intro N k n X B hsound hk hnodup hclear hhosts
    have hsound : e.Sound N k := hsound
    change Flowing P _ B X X ((e.lift n).1.pre.andThen (.exp (e.lift n).1.value)).flatten X
    rw [Stmt.flatten_andThen]
    refine (ih hsound hk hnodup hclear).snoc
      (fun l hl hmem => List.not_mem_nil (hhosts.apart l hl hmem))
      fun T X' _ hsub hflows => ⟨hflows T, ?_⟩
    rwa [Facts.after_of_plain (Expr.plain_lift hsound.aimed n).value]
  | assign _ ih => exact ih.assign _
  | store ha hstore _ ih => exact ih.store hP ha hstore
  | remember htu ht ha hstore _ ih => exact ih.remember hP htu ht ha hstore
  | seq _ ih => exact ih
  | @cjump c t f _ ih =>
    intro N k n X B hsound hk hnodup hclear hhosts
    have hsound : c.Sound N k := hsound
    have hlabels : labels (Stmt.cjump c t f).effects = labels c.effects :=
      (Effect.labels_append _ _).trans (List.append_nil _)
    rw [hlabels] at hnodup ⊢
    have hvalue := ih.operand hsound hk hnodup
      (hclear.mono (fun _ => List.mem_append_left _) (Nat.le_refl n) (Nat.le_refl _))
    have hplain := Lifted.Plain.operand (e := c) (Expr.plain_lift hsound.aimed) n
    have htarget : t ∈ B ∧ f ∈ B := by
      refine ⟨hhosts.targets _ (List.mem_singleton_self _) t ?_,
        hhosts.targets _ (List.mem_singleton_self _) f ?_⟩
      · exact List.mem_cons_self
      · exact List.mem_cons_of_mem _ (List.mem_singleton_self f)
    change Flowing P _ B X X
      ((c.liftOperand n).1.pre.andThen (.cjump (c.liftOperand n).1.value t f)).flatten X
    rw [Stmt.flatten_andThen]
    refine hvalue.snoc (fun l hl hmem => List.not_mem_nil (hhosts.apart l hl (hlabels ▸ hmem)))
      fun T X' hT hsub hflows => ⟨hflows T, ?_⟩
    rw [Facts.after_of_plain hplain.value, hT t htarget.1, hT f htarget.2]
    exact ⟨hsub, hsub⟩
  | @jump l =>
    intro N k n X B _ _ _ _ hhosts
    have hl := hhosts.targets (.jump l) (List.mem_singleton_self _) l (List.mem_singleton_self l)
    exact ⟨fun _ => ∅, fun T _ hT =>
      Stmt.flowsAll_singleton (s := .jump l) (hT l hl).subset⟩
  | @label l =>
    intro N k n X B _ _ _ _ hhosts
    have hl := hhosts.placed l (List.mem_singleton_self l)
    exact ⟨fun _ => ∅, fun T _ hT =>
      Stmt.flowsAll_singleton (s := .label l) ⟨(hT l hl).subset, (hT l hl).symm.subset⟩⟩
  | cons _ _ ihs ihss => exact ihs.cons ihss

/-- The lifted code of a block that names its addresses follows the policy. -/
theorem Obeys.flows_lift (hP : ∀ a, P.address a → a.isAddress = true) (h : Obeys P (.stmt s))
    (hsound : s.Sound N k) (hclosed : Block.Closed s.flatten) (hnodup : (labels s.effects).Nodup)
    (hk : k ≤ n) : ∃ T, Stmt.FlowsAll P T ∅ (s.lift n).1.flatten ∅ := by
  have hcarries : s.Carries P s.lift := h.carries hP
  obtain ⟨T, hflow⟩ := hcarries.closed hsound hclosed hk hnodup (X := ∅) fun _ hx => hx.elim
  exact ⟨T, hflow T (fun _ _ _ => rfl) fun _ hl => nomatch hl⟩

end Lifting

end TreeCode.IR
