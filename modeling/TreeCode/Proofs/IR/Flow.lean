/-
# Flow of addresses

An address expression adds constants to the frame pointer, to the place of some data or to
a word that was read from such an address. A policy says to which addresses code may store
and which it may pass to functions.

Code rarely stores to an address expression itself: the value was computed before and
waits in a temp. What is known of temps is a set of facts, each saying that a temp has
the value of an address. `Expr.Flows` and `Stmt.Flows` follow the facts through code. At a
label they start from what a table gives for it, and a jump must have established that.
-/

import Mathlib.Data.List.Forall2
import Mathlib.Data.Set.Basic
import TreeCode.Proofs.IR.Effects

namespace TreeCode.IR

/-- Whether an expression is the kind of address that code stores to. -/
def Expr.isAddress : Expr → Bool
  | .const _ => true
  | .name _ => true
  | .temp t => t == Temp.fp
  | .mem a => a.isAddress
  | .binop op x y => op == .add && (x.isAddress && y.isAddress)
  | _ => false

/-- What code of a function may do. -/
structure Policy where
  /-- Addresses whose value stays the same while the function runs. -/
  address : Expr → Prop
  /-- Whether a move may store to an address, or to one of which nothing is known. -/
  store : Stmt → Option Expr → Prop
  /-- Whether a function may be called with these arguments, as far as they are known. -/
  site : Label → List (Option Expr) → Prop

/-- Temps together with addresses whose value they have. -/
abbrev Facts := Set (Temp × Expr)

/-- The facts that hold after code with the given effects, if they did before. -/
def Facts.after (D : Facts) (es : List Effect) : Facts :=
  {x ∈ D | .assign x.1 ∉ es}

/-- Whether an expression is known to have the value of an address. -/
def Policy.Known (P : Policy) (D : Facts) (e p : Expr) : Prop :=
  P.address p ∧
    (e = p ∨ (∃ c, e.constant? = some c ∧ p = .const c) ∨ ∃ t, e = .temp t ∧ (t, p) ∈ D)

/-- Facts at the labels of some code. -/
abbrev FactTable := Label → Facts

mutual

/-- Whether the calls and stores of an expression follow a policy, from some facts on. -/
def Expr.Flows (P : Policy) (T : FactTable) (D : Facts) : Expr → Prop
  | .const _ => True
  | .name _ => True
  | .temp _ => True
  | .mem a => a.Flows P T D
  | .binop _ x y => x.Flows P T D ∧ y.Flows P T (D.after x.effects)
  | .unop _ x => x.Flows P T D
  | .call f args => ∃ ps, Expr.FlowsAll P T D args ps ∧ P.site f ps
  | .eseq s e => (∃ D', s.Flows P T D D') ∧ e.Flows P T (D.after s.effects)

/-- The same for a list of expressions, of some of which the value is known. -/
def Expr.FlowsAll (P : Policy) (T : FactTable) (D : Facts) : List Expr → List (Option Expr) → Prop
  | [], ps => ps = []
  | e :: es, ps => ∃ p qs, ps = p :: qs ∧ e.Flows P T D ∧ (∀ q, p = some q → P.Known D e q) ∧
      Expr.FlowsAll P T (D.after e.effects) es qs

/-- Whether the calls and stores of a statement follow a policy, from some facts on. If
control goes on behind the statement, the second facts hold there. -/
def Stmt.Flows (P : Policy) (T : FactTable) (D : Facts) : Stmt → Facts → Prop
  | .absent, D' => D' ⊆ D
  | .exp e, D' => e.Flows P T D ∧ D' ⊆ D.after e.effects
  | .move (.temp t) e, D' => e.Flows P T D ∧ ∀ x ∈ D',
      x ∈ D.after (e.effects ++ [.assign t]) ∨ x.1 = t ∧ P.Known D e x.2
  | .move (.mem a) e, D' => a.Flows P T D ∧ e.Flows P T (D.after a.effects) ∧
      (∃ p, (∀ q, p = some q → P.Known D a q) ∧ P.store (.move (.mem a) e) p) ∧
      D' ⊆ D.after (a.effects ++ e.effects)
  | .move _ _, _ => True
  | .seq ss, D' => Stmt.FlowsAll P T D ss D'
  | .cjump c t f, _ => c.Flows P T D ∧ T t ⊆ D.after c.effects ∧ T f ⊆ D.after c.effects
  | .jump l, _ => T l ⊆ D
  | .label l, D' => T l ⊆ D ∧ D' ⊆ T l

/-- The same for a list of statements. -/
def Stmt.FlowsAll (P : Policy) (T : FactTable) (D : Facts) : List Stmt → Facts → Prop
  | [], D' => D' ⊆ D
  | s :: ss, D' => ∃ D₁, s.Flows P T D D₁ ∧ Stmt.FlowsAll P T D₁ ss D'

end

namespace Facts

variable {D D' : Facts} {a b : List Effect}

theorem after_append : D.after (a ++ b) = (D.after a).after b := by
  ext x
  simp only [after, Set.mem_ofPred_eq, List.mem_append, not_or, and_assoc]

theorem after_mono (h : D ⊆ D') : D.after a ⊆ D'.after a :=
  fun _ hx => ⟨h hx.1, hx.2⟩

theorem after_subset : D.after a ⊆ D :=
  fun _ hx => hx.1

theorem after_of_forall (h : ∀ t, .assign t ∉ a) : D.after a = D := by
  ext x
  exact ⟨fun hx => hx.1, fun hx => ⟨hx, h x.1⟩⟩

end Facts

namespace Policy

variable {P : Policy} {D D' : Facts} {e p : Expr}

theorem Known.mono (h : P.Known D e p) (hD : D ⊆ D') : P.Known D' e p := by
  obtain ⟨haddr, heq | hconst | ⟨t, ht, hmem⟩⟩ := h
  · exact ⟨haddr, .inl heq⟩
  · exact ⟨haddr, .inr (.inl hconst)⟩
  · exact ⟨haddr, .inr (.inr ⟨t, ht, hD hmem⟩)⟩

end Policy

section Weakening

variable {P : Policy} {T : FactTable} {D D' E : Facts}

mutual

/-- More facts do no harm. -/
theorem Expr.Flows.mono {D D' : Facts} (hD : D ⊆ D') : ∀ {e : Expr}, e.Flows P T D →
    e.Flows P T D'
  | .const _, _ | .name _, _ | .temp _, _ => trivial
  | .mem a, h => Expr.Flows.mono hD (e := a) h
  | .unop _ x, h => Expr.Flows.mono hD (e := x) h
  | .binop _ _ _, h => ⟨Expr.Flows.mono hD h.1, Expr.Flows.mono (Facts.after_mono hD) h.2⟩
  | .call _ _, ⟨ps, hargs, hsite⟩ => ⟨ps, Expr.FlowsAll.mono hD hargs, hsite⟩
  | .eseq _ _, ⟨⟨D₁, hs⟩, he⟩ =>
    ⟨⟨D₁, Stmt.Flows.mono hD hs⟩, Expr.Flows.mono (Facts.after_mono hD) he⟩

theorem Expr.FlowsAll.mono {D D' : Facts} (hD : D ⊆ D') : ∀ {es : List Expr}
    {ps : List (Option Expr)}, Expr.FlowsAll P T D es ps → Expr.FlowsAll P T D' es ps
  | [], _, h => h
  | _ :: _, _, ⟨p, qs, hps, he, hknown, hes⟩ =>
    ⟨p, qs, hps, Expr.Flows.mono hD he, fun q hq => (hknown q hq).mono hD,
      Expr.FlowsAll.mono (Facts.after_mono hD) hes⟩

theorem Stmt.Flows.mono {D D' E : Facts} (hD : D ⊆ D') : ∀ {s : Stmt}, s.Flows P T D E →
    s.Flows P T D' E
  | .absent, h => Set.Subset.trans h hD
  | .exp _, h => ⟨Expr.Flows.mono hD h.1, Set.Subset.trans h.2 (Facts.after_mono hD)⟩
  | .move (.temp _) _, h =>
    ⟨Expr.Flows.mono hD h.1, fun x hx => (h.2 x hx).imp (fun hold => Facts.after_mono hD hold)
      fun hnew => ⟨hnew.1, hnew.2.mono hD⟩⟩
  | .move (.mem _) _, ⟨ha, he, ⟨p, hp, hstore⟩, hE⟩ =>
    ⟨Expr.Flows.mono hD ha, Expr.Flows.mono (Facts.after_mono hD) he,
      ⟨p, fun q hq => (hp q hq).mono hD, hstore⟩, Set.Subset.trans hE (Facts.after_mono hD)⟩
  | .move (.const _) _, _ | .move (.name _) _, _ | .move (.binop _ _ _) _, _
  | .move (.unop _ _) _, _ | .move (.call _ _) _, _ | .move (.eseq _ _) _, _ => trivial
  | .seq _, h => Stmt.FlowsAll.mono hD h
  | .cjump _ _ _, h =>
    ⟨Expr.Flows.mono hD h.1, Set.Subset.trans h.2.1 (Facts.after_mono hD),
      Set.Subset.trans h.2.2 (Facts.after_mono hD)⟩
  | .jump _, h => Set.Subset.trans h hD
  | .label _, h => ⟨Set.Subset.trans h.1 hD, h.2⟩

theorem Stmt.FlowsAll.mono {D D' E : Facts} (hD : D ⊆ D') : ∀ {ss : List Stmt},
    Stmt.FlowsAll P T D ss E → Stmt.FlowsAll P T D' ss E
  | [], h => Set.Subset.trans h hD
  | _ :: _, ⟨D₁, hs, hss⟩ => ⟨D₁, Stmt.Flows.mono hD hs, hss⟩

end

end Weakening

namespace Stmt

variable {P : Policy} {T : FactTable} {D D₁ E : Facts}

theorem flowsAll_append {a b : List Stmt} (ha : FlowsAll P T D a D₁) (hb : FlowsAll P T D₁ b E) :
    FlowsAll P T D (a ++ b) E := by
  induction a generalizing D with
  | nil => exact hb.mono ha
  | cons s ss ih =>
    obtain ⟨D₂, hs, hss⟩ := ha
    exact ⟨D₂, hs, ih hss⟩

theorem flowsAll_singleton {s : Stmt} (h : s.Flows P T D E) : FlowsAll P T D [s] E :=
  ⟨E, h, Set.Subset.refl E⟩

mutual

/-- Splicing sequences changes nothing. -/
theorem Flows.flatten : ∀ {s : Stmt} {D E : Facts}, s.Flows P T D E → FlowsAll P T D s.flatten E
  | .absent, _, _, h => h
  | .seq _, _, _, h => FlowsAll.flattenAll h
  | .exp _, _, _, h | .move _ _, _, _, h | .cjump _ _ _, _, _, h | .jump _, _, _, h
  | .label _, _, _, h => flowsAll_singleton h

theorem FlowsAll.flattenAll : ∀ {ss : List Stmt} {D E : Facts}, FlowsAll P T D ss E →
    FlowsAll P T D (flattenAll ss) E
  | [], _, _, h => h
  | _ :: _, _, _, ⟨_, hs, hss⟩ => flowsAll_append hs.flatten hss.flattenAll

end

/-- From every position of a list of instructions the rest of it can be followed. -/
theorem FlowsAll.drop {code : List Stmt} (h : FlowsAll P T D code E) (i : Nat) :
    ∃ D', FlowsAll P T D' (code.drop i) E := by
  induction code generalizing D i with
  | nil => exact ⟨D, by rwa [List.drop_nil]⟩
  | cons s ss ih =>
    cases i with
    | zero => exact ⟨D, h⟩
    | succ i =>
      obtain ⟨D₁, -, hss⟩ := h
      exact ih hss i

/-- Behind a jump the facts of the table suffice. -/
theorem FlowsAll.at_label {code : List Stmt} (h : FlowsAll P T D code E) {i : Nat} {l : Label}
    (hi : code[i]? = some (.label l)) : FlowsAll P T (T l) (code.drop i) E := by
  obtain ⟨D', hdrop⟩ := h.drop i
  rw [List.drop_eq_getElem?_toList_append, hi] at hdrop ⊢
  obtain ⟨D₁, hlabel, hrest⟩ := hdrop
  exact ⟨T l, ⟨Set.Subset.refl _, Set.Subset.refl _⟩, hrest.mono hlabel.2⟩

end Stmt

/-- A policy that lets moves store anywhere and looks at the first argument of calls only
allows code with these effects. -/
structure Policy.Admits (P : Policy) (es : List Effect) : Prop where
  const : ∀ c, P.address (.const c)
  store : ∀ s, P.store s none
  site : ∀ l first, .call l first ∈ es → ∀ ps : List (Option Expr),
    ps.head?.join = first.map .const → P.site l ps

theorem Policy.Admits.mono {P : Policy} {es es' : List Effect} (h : P.Admits es)
    (hsub : ∀ e ∈ es', e ∈ es) : P.Admits es' :=
  ⟨h.const, h.store, fun l first hcall => h.site l first (hsub _ hcall)⟩

section Admits

variable {P : Policy}

mutual

/-- Where a policy allows the effects of code, nothing has to be known of temps. -/
theorem Expr.flows_of_admits : ∀ (e : Expr) (D : Facts), P.Admits e.effects →
    e.Flows P (fun _ => ∅) D
  | .const _, _, _ | .name _, _, _ | .temp _, _, _ => trivial
  | .mem a, D, h => a.flows_of_admits D h
  | .unop _ x, D, h => x.flows_of_admits D h
  | .binop _ x y, D, h =>
    ⟨x.flows_of_admits D (h.mono fun _ => List.mem_append_left _),
      y.flows_of_admits _ (h.mono fun _ => List.mem_append_right _)⟩
  | .call f args, D, h => by
    have hargs := Expr.flowsAll_of_admits args D (h.mono fun _ => List.mem_append_left _)
    refine ⟨_, hargs, h.site f _ (List.mem_append_right _ (List.mem_singleton_self _)) _ ?_⟩
    cases args <;> rfl
  | .eseq s e, D, h =>
    ⟨⟨∅, s.flows_of_admits D (h.mono fun _ => List.mem_append_left _)⟩,
      e.flows_of_admits _ (h.mono fun _ => List.mem_append_right _)⟩

theorem Expr.flowsAll_of_admits : ∀ (es : List Expr) (D : Facts), P.Admits (Expr.effectsAll es) →
    Expr.FlowsAll P (fun _ => ∅) D es (es.map fun e => e.constant?.map Expr.const)
  | [], _, _ => rfl
  | e :: es, D, h => by
    refine ⟨_, _, rfl, e.flows_of_admits D (h.mono fun _ => List.mem_append_left _), ?_,
      Expr.flowsAll_of_admits es _ (h.mono fun _ => List.mem_append_right _)⟩
    intro q hq
    obtain ⟨c, hc, rfl⟩ := Option.map_eq_some_iff.1 hq
    exact ⟨h.const c, .inr (.inl ⟨c, hc, rfl⟩)⟩

theorem Stmt.flows_of_admits : ∀ (s : Stmt) (D : Facts), P.Admits s.effects →
    s.Flows P (fun _ => ∅) D ∅
  | .absent, _, _ => Set.empty_subset _
  | .exp e, D, h => ⟨e.flows_of_admits D h, Set.empty_subset _⟩
  | .move (.temp _) e, D, h =>
    ⟨e.flows_of_admits D (h.mono fun _ => List.mem_append_left _), fun _ hx => hx.elim⟩
  | .move (.mem a) e, D, h =>
    ⟨a.flows_of_admits D (h.mono fun _ he =>
        List.mem_append_left _ (List.mem_append_left _ he)),
      e.flows_of_admits _ (h.mono fun _ he =>
        List.mem_append_left _ (List.mem_append_right _ he)),
      ⟨none, fun _ hq => (nomatch hq), h.store _⟩, Set.empty_subset _⟩
  | .move (.const _) _, _, _ | .move (.name _) _, _, _ | .move (.binop _ _ _) _, _, _
  | .move (.unop _ _) _, _, _ | .move (.call _ _) _, _, _ | .move (.eseq _ _) _, _, _ => trivial
  | .seq ss, D, h => Stmt.flowsAll_of_admits ss D h
  | .cjump c _ _, D, h =>
    ⟨c.flows_of_admits D (h.mono fun _ => List.mem_append_left _), Set.empty_subset _,
      Set.empty_subset _⟩
  | .jump _, _, _ => Set.empty_subset _
  | .label _, _, _ => ⟨Set.empty_subset _, Set.empty_subset _⟩

theorem Stmt.flowsAll_of_admits : ∀ (ss : List Stmt) (D : Facts), P.Admits (Stmt.effectsAll ss) →
    Stmt.FlowsAll P (fun _ => ∅) D ss ∅
  | [], _, _ => Set.empty_subset _
  | s :: ss, D, h =>
    ⟨∅, s.flows_of_admits D (h.mono fun _ => List.mem_append_left _),
      Stmt.flowsAll_of_admits ss _ (h.mono fun _ => List.mem_append_right _)⟩

end

end Admits

end TreeCode.IR
