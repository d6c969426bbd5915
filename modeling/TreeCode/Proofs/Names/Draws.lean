/-
# Drawing side by side

Two compilations of the same tree under different names draw labels at the same moments,
though not the same labels. `Draws` lists what has been drawn so far, in pairs. A label is
new whenever it is drawn, so neither side repeats a name: each label of one side stands for
one label of the other.

`Parallel` relates two stages that draw in this way. From states that are alike they both
go on, to states that are alike, or both stop with an error. Whatever has been paired stays
paired.
-/

import TreeCode.Proofs.Supply

namespace TreeCode

/-- What a label leads to: the code of a function, data, or a place inside a function. -/
inductive Use where
  | code
  | data
  | jump

/-- Two labels that were drawn at the same moment. -/
structure Draw where
  use : Use
  left : Label
  right : Label

/-- The labels drawn so far, last first. -/
abbrev Draws := List Draw

/-- No name was drawn twice, on either side. -/
structure Draws.Distinct (D : Draws) : Prop where
  left : (D.map (·.left.name)).Nodup
  right : (D.map (·.right.name)).Nodup

namespace Draws.Distinct

variable {D : Draws} (h : D.Distinct) {u v : Use} {l m l' m' : Label}

include h

variable (hl : ⟨u, l, l'⟩ ∈ D) (hm : ⟨v, m, m'⟩ ∈ D)
include hl hm

theorem eq_of_left (heq : l.name = m.name) : (⟨u, l, l'⟩ : Draw) = ⟨v, m, m'⟩ :=
  List.inj_on_of_nodup_map h.left hl hm heq

theorem eq_of_right (heq : l'.name = m'.name) : (⟨u, l, l'⟩ : Draw) = ⟨v, m, m'⟩ :=
  List.inj_on_of_nodup_map h.right hl hm heq

/-- Labels are told apart on one side as they are on the other. -/
theorem beq_eq : (l' == m') = (l == m) := by
  rw [Bool.eq_iff_iff, beq_iff_eq, beq_iff_eq]
  constructor
  · rintro rfl
    cases h.eq_of_right hl hm rfl
    rfl
  · rintro rfl
    cases h.eq_of_left hl hm rfl
    rfl

end Draws.Distinct

/-- Two supplies that labels have been drawn from side by side. -/
structure Supply.Abreast (D : Draws) (s t : Supply) : Prop where
  temps : t.temps = s.temps
  distinct : D.Distinct
  left : ∀ d ∈ D, d.left.name ∈ s.names
  right : ∀ d ∈ D, d.right.name ∈ t.names

namespace Supply.Abreast

variable {D : Draws} {s t : Supply}

theorem nil (h : t.temps = s.temps) : Abreast [] s t :=
  ⟨h, ⟨List.nodup_nil, List.nodup_nil⟩, fun _ hd => absurd hd List.not_mem_nil,
    fun _ hd => absurd hd List.not_mem_nil⟩

variable (h : Abreast D s t)
include h

/-- Labels that are new on both sides make a new pair. -/
theorem draw (u : Use) {l m : Label} {s' t' : Supply} (htemps : t'.temps = s'.temps)
    (hl : l.name ∉ s.names) (hl' : l.name ∈ s'.names) (hs : s.names ⊆ s'.names)
    (hm : m.name ∉ t.names) (hm' : m.name ∈ t'.names) (ht : t.names ⊆ t'.names) :
    Abreast (⟨u, l, m⟩ :: D) s' t' := by
  refine ⟨htemps, ⟨?_, ?_⟩, ?_, ?_⟩
  · refine List.nodup_cons.2 ⟨fun hmem => ?_, h.distinct.left⟩
    obtain ⟨d, hd, heq⟩ := List.mem_map.1 hmem
    have heq : d.left.name = l.name := heq
    exact hl (heq ▸ h.left d hd)
  · refine List.nodup_cons.2 ⟨fun hmem => ?_, h.distinct.right⟩
    obtain ⟨d, hd, heq⟩ := List.mem_map.1 hmem
    have heq : d.right.name = m.name := heq
    exact hm (heq ▸ h.right d hd)
  · intro d hd
    rcases List.mem_cons.1 hd with rfl | hd
    · exact hl'
    · exact hs (h.left d hd)
  · intro d hd
    rcases List.mem_cons.1 hd with rfl | hd
    · exact hm'
    · exact ht (h.right d hd)

theorem named (u : Use) (n m : String) :
    Abreast (⟨u, (s.named n).1, (t.named m).1⟩ :: D) (s.named n).2 (t.named m).2 :=
  h.draw u (by rw [named_temps, named_temps, h.temps]) (named_notMem s n) (named_mem s n)
    (names_subset_named s n) (named_notMem t m) (named_mem t m) (names_subset_named t m)

theorem label : Abreast (⟨.jump, s.label.1, t.label.1⟩ :: D) s.label.2 t.label.2 :=
  h.draw .jump h.temps (firstFree_notMem (candidate_injective "L") s.labels) List.mem_cons_self
    (List.subset_cons_self _ _) (firstFree_notMem (candidate_injective "L") t.labels)
    List.mem_cons_self (List.subset_cons_self _ _)

theorem string : Abreast (⟨.data, s.string.1, t.string.1⟩ :: D) s.string.2 t.string.2 :=
  h.draw .data h.temps (firstFree_notMem (candidate_injective "S") s.strings) List.mem_cons_self
    (List.subset_cons_self _ _) (firstFree_notMem (candidate_injective "S") t.strings)
    List.mem_cons_self (List.subset_cons_self _ _)

theorem temp : Abreast D s.temp.2 t.temp.2 :=
  ⟨congrArg (· + 1) h.temps, h.distinct, h.left, h.right⟩

end Supply.Abreast

section

variable {ε σ α β : Type}

/-- How two stages end that run side by side: both with a result or both with an error. -/
inductive Draws.Ends (S : Draws → σ → σ → Prop) (A : Draws → α → α → Prop) (D : Draws) :
    Except ε (α × σ) → Except ε (α × σ) → Prop
  | ok {a b : α} {s t : σ} {E : Draws} : D ⊆ E → S E s t → A E a b →
      Ends S A D (.ok (a, s)) (.ok (b, t))
  | error {e e' : ε} : Ends S A D (.error e) (.error e')

/-- Two stages that run side by side from all states that are alike once certain labels
have been drawn. -/
def Parallel (S : Draws → σ → σ → Prop) (A : Draws → α → α → Prop) (D : Draws)
    (x y : StateT σ (Except ε) α) : Prop :=
  ∀ E, D ⊆ E → ∀ s t, S E s t → Draws.Ends S A E (x s) (y t)

namespace Parallel

variable {S : Draws → σ → σ → Prop} {A : Draws → α → α → Prop} {B : Draws → β → β → Prop}
  {D : Draws} {x y : StateT σ (Except ε) α}

theorem pure {a b : α} (h : ∀ E, D ⊆ E → A E a b) :
    Parallel S A D (Pure.pure a : StateT σ (Except ε) α) (Pure.pure b) :=
  fun E hE _ _ hst => .ok (List.Subset.refl _) hst (h E hE)

theorem throw {e e' : ε} :
    Parallel S A D (MonadExcept.throw e : StateT σ (Except ε) α) (MonadExcept.throw e') :=
  fun _ _ _ _ _ => .error

/-- Two steps one after the other. The second one may rely on what the first one drew. -/
theorem bind {f g : α → StateT σ (Except ε) β} (hx : Parallel S A D x y)
    (hf : ∀ E, D ⊆ E → ∀ a b, A E a b → Parallel S B E (f a) (g b)) :
    Parallel S B D (x >>= f) (y >>= g) := by
  intro E hE s t hst
  have hends := hx E hE s t hst
  change Draws.Ends S B E (x s >>= fun r => f r.1 r.2) (y t >>= fun r => g r.1 r.2)
  cases hxs : x s <;> cases hyt : y t <;> rw [hxs, hyt] at hends <;> cases hends
  · exact .error
  next hsub hst' hab =>
    have hrest := hf _ (List.Subset.trans hE hsub) _ _ hab _ (List.Subset.refl _) _ _ hst'
    change Draws.Ends S B E (f _ _) (g _ _)
    cases hfs : f _ _ <;> cases hgt : g _ _ <;> rw [hfs, hgt] at hrest <;> cases hrest
    · exact .error
    · next hsub' hst'' hcd => exact .ok (List.Subset.trans hsub hsub') hst'' hcd

theorem mono {A' : Draws → α → α → Prop} (h : Parallel S A D x y) {E : Draws} (hsub : D ⊆ E)
    (hA : ∀ F, E ⊆ F → ∀ a b, A F a b → A' F a b) : Parallel S A' E x y := by
  intro F hF s t hst
  have hends := h F (List.Subset.trans hsub hF) s t hst
  cases hxs : x s <;> cases hyt : y t <;> rw [hxs, hyt] at hends <;> cases hends
  · exact .error
  next hsub' hst' hab =>
    exact .ok hsub' hst' (hA _ (List.Subset.trans hF hsub') _ _ hab)

/-- What has been drawn before does not matter. -/
theorem later (h : Parallel S A D x y) {E : Draws} (hsub : D ⊆ E) : Parallel S A E x y :=
  h.mono hsub fun _ _ _ _ hab => hab

/-- Steps for the items of two lists, one after the other. -/
theorem mapM {κ : Type} {R : κ → κ → Prop} {f g : κ → StateT σ (Except ε) α}
    (hmono : ∀ {E F : Draws}, E ⊆ F → ∀ {a b : α}, A E a b → A F a b)
    (hfg : ∀ k k', R k k' → Parallel S A D (f k) (g k')) {ks ks' : List κ}
    (h : List.Forall₂ R ks ks') :
    Parallel S (fun E => List.Forall₂ (A E)) D (ks.mapM f) (ks'.mapM g) := by
  induction h with
  | nil => exact .pure fun _ _ => .nil
  | cons hk _ ih =>
    rw [List.mapM_cons, List.mapM_cons]
    refine (hfg _ _ hk).bind fun _ h₁ _ _ ha => ?_
    refine (ih.later h₁).bind fun _ h₂ _ _ has => .pure fun _ h₃ => ?_
    exact .cons (hmono h₃ (hmono h₂ ha)) (has.imp fun _ _ => hmono h₃)

end Parallel

end

end TreeCode
