/-
# Access paths

Records and arrays are laid out flat: field after field, and element after element. A path
leads from a value to a part of it, by the names of fields and the numbers of elements, and
`Ty.follow?` adds up the offsets on the way.

Sizes and offsets are words, and each is computed by a recursion of its own. `Ty.extent` is
the size of a type as an integer without a bound. If that is a word, the words computed are
right: parts lie inside the value, and parts in different directions lie apart.

In the source a path is a chain of selectors after a variable. The code for the address of
such a chain is a third computation, and it finds the same parts.
-/

import Mathlib.Data.List.Forall2
import TreeCode.Proofs.Lowering.Simulation
import TreeCode.Proofs.Machine.Memory
import TreeCode.Proofs.Types

namespace TreeCode

open IR (Expr)
open Source (Node Symbol)

namespace Ty

mutual

/-- Whether no array in the values of a type has a negative length. -/
def isRegular : Ty → Bool
  | array length elem => decide (0 ≤ length.toInt) && elem.isRegular
  | record _ fields => regularFields fields
  | _ => true

/-- Whether no array in the fields of a record has a negative length. -/
def regularFields : List (String × Ty) → Bool
  | [] => true
  | (_, t) :: rest => t.isRegular && regularFields rest

end

mutual

/-- The number of bytes a value takes, without a bound. -/
def extent : Ty → Int
  | absent | void | ref _ => 0
  | integer | logical | string | pointer _ => Word.byteSize
  | array length elem => length.toInt * elem.extent
  | record _ fields => fieldsExtent fields

/-- The number of bytes the fields of a record take, without a bound. -/
def fieldsExtent : List (String × Ty) → Int
  | [] => 0
  | (_, t) :: rest => t.extent + fieldsExtent rest

end

mutual

/-- Sizes wrap around and are right otherwise. -/
theorem ofInt_extent : ∀ t : Ty, Int64.ofInt t.extent = t.size
  | absent | void | ref _ | integer | logical | string | pointer _ => rfl
  | array length elem => by
    rw [extent, size, Int64.ofInt_mul, Int64.ofInt_toInt, ofInt_extent elem]
  | record _ fields => ofInt_fieldsExtent fields

theorem ofInt_fieldsExtent : ∀ fields : List (String × Ty),
    Int64.ofInt (fieldsExtent fields) = fieldsSize fields
  | [] => rfl
  | (_, t) :: rest => by
    rw [fieldsExtent, fieldsSize, Int64.ofInt_add, ofInt_extent t, ofInt_fieldsExtent rest]

end

mutual

theorem extent_nonneg : ∀ {t : Ty}, t.isRegular = true → 0 ≤ t.extent
  | absent, _ | void, _ | ref _, _ => Int.le_refl 0
  | integer, _ | logical, _ | string, _ | pointer _, _ => Int.natCast_nonneg _
  | array length elem, h => by
    simp only [isRegular, Bool.and_eq_true, decide_eq_true_eq] at h
    exact Int.mul_nonneg h.1 (extent_nonneg h.2)
  | record _ fields, h => fieldsExtent_nonneg (show regularFields fields = true from h)

theorem fieldsExtent_nonneg : ∀ {fields : List (String × Ty)}, regularFields fields = true →
    0 ≤ fieldsExtent fields
  | [], _ => Int.le_refl 0
  | (_, t) :: rest, h => by
    rw [regularFields, Bool.and_eq_true] at h
    exact Int.add_nonneg (extent_nonneg h.1) (fieldsExtent_nonneg h.2)

end

variable {name : String} {t u : Ty} {o : Int}

/-- A size that is a word is computed without wrapping around. -/
theorem toInt_size (ht : t.isRegular = true) (hlimit : t.extent < Word.limit) :
    t.size.toInt = t.extent := by
  have hnonneg := extent_nonneg ht
  simp only [Word.limit] at hlimit
  rw [← ofInt_extent]
  apply Int64.toInt_ofInt_of_le <;> omega

/-- A step from a value to a part of it. -/
inductive Step where
  | field (name : String)
  | element (i : Nat)
deriving DecidableEq

/-- The number that a step gives. -/
def Step.index? : Step → Option Nat
  | field _ => none
  | element i => some i

/-- The offset and the type of the part that a step leads to. -/
def step? (t : Ty) : Step → Option (Int × Ty)
  | .field name => (t.field? name).map fun (offset, u) => (offset.toInt, u)
  | .element i =>
    match t with
    | array length elem =>
      if (i : Int) < length.toInt then some (i * elem.size.toInt, elem) else none
    | _ => none

/-- The offset and the type of the part at the end of a path. -/
def follow? (t : Ty) : List Step → Option (Int × Ty)
  | [] => some (0, t)
  | s :: path => do
    let (offset, u) ← t.step? s
    let (rest, v) ← u.follow? path
    return (offset + rest, v)

theorem follow?_cons {v : Ty} {s : Step} {path : List Step}
    (h : t.follow? (s :: path) = some (o, v)) :
    ∃ o₁ u o₂, t.step? s = some (o₁, u) ∧ u.follow? path = some (o₂, v) ∧ o = o₁ + o₂ := by
  obtain ⟨⟨o₁, u⟩, hstep, h⟩ := Option.bind_eq_some_iff.1 h
  obtain ⟨⟨o₂, v⟩, hpath, h⟩ := Option.bind_eq_some_iff.1 h
  cases h
  exact ⟨o₁, u, o₂, hstep, hpath, rfl⟩

/-- Fields are counted on from the end of the first one. -/
theorem toInt_next {rest : List (String × Ty)} {start : Word} (ht : t.isRegular = true)
    (hrest : regularFields rest = true) (hstart : 0 ≤ start.toInt)
    (hlimit : start.toInt + (t.extent + fieldsExtent rest) < Word.limit) :
    (start + t.size).toInt = start.toInt + t.extent := by
  have ht_nonneg := extent_nonneg ht
  have hrest_nonneg := fieldsExtent_nonneg hrest
  have hsize : t.size.toInt = t.extent := toInt_size ht (by omega)
  rw [Word.toInt_add_of_lt] <;> simp only [Word.limit] at hlimit ⊢ <;> omega

/-- A field lies between the offset that fields are counted from and the end of the last
field. -/
theorem fieldFrom?_within {o : Word} :
    ∀ {fields : List (String × Ty)} {start : Word}, regularFields fields = true →
      0 ≤ start.toInt → start.toInt + fieldsExtent fields < Word.limit →
      fieldFrom? start name fields = some (o, t) →
      t.isRegular = true ∧ start.toInt ≤ o.toInt ∧
        o.toInt + t.extent ≤ start.toInt + fieldsExtent fields
  | [], _, _, _, _, h => by cases h
  | (n, u) :: rest, start, hfields, hstart, hlimit, h => by
    obtain ⟨hu, hrest⟩ := Bool.and_eq_true_iff.1 hfields
    have hu_nonneg := extent_nonneg hu
    have hrest_nonneg := fieldsExtent_nonneg hrest
    have hnext := toInt_next hu hrest hstart hlimit
    rw [fieldsExtent] at hlimit ⊢
    rw [fieldFrom?] at h
    split at h
    · cases h
      exact ⟨hu, Int.le_refl _, by omega⟩
    · obtain ⟨ht, hlow, hhigh⟩ :=
        fieldFrom?_within hrest (by omega) (by rw [hnext]; omega) h
      exact ⟨ht, by omega, by omega⟩

/-- Fields of different names lie apart. -/
theorem fieldFrom?_apart {name' : String} {o o' : Word} {t' : Ty} (hne : name ≠ name') :
    ∀ {fields : List (String × Ty)} {start : Word}, regularFields fields = true →
      0 ≤ start.toInt → start.toInt + fieldsExtent fields < Word.limit →
      fieldFrom? start name fields = some (o, t) →
      fieldFrom? start name' fields = some (o', t') →
      o.toInt + t.extent ≤ o'.toInt ∨ o'.toInt + t'.extent ≤ o.toInt
  | [], _, _, _, _, h, _ => by cases h
  | (n, u) :: rest, start, hfields, hstart, hlimit, h, h' => by
    obtain ⟨hu, hrest⟩ := Bool.and_eq_true_iff.1 hfields
    have hu_nonneg := extent_nonneg hu
    have hnext := toInt_next hu hrest hstart hlimit
    rw [fieldsExtent] at hlimit
    have hstart' : 0 ≤ (start + u.size).toInt := by omega
    have hlimit' : (start + u.size).toInt + fieldsExtent rest < Word.limit := by omega
    rw [fieldFrom?] at h h'
    -- one of the fields is the first, or they are apart in the rest
    by_cases hn : n = name
    · rw [if_pos hn] at h
      rw [if_neg (fun hn' => hne (hn.symm.trans hn'))] at h'
      cases h
      have hbehind := (fieldFrom?_within hrest hstart' hlimit' h').2.1
      exact .inl (by omega)
    · rw [if_neg hn] at h
      by_cases hn' : n = name'
      · rw [if_pos hn'] at h'
        cases h'
        have hbehind := (fieldFrom?_within hrest hstart' hlimit' h).2.1
        exact .inr (by omega)
      · rw [if_neg hn'] at h'
        exact fieldFrom?_apart hne hrest hstart' hlimit' h h'

/-- What a field of a record is. -/
theorem step?_field (h : t.step? (.field name) = some (o, u)) :
    ∃ n fields w, t = record n fields ∧ fieldFrom? 0 name fields = some (w, u) ∧
      o = w.toInt := by
  obtain ⟨⟨w, v⟩, hfield, hpair⟩ := Option.map_eq_some_iff.1 h
  cases hpair
  cases t with
  | record n fields => exact ⟨n, fields, w, rfl, hfield, rfl⟩
  | _ => cases hfield

/-- What an element of an array is. -/
theorem step?_element {i : Nat} (h : t.step? (.element i) = some (o, u)) :
    ∃ length, t = array length u ∧ (i : Int) < length.toInt ∧ o = i * u.size.toInt := by
  cases t with
  | array length elem =>
    rw [step?] at h
    split at h
    next hi =>
      cases h
      exact ⟨length, rfl, hi, rfl⟩
    next => cases h
  | _ => cases h

/-- One of two elements ends before a later one begins. -/
theorem stride_le {i j e : Int} (he : 0 ≤ e) (h : i < j) : i * e + e ≤ j * e := by
  have hle : (i + 1) * e ≤ j * e := Int.mul_le_mul_of_nonneg_right h he
  rwa [Int.add_mul, Int.one_mul] at hle

/-- The fields of a record are counted from zero. -/
theorem fields_from_zero {n : String} {fields : List (String × Ty)}
    (hlimit : (record n fields).extent < Word.limit) :
    0 ≤ (0 : Word).toInt ∧ (0 : Word).toInt + fieldsExtent fields < Word.limit := by
  rw [Int64.toInt_zero, Int.zero_add]
  exact ⟨Int.le_refl 0, hlimit⟩

section Parts

variable {t u u' : Ty} {o o' : Int}

/-- A step leads to a part that lies inside. -/
theorem step?_within (ht : t.isRegular = true) (hlimit : t.extent < Word.limit) {s : Step}
    (h : t.step? s = some (o, u)) :
    u.isRegular = true ∧ 0 ≤ o ∧ o + u.extent ≤ t.extent := by
  cases s with
  | field name =>
    obtain ⟨n, fields, w, rfl, hfield, rfl⟩ := step?_field h
    obtain ⟨hzero, hfields⟩ := fields_from_zero hlimit
    obtain ⟨hu, hlow, hhigh⟩ := fieldFrom?_within ht hzero hfields hfield
    rw [Int64.toInt_zero, Int.zero_add] at hhigh
    exact ⟨hu, hlow, hhigh⟩
  | element i =>
    obtain ⟨length, rfl, hi, rfl⟩ := step?_element h
    have hu : u.isRegular = true := (Bool.and_eq_true_iff.1 ht).2
    have hnonneg := extent_nonneg hu
    have hpos : 0 ≤ (i : Int) * u.extent := Int.mul_nonneg (Int.natCast_nonneg i) hnonneg
    have hle : i * u.extent + u.extent ≤ (array length u).extent := stride_le hnonneg hi
    rw [toInt_size hu (by omega)]
    exact ⟨hu, hpos, hle⟩

/-- Different steps lead to parts that lie apart. -/
theorem step?_apart (ht : t.isRegular = true) (hlimit : t.extent < Word.limit) {s s' : Step}
    (hne : s ≠ s') (h : t.step? s = some (o, u)) (h' : t.step? s' = some (o', u')) :
    o + u.extent ≤ o' ∨ o' + u'.extent ≤ o := by
  cases s with
  | field name =>
    obtain ⟨n, fields, w, rfl, hfield, rfl⟩ := step?_field h
    cases s' with
    | field name' =>
      obtain ⟨_, _, w', hrecord, hfield', rfl⟩ := step?_field h'
      cases hrecord
      have hnames : name ≠ name' := fun hname => hne (congrArg Step.field hname)
      obtain ⟨hzero, hfields⟩ := fields_from_zero hlimit
      exact fieldFrom?_apart hnames ht hzero hfields hfield hfield'
    | element j =>
      obtain ⟨_, harray, -, -⟩ := step?_element h'
      cases harray
  | element i =>
    have hu := step?_within ht hlimit h
    obtain ⟨length, rfl, hi, rfl⟩ := step?_element h
    cases s' with
    | field name =>
      obtain ⟨_, _, _, hrecord, -, -⟩ := step?_field h'
      cases hrecord
    | element j =>
      obtain ⟨_, harray, hj, rfl⟩ := step?_element h'
      cases harray
      have hnonneg := extent_nonneg hu.1
      rw [toInt_size hu.1 (by omega)]
      have hij : (i : Int) < j ∨ (j : Int) < i := by
        have hnumbers : i ≠ j := fun hnumber => hne (congrArg Step.element hnumber)
        omega
      exact hij.imp (stride_le hnonneg) (stride_le hnonneg)

/-- The part at the end of a path lies inside. -/
theorem follow?_within {path : List Step} : ∀ {t : Ty} {o : Int}, t.isRegular = true →
    t.extent < Word.limit → t.follow? path = some (o, u) →
    u.isRegular = true ∧ 0 ≤ o ∧ o + u.extent ≤ t.extent := by
  induction path with
  | nil =>
    intro t o ht hlimit h
    cases h
    exact ⟨ht, Int.le_refl 0, by omega⟩
  | cons s path ih =>
    intro t o ht hlimit h
    obtain ⟨o₁, v, o₂, hstep, hpath, rfl⟩ := follow?_cons h
    obtain ⟨hv, hlow, hhigh⟩ := step?_within ht hlimit hstep
    obtain ⟨hu, hlow', hhigh'⟩ := ih hv (by omega) hpath
    exact ⟨hu, by omega, by omega⟩

/-- Paths in different directions lead to parts that lie apart. -/
theorem follow?_apart {path : List Step} : ∀ {t : Ty} {path' : List Step} {o o' : Int},
    t.isRegular = true → t.extent < Word.limit → ¬path <+: path' → ¬path' <+: path →
    t.follow? path = some (o, u) → t.follow? path' = some (o', u') →
    o + u.extent ≤ o' ∨ o' + u'.extent ≤ o := by
  induction path with
  | nil => exact fun _ _ hne => absurd List.nil_prefix hne
  | cons s path ih =>
    intro t path' o o' ht hlimit hne hne' h h'
    cases path' with
    | nil => exact absurd List.nil_prefix hne'
    | cons s' path' =>
      obtain ⟨o₁, v, o₂, hstep, hpath, rfl⟩ := follow?_cons h
      obtain ⟨o₁', v', o₂', hstep', hpath', rfl⟩ := follow?_cons h'
      obtain ⟨hv, hlow, hhigh⟩ := step?_within ht hlimit hstep
      obtain ⟨hv', hlow', hhigh'⟩ := step?_within ht hlimit hstep'
      by_cases hs : s = s'
      · -- the paths part later, inside the same part
        subst hs
        cases hstep.symm.trans hstep'
        have hrest : ¬path <+: path' := fun hpre => hne (List.cons_prefix_cons.2 ⟨rfl, hpre⟩)
        have hrest' : ¬path' <+: path := fun hpre =>
          hne' (List.cons_prefix_cons.2 ⟨rfl, hpre⟩)
        have hapart := ih hv (by omega) hrest hrest' hpath hpath'
        omega
      · -- the paths part here, and what follows stays inside
        have hapart := step?_apart ht hlimit hs hstep hstep'
        have hinside := follow?_within hv (by omega) hpath
        have hinside' := follow?_within hv' (by omega) hpath'
        omega

end Parts

end Ty

/-- A selector of a part, as it is written after a place. -/
inductive Source.Selector where
  | field (name : String)
  | element (index : Node)

namespace Source.Selector

/-- A selector and the step that it takes for some value of its index. -/
inductive Takes : Selector → Ty.Step → Prop
  | field {name : String} : Takes (field name) (.field name)
  | element {index : Node} {i : Nat} : Takes (element index) (.element i)

/-- The expression in a selector. -/
def index? : Selector → Option Node
  | field _ => none
  | element index => some index

end Source.Selector

/-- The part of a place that a list of selectors denotes. -/
def Source.Node.select (n : Node) : List Selector → Node
  | [] => n
  | .field name :: rest => (member n name).select rest
  | .element index :: rest => (binary .index n index).select rest

/-- A computation that succeeds from every state. -/
def Lower.Succeeds {α : Type} (x : Lower α) : Prop :=
  ∀ s, ∃ r, x s = .ok r

namespace Lower.Succeeds

variable {α β : Type}

theorem pure (a : α) : Succeeds (Pure.pure a) :=
  fun s => ⟨(a, s), rfl⟩

theorem bind {x : Lower α} {f : α → Lower β} (hx : x.Succeeds) (hf : ∀ a, (f a).Succeeds) :
    Lower.Succeeds (x >>= f) := by
  intro s
  obtain ⟨⟨a, s₁⟩, ha⟩ := hx s
  obtain ⟨r, hr⟩ := hf a s₁
  refine ⟨r, ?_⟩
  show (x s >>= fun p => f p.1 p.2) = .ok r
  rw [ha]
  exact hr

end Lower.Succeeds

section Code

variable {types : TypeTable} {layout : Layout} {f : FrameRecord} {n : Node}

variable {sels : List Source.Selector} {name : String} {index : Node} {i : Nat} {o : Int} {u : Ty}
  {s s' : LowerState} {e : Expr}

theorem ty_member (hstep : (n.ty types).step? (.field name) = some (o, u)) :
    (Node.member n name).ty types = u := by
  obtain ⟨⟨offset, v⟩, hfield, hpair⟩ := Option.map_eq_some_iff.1 hstep
  cases hpair
  rw [Node.ty, hfield]
  rfl

theorem ty_index (hstep : (n.ty types).step? (.element i) = some (o, u)) :
    (Node.binary .index n index).ty types = u := by
  obtain ⟨length, hty, -, -⟩ := Ty.step?_element hstep
  rw [Node.ty, hty]
  rfl

/-- The code for the address of a field adds its offset. -/
theorem eval_member (hstep : (n.ty types).step? (.field name) = some (o, u))
    (h : ((Node.member n name).lower types layout f).address s = .ok (e, s')) :
    ∃ a, (n.lower types layout f).address s = .ok (a, s') ∧
      ∀ setup run x base y, Exec.eval setup run a x = .ok base y →
        Exec.eval setup run e x = .ok (base + Int64.ofInt o) y := by
  obtain ⟨⟨offset, v⟩, hfield, hpair⟩ := Option.map_eq_some_iff.1 hstep
  cases hpair
  obtain ⟨a, s₁, ha, hpure⟩ := Outcome.of_bindState h
  obtain ⟨rfl, rfl⟩ := Lower.pure_eq_ok hpure
  refine ⟨a, ha, fun setup run x base y hbase => ?_⟩
  rw [lower_ty, hfield, Exec.eval_atOffset, Exec.bind_of_ok hbase, Int64.ofInt_toInt]
  rfl

/-- The code for the address of an element adds the sizes of those before it. -/
theorem eval_element (hstep : (n.ty types).step? (.element i) = some (o, u))
    (h : ((Node.binary .index n index).lower types layout f).address s = .ok (e, s')) :
    ∃ code s₁ a, (index.lower types layout f).value s = .ok (code, s₁) ∧
      (n.lower types layout f).address s₁ = .ok (a, s') ∧
      ∀ setup run x base y z, Exec.eval setup run a x = .ok base y →
        Exec.eval setup run code y = .ok (Int64.ofNat i) z →
        Exec.eval setup run e x = .ok (base + Int64.ofInt o) z := by
  obtain ⟨length, hty, -, rfl⟩ := Ty.step?_element hstep
  obtain ⟨code, s₁, hcode, h⟩ := Outcome.of_bindState h
  obtain ⟨a, s₂, ha, hpure⟩ := Outcome.of_bindState h
  obtain ⟨rfl, rfl⟩ := Lower.pure_eq_ok hpure
  refine ⟨code, s₁, a, hcode, ha, fun setup run x base y z hbase hindex => ?_⟩
  have hmul : Int64.ofInt (i * u.size.toInt) = Int64.ofNat i * u.size := by
    rw [Int64.ofInt_mul, Int64.ofInt_eq_ofNat, Int64.ofInt_toInt]
  rw [lower_ty, hty, Exec.eval, Exec.bind_of_ok hbase, Exec.eval, bind_assoc,
    Exec.bind_of_ok hindex, hmul]
  rfl

/-- The code for the address of a variable finds its place, and nothing is drawn for it. -/
theorem eval_ident {x : Symbol} {a : Expr}
    (h : ((Node.ident x).lower types layout f).address s = .ok (a, s')) : s' = s ∧
    ∀ setup run, Exec.eval setup run a = symbolPlace layout setup.program f x := by
  have hrule := (Derived.ident x).address h
  cases hrule with
  | global hx =>
    refine ⟨rfl, fun setup run => ?_⟩
    simp only [symbolPlace, hx]
    rfl
  | localSlot hx _ =>
    exact ⟨rfl, fun setup run => by simp only [symbolPlace, hx, Exec.eval_slotAddress]⟩
  | paramSlot hx _ =>
    refine ⟨rfl, fun setup run => ?_⟩
    simp only [symbolPlace, hx, Exec.eval_slotAddress, Bool.false_eq_true, if_false, bind_pure]
  | reference hx _ =>
    refine ⟨rfl, fun setup run => ?_⟩
    simp only [symbolPlace, hx, Exec.eval, Exec.eval_slotAddress, if_true]

/-- The code of the indices in a chain of selectors, made on the way from one state of lowering
to another. The last index is lowered first. -/
inductive CodesOf (types : TypeTable) (layout : Layout) (f : FrameRecord) :
    LowerState → List Node → List Expr → LowerState → Prop
  | nil {s : LowerState} : CodesOf types layout f s [] [] s
  | cons {s s₁ s' : LowerState} {index : Node} {indices : List Node} {code : Expr}
      {codes : List Expr} : CodesOf types layout f s indices codes s₁ →
      (index.lower types layout f).value s₁ = .ok (code, s') →
      CodesOf types layout f s (index :: indices) (code :: codes) s'

/-- The code for the address of a part adds the offset of its path to the address of the
whole. The indices are computed behind it, from left to right. -/
theorem eval_select : ∀ {path : List Ty.Step} {n : Node} {o : Int}
    {u : Ty} {s s' : LowerState} {e : Expr}, List.Forall₂ Source.Selector.Takes sels path →
    (n.ty types).follow? path = some (o, u) →
    ((n.select sels).lower types layout f).address s = .ok (e, s') →
    ∃ a s₁ codes, (n.lower types layout f).address s₁ = .ok (a, s') ∧
      CodesOf types layout f s (sels.filterMap (·.index?)) codes s₁ ∧
      ∀ setup run x base y z, Exec.eval setup run a x = .ok base y →
        Exec.evalAll setup run codes y =
          .ok ((path.filterMap (·.index?)).map Int64.ofNat) z →
        Exec.eval setup run e x = .ok (base + Int64.ofInt o) z := by
  induction sels with
  | nil =>
    intro path n o u s s' e hsels hpath h
    cases hsels
    cases hpath
    refine ⟨e, s, [], h, .nil, fun setup run x base y z ha hnone => ?_⟩
    cases hnone
    rw [ha]
    exact congrArg (EStateM.Result.ok · y) (Int64.add_zero base).symm
  | cons sel sels ih =>
    intro path n o u s s' e hsels hpath h
    cases hsels with
    | cons htakes hsels =>
    obtain ⟨o₁, v, o₂, hstep, hrest, rfl⟩ := Ty.follow?_cons hpath
    have hsum : ∀ base : Word,
        base + Int64.ofInt (o₁ + o₂) = base + Int64.ofInt o₁ + Int64.ofInt o₂ := by
      intro base
      rw [Int64.ofInt_add, Int64.add_assoc]
    cases htakes with
    | field =>
      rw [← ty_member hstep] at hrest
      obtain ⟨a', s₁, codes, ha', hcodes, heval⟩ := ih hsels hrest h
      obtain ⟨a, ha, hfield⟩ := eval_member hstep ha'
      refine ⟨a, s₁, codes, ha, hcodes, fun setup run x base y z hbase hindices => ?_⟩
      rw [hsum]
      exact heval setup run x _ y z (hfield setup run x base y hbase) hindices
    | element =>
      rw [← ty_index hstep] at hrest
      obtain ⟨a', s₁, codes, ha', hcodes, heval⟩ := ih hsels hrest h
      obtain ⟨code, s₂, a, hcode, ha, helement⟩ := eval_element hstep ha'
      refine ⟨a, s₂, code :: codes, ha, .cons hcodes hcode,
        fun setup run x base y z hbase hindices => ?_⟩
      obtain ⟨i, y', hi, hindices⟩ := Exec.bind_eq_ok hindices
      obtain ⟨is, z', his, hpure⟩ := Exec.bind_eq_ok hindices
      cases hpure
      rw [hsum]
      exact heval setup run x _ y' z (helement setup run x base y y' hbase hi) his

/-- The address of a part can be lowered if that of the whole can, and the indices. -/
theorem succeeds_select : ∀ {n : Node},
    (n.lower types layout f).address.Succeeds →
    (∀ index ∈ sels.filterMap (·.index?), (index.lower types layout f).value.Succeeds) →
    ((n.select sels).lower types layout f).address.Succeeds := by
  induction sels with
  | nil => exact fun hn _ => hn
  | cons sel sels ih =>
    intro n hn hindices
    cases sel with
    | field name =>
      have hmember : ((Node.member n name).lower types layout f).address.Succeeds :=
        hn.bind fun _ => .pure _
      exact ih hmember hindices
    | element index =>
      have hindex := hindices index List.mem_cons_self
      have helement : ((Node.binary .index n index).lower types layout f).address.Succeeds :=
        hindex.bind fun _ => hn.bind fun _ => .pure _
      exact ih helement fun other hother => hindices other (List.mem_cons_of_mem _ hother)

end Code

/-- Values are laid out flat: the part at the end of a path lies inside the value, paths in
different directions lead to parts that lie apart, and the code for the address of a chain
of selectors after a variable finds the part at the end of the path that the chain takes. -/
theorem Ty.parts_laid_out {t : Ty} (ht : t.isRegular = true) (hlimit : t.extent < Word.limit) :
    t.size.toInt = t.extent ∧
    (∀ path o u, t.follow? path = some (o, u) →
      0 ≤ o ∧ 0 ≤ u.size.toInt ∧ o + u.size.toInt ≤ t.size.toInt) ∧
    (∀ path path' o u o' u', ¬path <+: path' → ¬path' <+: path →
      t.follow? path = some (o, u) → t.follow? path' = some (o', u') →
      o + u.size.toInt ≤ o' ∨ o' + u'.size.toInt ≤ o) ∧
    ∀ types layout f (x : Symbol) sels path o u, x.ty = t → t.follow? path = some (o, u) →
      List.Forall₂ Source.Selector.Takes sels path →
      ((symbolAddress layout f x).Succeeds →
        (∀ index ∈ sels.filterMap (·.index?), (index.lower types layout f).value.Succeeds) →
        (((Node.ident x).select sels).lower types layout f).address.Succeeds) ∧
      ∀ s e s', (((Node.ident x).select sels).lower types layout f).address s = .ok (e, s') →
        ∃ codes, CodesOf types layout f s (sels.filterMap (·.index?)) codes s' ∧
          ∀ setup run state base state₁ state₂,
            symbolPlace layout setup.program f x state = .ok base state₁ →
            Exec.evalAll setup run codes state₁ =
              .ok ((path.filterMap (·.index?)).map Int64.ofNat) state₂ →
            Exec.eval setup run e state = .ok (base + Int64.ofInt o) state₂ := by
  have hsize : ∀ {path o u}, t.follow? path = some (o, u) → u.size.toInt = u.extent := by
    intro path o u h
    obtain ⟨hu, hlow, hhigh⟩ := follow?_within ht hlimit h
    exact toInt_size hu (by omega)
  refine ⟨toInt_size ht hlimit, fun path o u h => ?_, fun path path' o u o' u' hne hne' h h' => ?_,
    fun types layout f x sels path o u hty hpath hsels =>
      ⟨fun hx => succeeds_select (n := .ident x) hx, fun s e s' h => ?_⟩⟩
  · obtain ⟨hu, hlow, hhigh⟩ := follow?_within ht hlimit h
    rw [hsize h, toInt_size ht hlimit]
    exact ⟨hlow, extent_nonneg hu, hhigh⟩
  · rw [hsize h, hsize h']
    exact follow?_apart ht hlimit hne hne' h h'
  · subst hty
    obtain ⟨a, s₁, codes, ha, hcodes, heval⟩ := eval_select (n := .ident x) hsels hpath h
    obtain ⟨rfl, hplace⟩ := eval_ident ha
    refine ⟨codes, hcodes, fun setup run state base state₁ state₂ hbase hindices => ?_⟩
    rw [← hplace setup run] at hbase
    exact heval setup run state base state₁ state₂ hbase hindices

namespace Sample

/-- A record with a field that takes no bytes and a name that is used twice. -/
def card : Ty :=
  .record "card" [("gap", .array 0 .integer), ("x", .integer), ("y", .integer), ("x", .logical)]

/-- Two drawers of three cards and a label each. -/
def cabinet : Ty :=
  .array 2 (.record "drawer" [("cards", .array 3 card), ("label", .string)])

/-- A global variable. -/
def files : Symbol :=
  ⟨0, "files", cabinet⟩

/-- A function that uses the variable. -/
def clerk : FrameRecord :=
  ⟨0, none, 1, .ofName "clerk", ⟨1, "clerk", .integer⟩, [], none, 0, false⟩

/-- A layout with one function and one variable. -/
def office : Layout :=
  ⟨#[clerk], [files], [(files.id, .global (.ofName "files") cabinet.size)]⟩

/-- The variable stands behind two words. -/
def room : Setup :=
  ⟨⟨[], [], [⟨.ofName "files", 16, cabinet.size, []⟩], 176⟩, 256, 8, false⟩

/-- The field `y` of the last card. -/
def lastCard : List Source.Selector :=
  [.element (.number 1), .field "cards",
    .element (.binary .add (.number 1) (.number 1)), .field "y"]

/-- Two fields of one card lie apart, and the code for one of them finds it. -/
theorem cabinet_laid_out :
    cabinet.isRegular = true ∧ cabinet.extent = 160 ∧ cabinet.size = 160 ∧
    cabinet.follow? [.element 1, .field "cards", .element 2, .field "y"] =
      some (136, .integer) ∧
    cabinet.follow? [.element 1, .field "cards", .element 2, .field "x"] =
      some (128, .integer) ∧
    ((136 : Int) + Ty.integer.size.toInt ≤ 128 ∨ 128 + Ty.integer.size.toInt ≤ (136 : Int)) ∧
    ∃ e s, (((Node.ident files).select lastCard).lower [] office clerk).address
        ⟨.empty, []⟩ = .ok (e, s) ∧
      ∀ run state, Exec.eval room run e state = .ok (16 + 136) state := by
  have hregular : cabinet.isRegular = true := by decide +kernel
  have hextent : cabinet.extent = 160 := by decide +kernel
  have hpath : cabinet.follow? [.element 1, .field "cards", .element 2, .field "y"] =
      some (136, .integer) := by decide +kernel
  have hpath' : cabinet.follow? [.element 1, .field "cards", .element 2, .field "x"] =
      some (128, .integer) := by decide +kernel
  obtain ⟨-, -, hapart, hcode⟩ := Ty.parts_laid_out hregular (by rw [hextent]; decide)
  refine ⟨hregular, hextent, by decide +kernel, hpath, hpath',
    hapart _ _ _ _ _ _ (by decide) (by decide) hpath hpath', ?_⟩
  obtain ⟨hsucceeds, heval⟩ := hcode [] office clerk files lastCard _ _ _ rfl hpath
    (.cons .element (.cons .field (.cons .element (.cons .field .nil))))
  have hindices : ∀ index ∈ lastCard.filterMap (·.index?),
      (index.lower [] office clerk).value.Succeeds := by
    intro index hindex
    rcases List.mem_cons.1 hindex with rfl | hindex
    · exact .pure _
    · cases List.mem_singleton.1 hindex
      exact Lower.Succeeds.bind (.pure _) fun _ => .bind (.pure _) fun _ => .pure _
  obtain ⟨⟨e, s⟩, he⟩ := hsucceeds (.pure _) hindices ⟨.empty, []⟩
  obtain ⟨codes, hcodes, heval⟩ := heval _ _ _ he
  refine ⟨e, s, he, fun run state => heval room run state 16 state state rfl ?_⟩
  cases hcodes with
  | cons hrest hfirst =>
  cases hrest with
  | cons hnone hsecond =>
  cases hnone
  cases hsecond
  cases hfirst
  rfl

end Sample

end TreeCode
