/-
# Declarations and their scopes

A declaration stands inside a list of functions, the innermost first; on top level the
list is empty. `Source.Program.declares` lists every declaration of a program with the
functions around it, and `Source.Node.own` lists what a function itself is made of, the
functions defined inside it left out.

A program is well-scoped if whatever a function uses is declared in one of the functions
around the use, or on top level. This is a property of the tree alone: it says nothing
about frames, links or addresses.
-/

import Mathlib.Data.List.Nodup
import TreeCode.Proofs.Layout.Derivation
import TreeCode.Proofs.Meaning.Basic
import TreeCode.Proofs.Types

namespace TreeCode.Source

/-- A function as it is declared. -/
structure Routine where
  decl : Symbol
  params : List Symbol
  body : Option Node

/-- What can be declared. -/
inductive Item where
  | var (x : Symbol)
  | param (x : Symbol)
  | routine (r : Routine)

/-- The symbol that is declared. -/
def Item.decl : Item → Symbol
  | .var x => x
  | .param x => x
  | .routine r => r.decl

/-- Whether something with a place in memory is declared. -/
def Item.isPlaced : Item → Bool
  | .routine _ => false
  | _ => true

/-- A declaration inside some functions, the innermost first. -/
structure Declared where
  outer : List Routine
  item : Item

/-- The declarations that the head of a function makes: the function itself, and inside it
its parameters. -/
def Routine.header (r : Routine) (outer : List Routine) : List Declared :=
  ⟨outer, .routine r⟩ :: r.params.map fun x => ⟨r :: outer, .param x⟩

namespace Node

mutual

/-- The declarations in a node that stands inside some functions. -/
def declares : Node → List Routine → List Declared
  | .binary _ left right, outer => left.declares outer ++ right.declares outer
  | .unary _ operand, outer => operand.declares outer
  | .member operand _, outer => operand.declares outer
  | .call _ args, outer => declaresAll args outer
  | .sequence items, outer => declaresAll items outer
  | .within body defs, outer => declaresIn defs outer ++ body.declares outer
  | .branch _ condition thenArm none, outer => condition.declares outer ++ thenArm.declares outer
  | .branch _ condition thenArm (some elseArm), outer =>
    condition.declares outer ++ (thenArm.declares outer ++ elseArm.declares outer)
  | .whileLoop condition body, outer => condition.declares outer ++ body.declares outer
  | .forLoop counter lo hi step body, outer =>
    counter.declares outer ++ (lo.declares outer ++ (hi.declares outer ++
      (step.declares outer ++ body.declares outer)))
  | .funDecl _ _ (some body), outer => body.declares outer
  | _, _ => []

/-- The declarations in the nodes of a list. -/
def declaresAll : List Node → List Routine → List Declared
  | [], _ => []
  | n :: rest, outer => n.declares outer ++ declaresAll rest outer

/-- The declarations of a list of definitions, and those inside them. -/
def declaresIn : List Node → List Routine → List Declared
  | [], _ => []
  | .varDecl x :: rest, outer => ⟨outer, .var x⟩ :: declaresIn rest outer
  | .funDecl x params none :: rest, outer =>
    Routine.header ⟨x, params, none⟩ outer ++ declaresIn rest outer
  | .funDecl x params (some body) :: rest, outer =>
    Routine.header ⟨x, params, some body⟩ outer ++
      (body.declares (⟨x, params, some body⟩ :: outer) ++ declaresIn rest outer)
  | _ :: rest, outer => declaresIn rest outer

end

mutual

/-- A node and all nodes below it, definitions left out. -/
def own : Node → List Node
  | n@(.binary _ left right) => n :: (left.own ++ right.own)
  | n@(.unary _ operand) => n :: operand.own
  | n@(.member operand _) => n :: operand.own
  | n@(.call _ args) => n :: ownAll args
  | n@(.sequence items) => n :: ownAll items
  | n@(.within body _) => n :: body.own
  | n@(.branch _ condition thenArm none) => n :: (condition.own ++ thenArm.own)
  | n@(.branch _ condition thenArm (some elseArm)) =>
    n :: (condition.own ++ (thenArm.own ++ elseArm.own))
  | n@(.whileLoop condition body) => n :: (condition.own ++ body.own)
  | n@(.forLoop counter lo hi step body) =>
    n :: (counter.own ++ (lo.own ++ (hi.own ++ (step.own ++ body.own))))
  | n@(.funDecl _ _ (some body)) => n :: body.own
  | n => [n]

/-- The nodes of a list and all nodes below them, definitions left out. -/
def ownAll : List Node → List Node
  | [] => []
  | n :: rest => n.own ++ ownAll rest

end

/-- What is declared in a node that is no `where` is declared in its children. -/
theorem declares_eq {n : Node} (h : n.isWithin = false) (outer : List Routine) :
    n.declares outer = declaresAll n.children outer := by
  cases n with
  | within _ _ => cases h
  | branch _ _ _ elseArm | funDecl _ _ elseArm =>
    cases elseArm <;> simp [declares, declaresAll, children]
  | _ => simp [declares, declaresAll, children]

theorem own_eq (n : Node) : n.own = n :: ownAll n.children := by
  cases n with
  | branch _ _ _ elseArm | funDecl _ _ elseArm => cases elseArm <;> simp [own, ownAll, children]
  | _ => simp [own, ownAll, children]

theorem mem_own_self (n : Node) : n ∈ n.own :=
  own_eq n ▸ List.mem_cons_self

theorem mem_ownAll {m : Node} {ns : List Node} : m ∈ ownAll ns ↔ ∃ n ∈ ns, m ∈ n.own := by
  induction ns with
  | nil => simp [ownAll]
  | cons n ns ih => simp [ownAll, ih]

theorem mem_declaresAll {d : Declared} {ns : List Node} {outer : List Routine} :
    d ∈ declaresAll ns outer ↔ ∃ n ∈ ns, d ∈ n.declares outer := by
  induction ns with
  | nil => simp [declaresAll]
  | cons n ns ih => simp [declaresAll, ih]

theorem ownAll_append (ms ns : List Node) : ownAll (ms ++ ns) = ownAll ms ++ ownAll ns := by
  induction ms with
  | nil => rfl
  | cons m ms ih => rw [List.cons_append, ownAll, ownAll, ih, List.append_assoc]

/-- What is below a child is below the node. -/
theorem own_subset {m n : Node} (h : m ∈ n.children) : m.own ⊆ n.own := by
  intro k hk
  rw [own_eq n]
  exact List.mem_cons_of_mem _ (mem_ownAll.2 ⟨m, h, hk⟩)

end Node

/-- All declarations of a program. -/
def Program.declares (p : Program) : List Declared :=
  Node.declaresIn p.defs []

namespace Node

theorem declaresIn_sublist (n : Node) (ns : List Node) (outer : List Routine) :
    (declaresIn ns outer).Sublist (declaresIn (n :: ns) outer) := by
  cases n with
  | varDecl _ => exact List.sublist_cons_self _ _
  | funDecl _ _ body =>
    cases body with
    | none => exact List.sublist_append_right _ _
    | some _ => exact (List.sublist_append_right _ _).trans (List.sublist_append_right _ _)
  | _ => exact List.Sublist.refl _

theorem declaresIn_subset (n : Node) (ns : List Node) (outer : List Routine) :
    declaresIn ns outer ⊆ declaresIn (n :: ns) outer :=
  (declaresIn_sublist n ns outer).subset

end Node

/-- Whether a declaration can be seen from inside some functions: it stands in one of them
or on top level. Functions are told apart by their numbers. -/
def Declared.VisibleFrom (d : Declared) (inside : List Routine) : Prop :=
  d.outer.map (·.decl.id) <:+ inside.map (·.decl.id)

/-- Whether what a node inside some functions uses is declared where the node can see it. -/
def Node.Scoped (ds : List Declared) (inside : List Routine) : Node → Prop
  | .ident x => ∃ d ∈ ds, d.item.isPlaced = true ∧ d.item.decl = x ∧ d.VisibleFrom inside
  | .call callee _ =>
    ∃ d ∈ ds, d.item.isPlaced = false ∧ d.item.decl = callee ∧ d.VisibleFrom inside
  | _ => True

/-- Whether what a function uses is declared where it can see it. Other declarations use
nothing. -/
def Declared.Scoped (ds : List Declared) : Declared → Prop
  | ⟨outer, .routine ⟨x, params, some body⟩⟩ =>
    ∀ n ∈ body.own, n.Scoped ds (⟨x, params, some body⟩ :: outer)
  | _ => True

/-- Every declaration is listed once, and whatever a function uses is declared in it, in a
function around it or on top level. -/
structure Program.WellScoped (p : Program) : Prop where
  once : (p.declares.map (·.item.decl.id)).Nodup
  uses : ∀ d ∈ p.declares, d.Scoped p.declares

instance (d : Declared) (inside : List Routine) : Decidable (d.VisibleFrom inside) :=
  inferInstanceAs (Decidable (_ <:+ _))

instance (ds : List Declared) (inside : List Routine) (n : Node) :
    Decidable (n.Scoped ds inside) :=
  match n with
  | .ident _ => inferInstanceAs (Decidable (∃ d ∈ ds, _ ∧ _ ∧ _))
  | .call _ _ => inferInstanceAs (Decidable (∃ d ∈ ds, _ ∧ _ ∧ _))
  | .number _ | .logical _ | .string _ | .binary _ _ _ | .unary _ _ | .member _ _ | .sequence _
  | .within _ _ | .branch _ _ _ _ | .whileLoop _ _ | .forLoop _ _ _ _ _ | .funDecl _ _ _
  | .varDecl _ | .parDecl _ | .typeDecl _ => .isTrue trivial

instance (ds : List Declared) (d : Declared) : Decidable (d.Scoped ds) :=
  match d with
  | ⟨_, .routine ⟨_, _, some _⟩⟩ => inferInstanceAs (Decidable (∀ n ∈ _, _))
  | ⟨_, .routine ⟨_, _, none⟩⟩ => .isTrue trivial
  | ⟨_, .var _⟩ => .isTrue trivial
  | ⟨_, .param _⟩ => .isTrue trivial

instance (p : Program) : Decidable p.WellScoped :=
  decidable_of_iff (_ ∧ _) ⟨fun h => ⟨h.1, h.2⟩, fun h => ⟨h.once, h.uses⟩⟩

/-- Functions inside each other that are themselves declared. -/
def Nested (ds : List Declared) (inside : List Routine) : Prop :=
  ∀ r outer, r :: outer <:+ inside → ⟨outer, .routine r⟩ ∈ ds

variable {ds : List Declared} {r : Routine} {outer : List Routine}

theorem Nested.cons (h : Nested ds outer) (hr : ⟨outer, .routine r⟩ ∈ ds)
    : Nested ds (r :: outer) := by
  intro q rest hsuffix
  rcases List.suffix_cons_iff.1 hsuffix with heq | hsuffix
  · injection heq with hq hrest
    exact hq ▸ hrest ▸ hr
  · exact h q rest hsuffix

theorem Nested.tail (h : Nested ds (r :: outer)) : Nested ds outer :=
  fun q rest hsuffix => h q rest (hsuffix.trans (List.suffix_cons r outer))

namespace Node

/-- A declaration of a list that stands inside some functions. It is inside them, and the
other functions around it are declared in the list. A function is declared there together
with its parameters and with what its body declares. -/
structure Contained (ds : List Declared) (outer : List Routine) (d : Declared) : Prop where
  inside : outer <:+ d.outer
  around : ∀ r rest, r :: rest <:+ d.outer → r :: rest <:+ outer ∨ ⟨rest, .routine r⟩ ∈ ds
  header : ∀ r, d.item = .routine r → (r.header d.outer).Sublist ds
  body : ∀ r body, d.item = .routine r → r.body = some body → body.declares (r :: d.outer) ⊆ ds

namespace Contained

variable {ds ds' : List Declared} {outer : List Routine} {d : Declared} {q : Routine}

theorem mono (h : Contained ds outer d) (hsub : ds.Sublist ds') : Contained ds' outer d where
  inside := h.inside
  around r rest hsuffix := (h.around r rest hsuffix).imp_right fun hr => hsub.subset hr
  header r hr := (h.header r hr).trans hsub
  body r body hr hbody := List.Subset.trans (h.body r body hr hbody) hsub.subset

/-- What is inside a function of the list is inside the functions around the list. -/
theorem inner (h : Contained ds (q :: outer) d) (hq : ⟨outer, .routine q⟩ ∈ ds) :
    Contained ds outer d where
  inside := (List.suffix_cons _ _).trans h.inside
  around r rest hsuffix := by
    rcases h.around r rest hsuffix with hsuffix | hr
    · rcases List.suffix_cons_iff.1 hsuffix with heq | hsuffix
      · cases heq
        exact .inr hq
      · exact .inl hsuffix
    · exact .inr hr
  header := h.header
  body := h.body

theorem placed {item : Item} (h : item.isPlaced = true) : Contained ds outer ⟨outer, item⟩ where
  inside := List.suffix_refl _
  around _ _ hsuffix := .inl hsuffix
  header r hr := by
    cases hr
    cases h
  body r body hr := by
    cases hr
    cases h

theorem of_header (hq : (q.header outer).Sublist ds)
    (hbody : ∀ body, q.body = some body → body.declares (q :: outer) ⊆ ds)
    (hd : d ∈ q.header outer) : Contained ds outer d := by
  rcases List.mem_cons.1 hd with rfl | hd
  · refine ⟨List.suffix_refl _, fun _ _ => .inl, fun r hr => ?_, fun r body hr => ?_⟩
    · cases hr
      exact hq
    · cases hr
      exact hbody body
  · obtain ⟨x, -, rfl⟩ := List.mem_map.1 hd
    exact (placed rfl).inner (hq.subset (List.mem_cons_self ..))

end Contained

theorem contained_declaresIn {defs : List Node}
    (h : ∀ x params body, .funDecl x params (some body) ∈ defs → ∀ outer,
      ∀ d ∈ body.declares outer, Contained (body.declares outer) outer d) (outer : List Routine) :
    ∀ d ∈ declaresIn defs outer, Contained (declaresIn defs outer) outer d := by
  induction defs with
  | nil => exact fun _ hd => absurd hd List.not_mem_nil
  | cons n ns ih =>
    intro d hd
    have hns : ∀ d ∈ declaresIn ns outer, Contained (declaresIn (n :: ns) outer) outer d :=
      fun d hd => (ih (fun x params body hmem => h x params body (List.mem_cons_of_mem _ hmem))
        d hd).mono (declaresIn_sublist n ns outer)
    cases n with
    | varDecl x =>
      rcases List.mem_cons.1 hd with rfl | hd
      · exact .placed rfl
      · exact hns d hd
    | funDecl x params body =>
      cases body with
      | none =>
        rcases List.mem_append.1 hd with hd | hd
        · exact .of_header (List.sublist_append_left _ _) (fun _ hbody => by cases hbody) hd
        · exact hns d hd
      | some body =>
        have hbody : (body.declares (⟨x, params, some body⟩ :: outer)).Sublist
            (declaresIn (.funDecl x params (some body) :: ns) outer) :=
          (List.sublist_append_left _ _).trans (List.sublist_append_right _ _)
        rcases List.mem_append.1 hd with hd | hd
        · refine .of_header (List.sublist_append_left _ _) (fun b hb => ?_) hd
          cases hb
          exact hbody.subset
        rcases List.mem_append.1 hd with hd | hd
        · exact ((h x params body List.mem_cons_self _ d hd).mono hbody).inner
            (List.mem_append_left _ (List.mem_cons_self ..))
        · exact hns d hd
    | _ => exact hns d hd

theorem declares_sublist {n : Node} {ns : List Node} (hn : n ∈ ns) (outer : List Routine) :
    (n.declares outer).Sublist (declaresAll ns outer) := by
  induction ns with
  | nil => cases hn
  | cons m ns ih =>
    rw [declaresAll]
    rcases List.mem_cons.1 hn with rfl | hn
    · exact List.sublist_append_left _ _
    · exact (ih hn).trans (List.sublist_append_right _ _)

theorem contained_declares (n : Node) : ∀ outer, ∀ d ∈ n.declares outer,
    Contained (n.declares outer) outer d := by
  refine inductOn (P := fun n => ∀ outer, ∀ d ∈ n.declares outer,
    Contained (n.declares outer) outer d) (fun n hchildren hbodies outer d hd => ?_) n
  cases hn : n.isWithin with
  | false =>
    rw [declares_eq hn] at hd ⊢
    obtain ⟨m, hm, hd⟩ := mem_declaresAll.1 hd
    exact (hchildren m hm outer d hd).mono (declares_sublist hm outer)
  | true =>
    cases n with
    | within body defs =>
      rcases List.mem_append.1 hd with hd | hd
      · exact (contained_declaresIn hbodies outer d hd).mono (List.sublist_append_left _ _)
      · exact (hchildren body List.mem_cons_self outer d hd).mono (List.sublist_append_right _ _)
    | _ => cases hn

end Node

namespace Program

variable {p : Program}

theorem contained (p : Program) : ∀ d ∈ p.declares, Node.Contained p.declares [] d :=
  Node.contained_declaresIn (fun _ _ body _ => body.contained_declares) []

/-- A function is declared together with its parameters. -/
theorem header_sublist {outer : List Routine} {r : Routine}
    (hr : ⟨outer, .routine r⟩ ∈ p.declares) : (r.header outer).Sublist p.declares :=
  (p.contained _ hr).header r rfl

/-- The functions around a declaration are declared, too. -/
theorem nested (p : Program) : ∀ d ∈ p.declares, Nested p.declares d.outer := fun d hd r rest h =>
  ((p.contained d hd).around r rest h).resolve_left fun hnil => by cases List.suffix_nil.1 hnil

/-- What the body of a declared function declares is declared in the program. -/
theorem declares_body {outer : List Routine} {r : Routine} {body : Node}
    (hr : ⟨outer, .routine r⟩ ∈ p.declares) (hbody : r.body = some body) :
    body.declares (r :: outer) ⊆ p.declares :=
  (p.contained _ hr).body r body rfl hbody

namespace WellScoped

/-- Declarations of the same symbol number are the same. -/
theorem unique (h : p.WellScoped) {d e : Declared} (hd : d ∈ p.declares) (he : e ∈ p.declares)
    (heq : d.item.decl.id = e.item.decl.id) : d = e :=
  List.inj_on_of_nodup_map h.once hd he heq

/-- Functions inside each other are the same if their numbers are. -/
theorem eq_of_ids (h : p.WellScoped) {a b : List Routine} (ha : Nested p.declares a)
    (hb : Nested p.declares b) (heq : a.map (·.decl.id) = b.map (·.decl.id)) : a = b := by
  induction a generalizing b with
  | nil => exact (List.map_eq_nil_iff.1 heq.symm).symm
  | cons r a ih =>
    cases b with
    | nil => cases heq
    | cons q b =>
      obtain ⟨hid, hrest⟩ := List.cons.inj heq
      obtain rfl := ih ha.tail hb.tail hrest
      have hsame := h.unique (ha r a (List.suffix_refl _)) (hb q a (List.suffix_refl _)) hid
      injection hsame with _ hitem
      injection hitem with hrq
      rw [hrq]

/-- A function is not inside itself. -/
theorem notMem_outer (h : p.WellScoped) {r : Routine} {outer : List Routine}
    (hnested : Nested p.declares (r :: outer)) : ∀ q ∈ outer, r.decl.id ≠ q.decl.id := by
  intro q hq hid
  obtain ⟨before, after, rfl⟩ := List.append_of_mem hq
  have hsuffix : q :: after <:+ r :: (before ++ q :: after) :=
    (List.suffix_append _ _).trans (List.suffix_cons _ _)
  have hsame := h.unique (hnested r _ (List.suffix_refl _)) (hnested q after hsuffix) hid
  have hlength := congrArg (fun d => d.outer.length) hsame
  simp only [List.length_append, List.length_cons] at hlength
  omega

/-- Functions inside each other are all different. -/
theorem nodup_of_nested (h : p.WellScoped) {inside : List Routine}
    (hnested : Nested p.declares inside) : inside.Nodup := by
  induction inside with
  | nil => exact List.nodup_nil
  | cons r outer ih =>
    refine List.nodup_cons.2 ⟨fun hmem => ?_, ih hnested.tail⟩
    exact h.notMem_outer hnested r hmem rfl

/-- What can be seen stands in one of the functions around, or on top level. -/
theorem suffix_of_visible (h : p.WellScoped) {d : Declared} (hd : d ∈ p.declares)
    {inside : List Routine} (hinside : Nested p.declares inside) (hvisible : d.VisibleFrom inside) :
    d.outer <:+ inside := by
  obtain ⟨before, hbefore⟩ := hvisible
  obtain ⟨front, back, rfl, -, hback⟩ := List.append_eq_map_iff.1 hbefore
  have hnested : Nested p.declares back := fun r outer hsuffix =>
    hinside r outer (hsuffix.trans (List.suffix_append _ _))
  rw [h.eq_of_ids (p.nested d hd) hnested hback.symm]
  exact List.suffix_append _ _

variable {r : Routine} {outer : List Routine} {body : Node}

variable (h : p.WellScoped) (hr : ⟨outer, .routine r⟩ ∈ p.declares) (hbody : r.body = some body)
include h hr hbody

/-- What a function uses is in scope. -/
theorem scoped_of_mem {n : Node} (hn : n ∈ body.own) : n.Scoped p.declares (r :: outer) := by
  obtain ⟨x, params, _⟩ := r
  obtain rfl : _ = some body := hbody
  exact h.uses _ hr n hn

/-- A function calls functions that are declared in it, in a function around it or on top
level. -/
theorem callee_visible {callee : Symbol} {args : List Node} (hcall : .call callee args ∈ body.own) :
    ∃ around q, ⟨around, .routine q⟩ ∈ p.declares ∧ q.decl = callee ∧ around <:+ r :: outer := by
  obtain ⟨⟨around, item⟩, hd, hplaced, hdecl, hvisible⟩ := h.scoped_of_mem hr hbody hcall
  have hsuffix := h.suffix_of_visible hd ((p.nested _ hr).cons hr) hvisible
  cases item with
  | routine q => exact ⟨around, q, hd, hdecl, hsuffix⟩
  | var _ | param _ => cases hplaced

/-- The variables that a function uses are declared in it, in a function around it or on
top level. -/
theorem ident_visible {x : Symbol} (hx : .ident x ∈ body.own) :
    ∃ d ∈ p.declares, d.item.isPlaced = true ∧ d.item.decl = x ∧ d.outer <:+ r :: outer := by
  obtain ⟨d, hd, hplaced, hdecl, hvisible⟩ := h.scoped_of_mem hr hbody hx
  exact ⟨d, hd, hplaced, hdecl, h.suffix_of_visible hd ((p.nested _ hr).cons hr) hvisible⟩

end WellScoped

end Program

end TreeCode.Source
