/-
# What lowering meets on its way

Lowering meets the literals and the functions of a program in the order of their
numbers. `Lowers.traverses` says so for every derivation: the literals it makes data
for are as many as there are in the tree, every code chunk belongs to a function of the
tree, and every function of the tree has been lowered into a chunk.
-/

import TreeCode.Proofs.Lowering.Static
import TreeCode.Proofs.Meaning.Basic

namespace TreeCode

open IR (Chunk Effect Expr Stmt)
open Source (Node Symbol)

/-- The label of a chunk of data that has initial bytes. -/
def IR.Chunk.literal? : Chunk → Option Label
  | .data l _ init => if init.isEmpty then none else some l
  | .code _ _ => none

/-- The labels of the literals among some chunks. -/
def literalLabels (chunks : List Chunk) : List Label :=
  chunks.filterMap Chunk.literal?

@[simp]
theorem literalLabels_append (a b : List Chunk) :
    literalLabels (a ++ b) = literalLabels a ++ literalLabels b :=
  List.filterMap_append

/-- The labels of the literals that were made between two states. -/
def LowerState.since (s s' : LowerState) : List Label :=
  (literalLabels s'.chunks).drop (literalLabels s.chunks).length

theorem LowerState.since_of_append {s s' : LowerState} {c : List Chunk}
    (h : s'.chunks = s.chunks ++ c) : s.since s' = literalLabels c := by
  rw [since, h, literalLabels_append, List.drop_left]

theorem LowerState.since_trans {s s₁ s' : LowerState} (h : s.chunks <+: s₁.chunks)
    (h' : s₁.chunks <+: s'.chunks) : s.since s' = s.since s₁ ++ s₁.since s' := by
  obtain ⟨a, ha⟩ := h
  obtain ⟨b, hb⟩ := h'
  rw [since_of_append (c := a) ha.symm, since_of_append hb.symm,
    since_of_append (c := a ++ b) (by rw [← hb, ← ha, List.append_assoc]), literalLabels_append]

/-- A string literal is known by its label. -/
theorem Lower.since_string {bytes : List UInt8} {s s' : LowerState} {e : Expr}
    (h : Lower.string bytes s = .ok (e, s')) :
    e = .name s.supply.string.1 ∧ s.since s' = [s.supply.string.1] := by
  cases h
  refine ⟨rfl, (LowerState.since_of_append rfl).trans ?_⟩
  have hne : (bytes ++ [0]).isEmpty = false := by simp
  simp only [literalLabels, List.filterMap_cons, Chunk.literal?, hne]
  rfl

/-- Literals have the addresses that belong to their numbers, from a number on. -/
def Program.Literals (p : Program) (i : Nat) (ls : List Label) : Prop :=
  ∀ j l, ls[j]? = some l → p.address? l = some (p.literal (i + j))

theorem Program.Literals.append {p : Program} {i : Nat} {a b : List Label}
    (h : p.Literals i (a ++ b)) : p.Literals i a ∧ p.Literals (i + a.length) b := by
  constructor
  · intro j l hj
    refine h j l ?_
    rw [List.getElem?_append_left (List.getElem?_eq_some_iff.1 hj).1]
    exact hj
  · intro j l hj
    rw [Nat.add_assoc]
    refine h (a.length + j) l ?_
    rw [List.getElem?_append_right (Nat.le_add_right _ _), Nat.add_sub_cancel_left]
    exact hj

namespace Reading

/-- The number of literals that are met in what is lowered. -/
def literals : Reading → Nat
  | .value _ n => n.literals
  | .effect _ n => n.literals
  | .address _ n => n.literals
  | .arguments _ ns => Node.literalsAll ns
  | .effects _ ns => Node.literalsAll ns
  | .definitions ns => Node.literalsIn ns

/-- The functions that are met in what is lowered. -/
def functions : Reading → Nat → List Source.Function
  | .value _ n => n.functions
  | .effect _ n => n.functions
  | .address _ n => n.functions
  | .arguments _ ns => Node.functionsAll ns
  | .effects _ ns => Node.functionsAll ns
  | .definitions ns => Node.functionsIn ns

end Reading

/-- The body of a function as its chunk has it: the code for its effect if it has no
result, and else a move of its value into the temp for results. -/
inductive LowersBody (types : TypeTable) (layout : Layout) (f : Source.Function)
    (g : FrameRecord) (s s' : LowerState) : Stmt → Prop
  | procedure {code : Stmt} : f.decl.ty.isVoid = true →
      Lowers types layout (.effect g f.body) s (.stmt code) s' →
      LowersBody types layout f g s s' code
  | function {e : Expr} : f.decl.ty.isVoid = false →
      Lowers types layout (.value g f.body) s (.expr e) s' →
      LowersBody types layout f g s s' (.move (.temp Temp.rv) e)

/-- A function has been lowered into one of the given chunks. -/
def Emitted (types : TypeTable) (layout : Layout) (program : Program) (all : List Chunk)
    (f : Source.Function) : Prop :=
  ∃ g code supply s', layout.frameOf? f.decl = some g ∧ Temp.firstFree ≤ supply.temps ∧
    LowersBody types layout f g ⟨supply, []⟩ s' code ∧
    program.Literals f.literal (literalLabels s'.chunks) ∧ .code g.frame code ∈ all

/-- What is met between two states of lowering: a number of literals and some
functions. -/
structure Traverses (types : TypeTable) (layout : Layout) (program : Program)
    (all : List Chunk) (s s' : LowerState) (n : Nat) (fns : Nat → List Source.Function) :
    Prop where
  grows : Grows s s' []
  count : (s.since s').length = n
  origin : ∀ frame code, .code frame code ∈ s'.chunks → .code frame code ∈ s.chunks ∨
    ∀ i, ∃ f ∈ fns i, ∃ g, layout.frameOf? f.decl = some g ∧ frame = g.frame
  emitted : Temp.firstFree ≤ s.supply.temps → s'.chunks ⊆ all → ∀ i,
    program.Literals i (s.since s') → ∀ f ∈ fns i, Emitted types layout program all f

namespace Traverses

variable {types : TypeTable} {layout : Layout} {program : Program} {all : List Chunk}
  {s s₁ s' : LowerState} {n m : Nat} {fns fns' : Nat → List Source.Function}

theorem refl : Traverses types layout program all s s 0 (fun _ => []) where
  grows := .refl s
  count := by rw [LowerState.since, List.drop_length, List.length_nil]
  origin _ _ h := .inl h
  emitted _ _ _ _ _ h := by cases h

theorem append (h : Traverses types layout program all s s₁ n fns)
    (h' : Traverses types layout program all s₁ s' m fns') :
    Traverses types layout program all s s' (n + m) (fun i => fns i ++ fns' (i + n)) := by
  have hsince := LowerState.since_trans h.grows.chunks h'.grows.chunks
  refine ⟨h.grows.append h'.grows, ?_, ?_, ?_⟩
  · rw [hsince, List.length_append, h.count, h'.count]
  · intro frame code hmem
    rcases h'.origin frame code hmem with hmem | horigin
    · rcases h.origin frame code hmem with hmem | horigin
      · exact .inl hmem
      · refine .inr fun i => ?_
        obtain ⟨f, hf, hg⟩ := horigin i
        exact ⟨f, List.mem_append_left _ hf, hg⟩
    · refine .inr fun i => ?_
      obtain ⟨f, hf, hg⟩ := horigin (i + n)
      exact ⟨f, List.mem_append_right _ hf, hg⟩
  · intro hs hall i hlit f hf
    rw [hsince] at hlit
    obtain ⟨hfirst, hsecond⟩ := hlit.append
    rw [h.count] at hsecond
    rcases List.mem_append.1 hf with hf | hf
    · exact h.emitted hs (List.Subset.trans h'.grows.chunks.subset hall) i hfirst f hf
    · exact h'.emitted (Nat.le_trans hs h.grows.le) hall (i + n) hsecond f hf

theorem cast (h : Traverses types layout program all s s' n fns) (hn : n = m)
    (hfns : ∀ i, fns i = fns' i) : Traverses types layout program all s s' m fns' := by
  have heq : fns = fns' := funext hfns
  subst hn heq
  exact h

/-- Nothing is met while names are drawn. -/
theorem skip (h : Grows s s₁ []) (hchunks : s₁.chunks = s.chunks)
    (h' : Traverses types layout program all s₁ s' n fns) :
    Traverses types layout program all s s' n fns := by
  have hsince : s.since s' = s₁.since s' := by rw [LowerState.since, LowerState.since, hchunks]
  refine ⟨h.append h'.grows, hsince ▸ h'.count, hchunks ▸ h'.origin, fun hs hall i hlit => ?_⟩
  exact h'.emitted (Nat.le_trans hs h.le) hall i (hsince ▸ hlit)

theorem label {l : Label} (h : Lower.label s = .ok (l, s₁))
    (h' : Traverses types layout program all s₁ s' n fns) :
    Traverses types layout program all s s' n fns :=
  .skip (Grows.label h).forget (by cases h; rfl) h'

theorem temp {t : Temp} (h : Lower.temp s = .ok (t, s₁))
    (h' : Traverses types layout program all s₁ s' n fns) :
    Traverses types layout program all s s' n fns :=
  .skip (Grows.temp h).forget (by cases h; rfl) h'

theorem string {bytes : List UInt8} {e : Expr} (h : Lower.string bytes s = .ok (e, s')) :
    Traverses types layout program all s s' 1 (fun _ => []) := by
  have hgrows := (Grows.string h).forget
  have hsince := (Lower.since_string h).2
  refine ⟨hgrows, by rw [hsince, List.length_singleton], fun frame code hmem => ?_,
    fun _ _ _ _ _ hf => by cases hf⟩
  cases h
  rcases List.mem_append.1 hmem with hmem | hmem
  · exact .inl hmem
  · cases List.mem_singleton.1 hmem

/-- The data of a static variable is no literal. -/
theorem static {l : Label} {size : Word}
    (h : Traverses types layout program all ⟨s.supply, s.chunks ++ [.data l size []]⟩ s' n fns) :
    Traverses types layout program all s s' n fns := by
  have hsince : s.since s' =
      LowerState.since ⟨s.supply, s.chunks ++ [.data l size []]⟩ s' := by
    simp [LowerState.since, literalLabels, Chunk.literal?]
  refine ⟨h.grows.static, hsince ▸ h.count, fun frame code hmem => ?_, hsince ▸ h.emitted⟩
  rcases h.origin frame code hmem with hmem | horigin
  · rcases List.mem_append.1 hmem with hmem | hmem
    · exact .inl hmem
    · cases List.mem_singleton.1 hmem
  · exact .inr horigin

/-- A function is met before those that are defined in it. -/
theorem function {x : Symbol} {body : Node} {g : FrameRecord} {supply : Supply}
    {inner : List Chunk} {code : Stmt} (hg : layout.frameOf? x = some g)
    (hgrows : Grows s s' [])
    (hcode : ∀ i, LowersBody types layout ⟨x, body, i⟩ g ⟨s.supply, []⟩ ⟨supply, inner⟩ code)
    (hbody : Traverses types layout program all ⟨s.supply, []⟩ ⟨supply, inner⟩ n fns)
    (hrest : Traverses types layout program all
      ⟨supply, s.chunks ++ .code g.frame code :: inner⟩ s' m fns') :
    Traverses types layout program all s s' (n + m)
      (fun i => ⟨x, body, i⟩ :: (fns i ++ fns' (i + n))) := by
  have hsince : s.since s' = literalLabels inner ++
      LowerState.since ⟨supply, s.chunks ++ .code g.frame code :: inner⟩ s' := by
    obtain ⟨c, hc⟩ := hrest.grows.chunks
    rw [LowerState.since_of_append hc.symm]
    rw [LowerState.since_of_append (c := .code g.frame code :: inner ++ c)]
    · simp [literalLabels, Chunk.literal?, List.filterMap_cons]
    · rw [← hc, List.append_assoc]
  have hinner : LowerState.since ⟨s.supply, []⟩ ⟨supply, inner⟩ = literalLabels inner :=
    LowerState.since_of_append rfl
  have hcount := hbody.count
  rw [hinner] at hcount
  refine ⟨hgrows, ?_, ?_, ?_⟩
  · rw [hsince, List.length_append, hcount, hrest.count]
  · intro frame code' hmem
    rcases hrest.origin frame code' hmem with hmem | horigin
    · rcases List.mem_append.1 hmem with hmem | hmem
      · exact .inl hmem
      · right
        intro i
        cases hmem with
        | head => exact ⟨⟨x, body, i⟩, List.mem_cons_self, g, hg, rfl⟩
        | tail _ hmem =>
          rcases hbody.origin frame code' hmem with hmem | horigin
          · cases hmem
          · obtain ⟨f, hf, hframe⟩ := horigin i
            exact ⟨f, List.mem_cons_of_mem _ (List.mem_append_left _ hf), hframe⟩
    · refine .inr fun i => ?_
      obtain ⟨f, hf, hframe⟩ := horigin (i + n)
      exact ⟨f, List.mem_cons_of_mem _ (List.mem_append_right _ hf), hframe⟩
  · intro hs hall i hlit f hf
    rw [hsince] at hlit
    obtain ⟨hfirst, hsecond⟩ := hlit.append
    rw [hcount] at hsecond
    have hnew : .code g.frame code :: inner ⊆ all := fun c hc =>
      hall (hrest.grows.chunks.subset (List.mem_append_right _ hc))
    cases hf with
    | head =>
      exact ⟨g, code, s.supply, ⟨supply, inner⟩, hg, hs, hcode i, hfirst, hnew List.mem_cons_self⟩
    | tail _ hf =>
      rcases List.mem_append.1 hf with hf | hf
      · exact hbody.emitted hs (fun c hc => hnew (List.mem_cons_of_mem _ hc)) i
          (hinner ▸ hfirst) f hf
      · exact hrest.emitted (Nat.le_trans hs hbody.grows.le) hall (i + n) hsecond f hf

end Traverses

namespace Source.Node

@[simp]
theorem literalsAll_append (a b : List Node) :
    literalsAll (a ++ b) = literalsAll a + literalsAll b := by
  induction a with
  | nil => simp [literalsAll]
  | cons n a ih => simp [literalsAll, ih, Nat.add_assoc]

@[simp]
theorem functionsAll_append (a b : List Node) (i : Nat) :
    functionsAll (a ++ b) i = functionsAll a i ++ functionsAll b (i + literalsAll a) := by
  induction a generalizing i with
  | nil => simp [functionsAll, literalsAll]
  | cons n a ih => simp [functionsAll, literalsAll, ih, Nat.add_assoc]

/-- Nothing is met in a definition that has no chunks of its own. -/
theorem literalsIn_skipped {n : Node} (h : n.isDefinition = false) (ns : List Node) :
    literalsIn (n :: ns) = literalsIn ns := by
  cases n with
  | funDecl _ _ body =>
    cases body with
    | none => simp [literalsIn]
    | some _ => cases h
  | _ => simp [literalsIn]

theorem functionsIn_skipped {n : Node} (h : n.isDefinition = false) (ns : List Node) :
    functionsIn (n :: ns) = functionsIn ns := by
  funext i
  cases n with
  | funDecl _ _ body =>
    cases body with
    | none => simp [functionsIn]
    | some _ => cases h
  | _ => simp [functionsIn]

end Source.Node

variable {types : TypeTable} {layout : Layout} {r : Reading} {o : Lowered} {s s' : LowerState}

/-- Whatever is lowered, its literals and functions are met in order. -/
theorem Lowers.traverses {program : Program} {all : List Chunk} (h : Lowers types layout r s o s') :
    Traverses types layout program all s s' r.literals r.functions := by
  induction h with
  | number | logical | nothing | global _ | localSlot _ _ | paramSlot _ _ | reference _ _
  | noArgument | noEffect | noDefinition => exact .refl
  | string hstring => exact .string hstring
  | aggregate _ _ _ ih | load _ _ _ ih | plus _ ih | neg _ ih | not _ ih | addr _ ih
  | call _ _ ih | zero _ _ ih | dropped _ _ ih | sequence _ ih | member _ ih | deref _ ih
  | stacked _ _ _ ih => exact ih
  | operation hindex _ _ _ ihl ihr =>
    refine (ihl.append ihr).cast ?_ fun i => ?_
    · simp only [Reading.literals, Node.literals]
    · simp only [Reading.literals, Reading.functions, Node.functions]
  | assigned _ haddr ht _ _ iha ihv => exact .temp haddr (.temp ht (iha.append ihv))
  | last _ _ _ ihb ihe =>
    refine (ihb.append ihe).cast ?_ fun i => ?_
    · simp [Reading.literals, Node.literals, Node.literalsAll]
    · simp [Reading.literals, Reading.functions, Node.functions, Node.functionsAll]
  | chosen _ ht hthen helse hend _ _ _ ihc iha ihb =>
    exact .temp ht (.label hthen (.label helse (.label hend (ihc.append (iha.append ihb)))))
  | withinValue _ _ ihd ihb | assign _ _ _ ihd ihb | withinEffect _ _ ihd ihb
  | withinAddress _ _ ihd ihb | byAddress _ _ _ ihd ihb | byValue _ _ _ ihd ihb
  | effects _ _ ihd ihb => exact ihd.append ihb
  | ifThen hthen helse _ _ ihc iht => exact .label hthen (.label helse (ihc.append iht))
  | ifElse hthen helse _ hend _ _ ihc iht ihe =>
    exact .label hthen (.label helse (ihc.append (.label hend (iht.append ihe))))
  | whileLoop hstart hbody hend _ _ ihc ihb =>
    exact .label hstart (.label hbody (.label hend (ihc.append ihb)))
  | forLoop hstart hbody hend _ _ _ _ _ _ _ _ ihfirst ihl iht ihh ihb ihw ihr ihx =>
    exact .label hstart (.label hbody (.label hend (ihfirst.append (ihl.append (iht.append
      (ihh.append (ihb.append (ihw.append (ihr.append ihx)))))))))
  | index _ _ ihi iha => exact (ihi.append iha).cast (Nat.add_comm _ _) fun _ => rfl
  | static _ _ ih => exact .static ih
  | procedure hg hvoid hbody _ ihb ih =>
    exact .function hg (hbody.grows.function (fun _ => Nat.le_refl _) ih.grows)
      (fun _ => .procedure hvoid hbody) ihb ih
  | function hg hvoid hbody _ ihb ih =>
    have hcount := Stmt.count_label_move_temp Temp.rv
    exact .function hg (hbody.grows.function (fun l => Nat.le_of_eq (hcount _ l)) ih.grows)
      (fun _ => .function hvoid hbody) ihb ih
  | skipped hskip _ ih =>
    refine ih.cast ?_ fun i => ?_
    · simp only [Reading.literals, Node.literalsIn_skipped hskip]
    · simp only [Reading.functions, Node.functionsIn_skipped hskip]

end TreeCode
