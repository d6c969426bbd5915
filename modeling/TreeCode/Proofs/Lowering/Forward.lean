/-
# Code that only runs ahead

A jump back to a label that has been passed is made for loops and for nothing else.
`Block.Ahead` says that every jump of an instruction list leads to a label further on, and
`Expr.Forward` and `Stmt.Forward` say it of all blocks inside a tree. `Lowers.forward`
reads it off a derivation whose tree has no loop among its own nodes.

Own nodes leave out what stands in definitions, since the functions there have code of
their own. `Program.LoopFree` counts all nodes, and passes to every declared function.
-/

import TreeCode.Proofs.Lowering.Origin

namespace TreeCode

open IR (Expr Stmt)
open Source (Declared Node Routine Symbol)

namespace Block

/-- Every jump of an instruction list leads to a label further on. -/
def Ahead : List Stmt → Prop
  | [] => True
  | stmt :: rest => (∀ l ∈ targets stmt, .label l ∈ rest) ∧ Ahead rest

namespace Ahead

variable {code : List Stmt} {stmt : Stmt} {l : Label}

theorem single (h : targets stmt = []) : Ahead [stmt] := by
  constructor
  · intro l hl
    rw [h] at hl
    cases hl
  · trivial

theorem append {a b : List Stmt} (ha : Ahead a) (hb : Ahead b) : Ahead (a ++ b) := by
  induction a with
  | nil => exact hb
  | cons stmt rest ih =>
    exact ⟨fun l hl => List.mem_append_left _ (ha.1 l hl), ih ha.2⟩

variable {pc : Nat} (h : Ahead code) (hstmt : code[pc]? = some stmt) (hl : l ∈ targets stmt)
include h hstmt hl

/-- The label that a jump leads to is placed behind the jump. -/
theorem exists_label : ∃ i, pc < i ∧ code[i]? = some (.label l) := by
  induction code generalizing pc with
  | nil => cases hstmt
  | cons first rest ih =>
    cases pc with
    | zero =>
      cases hstmt
      obtain ⟨i, hi⟩ := List.mem_iff_getElem?.1 (h.1 l hl)
      exact ⟨i + 1, Nat.succ_pos i, hi⟩
    | succ pc =>
      obtain ⟨i, hlt, hi⟩ := ih h.2 hstmt
      exact ⟨i + 1, Nat.succ_lt_succ hlt, hi⟩

/-- A jump leads forward. -/
theorem lt_position? {i : Nat} (hi : (ofList code).position? l = some i) : pc < i := by
  obtain ⟨j, hlt, hj⟩ := h.exists_label hstmt hl
  obtain ⟨-, hlast⟩ := position?_eq_some.1 hi
  by_contra hle
  exact hlast j (by omega) (by rw [getElem?_ofList, hj])

end Ahead

end Block

namespace IR

mutual

/-- Jumps lead forward in every block inside an expression. -/
def Expr.Forward : Expr → Prop
  | .const _ => True
  | .name _ => True
  | .temp _ => True
  | .mem a => a.Forward
  | .binop _ x y => x.Forward ∧ y.Forward
  | .unop _ x => x.Forward
  | .call _ args => Expr.ForwardAll args
  | .eseq s e => (s.Forward ∧ Block.Ahead s.flatten) ∧ e.Forward

/-- A list of such expressions. -/
def Expr.ForwardAll : List Expr → Prop
  | [] => True
  | e :: es => e.Forward ∧ Expr.ForwardAll es

/-- A statement with such expressions. -/
def Stmt.Forward : Stmt → Prop
  | .absent => True
  | .exp e => e.Forward
  | .move d e => d.Forward ∧ e.Forward
  | .seq ss => Stmt.ForwardAll ss
  | .cjump c _ _ => c.Forward
  | .jump _ => True
  | .label _ => True

/-- A list of such statements. -/
def Stmt.ForwardAll : List Stmt → Prop
  | [] => True
  | s :: ss => s.Forward ∧ Stmt.ForwardAll ss

end

theorem Stmt.forward_join {ss : List Stmt} (h : Stmt.ForwardAll ss) : (Stmt.join ss).Forward :=
  Stmt.join_induction (fun _ _ h => h) (fun _ _ hs hss => ⟨hs, hss⟩) (fun _ h => h) h

end IR

theorem forward_atOffset {e : Expr} (h : e.Forward) (offset : Word) :
    (atOffset e offset).Forward := by
  unfold atOffset
  split
  · exact h
  · exact ⟨h, trivial⟩

theorem forward_linkChain (n : Nat) : ∀ {e : Expr}, e.Forward → (linkChain n e).Forward := by
  induction n with
  | zero => exact fun h => h
  | succ n ih => exact fun {e} h => ih (e := .mem e) h

theorem forward_slotAddress (layout : Layout) (f : FrameRecord) (frame : Nat) (offset : Word) :
    (slotAddress layout f frame offset).Forward :=
  forward_atOffset (forward_linkChain _ (e := .temp Temp.fp) trivial) offset

namespace Source

namespace Node

/-- Whether a node is a loop. -/
def isLoop : Node → Bool
  | whileLoop _ _ => true
  | forLoop _ _ _ _ _ => true
  | _ => false

theorem mem_preorder_self (n : Node) : n ∈ n.preorder := by
  cases n with
  | branch _ _ _ elseArm | funDecl _ _ elseArm => cases elseArm <;> simp [preorder]
  | _ => simp [preorder]

theorem mem_preorderAll {m : Node} {ns : List Node} :
    m ∈ preorderAll ns ↔ ∃ n ∈ ns, m ∈ n.preorder := by
  induction ns with
  | nil => simp [preorderAll]
  | cons n ns ih => simp [preorderAll, ih]

theorem preorder_subset {m n : Node} (h : m ∈ n.children) : m.preorder ⊆ n.preorder := by
  have hall : preorderAll n.children ⊆ n.preorder := by
    cases n with
    | branch _ _ _ elseArm | funDecl _ _ elseArm =>
      cases elseArm <;> simp [children, preorder, preorderAll]
    | _ => simp [children, preorder, preorderAll]
  intro k hk
  exact hall (mem_preorderAll.2 ⟨m, h, hk⟩)

theorem own_subset_preorder (n : Node) : n.own ⊆ n.preorder := by
  refine inductOn (P := fun n => n.own ⊆ n.preorder) (fun n hchildren _ => ?_) n
  intro k hk
  rw [own_eq, List.mem_cons, mem_ownAll] at hk
  rcases hk with rfl | ⟨m, hm, hk⟩
  · exact mem_preorder_self k
  · exact preorder_subset hm (hchildren m hm hk)

/-- The nodes of the functions that some declarations list are among the given nodes. -/
def Covers (ns : List Node) (ds : List Declared) : Prop :=
  ∀ outer x params body, ⟨outer, .routine ⟨x, params, some body⟩⟩ ∈ ds → body.preorder ⊆ ns

theorem covers_declaresIn {defs : List Node}
    (h : ∀ x params body, .funDecl x params (some body) ∈ defs →
      ∀ outer, Covers body.preorder (body.declares outer)) (outer : List Routine) :
    Covers (preorderAll defs) (declaresIn defs outer) := by
  induction defs with
  | nil => exact fun _ _ _ _ hd => nomatch hd
  | cons n ns ih =>
    have hns : Covers (preorderAll (n :: ns)) (declaresIn ns outer) :=
      fun outer' x params body hd => List.Subset.trans
        (ih (fun x params body hmem => h x params body (List.mem_cons_of_mem _ hmem))
          outer' x params body hd) (List.subset_append_right _ _)
    intro outer' x params body hd
    cases n with
    | funDecl y ps inner =>
      cases inner with
      | none =>
        rcases List.mem_append.1 hd with hd | hd
        · simp [Routine.header] at hd
        · exact hns outer' x params body hd
      | some inner =>
        have hinner : inner.preorder ⊆ preorderAll (.funDecl y ps (some inner) :: ns) := by
          intro k hk
          simp [preorderAll, preorder, hk]
        rw [declaresIn, List.mem_append, List.mem_append] at hd
        rcases hd with hd | hd | hd
        · simp only [Routine.header, List.mem_cons, List.mem_map, Declared.mk.injEq,
            Item.routine.injEq, Routine.mk.injEq, Option.some.injEq, reduceCtorEq,
            and_false, exists_false, or_false] at hd
          obtain ⟨-, -, -, rfl⟩ := hd
          exact hinner
        · exact List.Subset.trans
            (h y ps inner List.mem_cons_self _ outer' x params body hd) hinner
        · exact hns outer' x params body hd
    | varDecl y =>
      rcases List.mem_cons.1 hd with hd | hd
      · cases hd
      · exact hns outer' x params body hd
    | _ => exact hns outer' x params body hd

theorem covers_declares (n : Node) : ∀ outer, Covers n.preorder (n.declares outer) := by
  refine inductOn (P := fun n => ∀ outer, Covers n.preorder (n.declares outer))
    (fun n hchildren hbodies outer => ?_) n
  cases hn : n.isWithin with
  | false =>
    intro outer' x params body hd
    rw [declares_eq hn, mem_declaresAll] at hd
    obtain ⟨m, hm, hd⟩ := hd
    exact List.Subset.trans (hchildren m hm outer outer' x params body hd) (preorder_subset hm)
  | true =>
    cases n with
    | within inner defs =>
      intro outer' x params body hd k hk
      refine List.mem_cons_of_mem _ (List.mem_append.2 ?_)
      rcases List.mem_append.1 hd with hd | hd
      · exact .inl (covers_declaresIn hbodies outer outer' x params body hd hk)
      · exact .inr (hchildren inner List.mem_cons_self outer outer' x params body hd hk)
    | _ => cases hn

end Node

/-- The own nodes of the functions of a program are nodes of the program. -/
theorem Program.own_subset {p : Program} {outer : List Routine} {r : Routine}
    (hr : ⟨outer, .routine r⟩ ∈ p.declares) {body : Node} (hbody : r.body = some body) :
    body.own ⊆ Node.preorderAll p.defs := by
  intro n hn
  obtain ⟨x, params, inner⟩ := r
  cases hbody
  exact Node.covers_declaresIn (fun _ _ body _ => body.covers_declares) [] outer x params body
    hr (body.own_subset_preorder hn)

/-- No loop stands anywhere in a program. -/
def Program.LoopFree (p : Program) : Prop :=
  ∀ n ∈ Node.preorderAll p.defs, n.isLoop = false

instance (p : Program) : Decidable p.LoopFree :=
  inferInstanceAs (Decidable (∀ n ∈ _, _))

end Source

namespace Reading

/-- The own nodes of what is lowered. -/
def own : Reading → List Node
  | .value _ n => n.own
  | .effect _ n => n.own
  | .address _ n => n.own
  | .arguments _ ns => Node.ownAll ns
  | .effects _ ns => Node.ownAll ns
  | .definitions _ => []

end Reading

/-- Jumps lead forward in what lowering yields. -/
def Lowered.Forward : Lowered → Prop
  | .expr e => e.Forward
  | .stmt s => s.Forward ∧ Block.Ahead s.flatten
  | .exprs es => Expr.ForwardAll es
  | .stmts ss => Stmt.ForwardAll ss ∧ Block.Ahead (Stmt.flattenAll ss)
  | .nothing => True

namespace Lowers

variable {types : TypeTable} {layout : Layout} {r : Reading} {s s' : LowerState} {o : Lowered}

/-- Without loops among the nodes that are lowered, code only runs ahead. -/
theorem forward (h : Lowers types layout r s o s') (hr : ∀ n ∈ r.own, n.isLoop = false) :
    o.Forward := by
  have child {n m : Node} (hn : ∀ k ∈ n.own, k.isLoop = false) (hm : m ∈ n.children := by simp) :
      ∀ k ∈ m.own, k.isLoop = false := fun k hk => hn k (Node.own_subset hm hk)
  have parts {n : Node} (hn : ∀ k ∈ n.own, k.isLoop = false) :
      ∀ k ∈ Node.ownAll n.children, k.isLoop = false := fun k hk =>
    hn k (Node.own_eq n ▸ List.mem_cons_of_mem _ hk)
  induction h with
  | number | logical | nothing | global | noArgument | noDefinition | static | stacked | procedure
  | function | skipped => trivial
  | string h =>
    obtain ⟨size, init, rfl, -⟩ := Lower.string_eq_ok h
    trivial
  | aggregate _ _ _ ih | load _ _ _ ih => exact ih hr
  | operation _ _ _ _ ihl ihr =>
    exact ⟨ihl (child hr), ihr (child hr)⟩
  | assigned _ _ _ _ _ iha ihv =>
    have ha := iha (child hr)
    have hv := ihv (child hr)
    refine ⟨⟨⟨⟨trivial, ha⟩, ⟨trivial, hv⟩, ⟨trivial, trivial⟩, trivial⟩, ?_⟩, trivial⟩
    simp [Stmt.flatten, Stmt.flattenAll, Block.Ahead, Block.targets]
  | plus _ ih | neg _ ih | not _ ih | addr _ ih | deref _ ih | withinValue _ _ _ ih
  | withinEffect _ _ _ ih | withinAddress _ _ _ ih => exact ih (child hr)
  | call _ _ ih => exact ⟨trivial, ih (parts hr)⟩
  | last _ _ _ ihs ihe =>
    have hall := parts hr
    rw [Node.children, Node.ownAll_append] at hall
    obtain ⟨hss, hahead⟩ := ihs fun k hk => hall k (List.mem_append_left _ hk)
    refine ⟨⟨Stmt.forward_join hss, Stmt.flatten_join _ ▸ hahead⟩, ?_⟩
    exact ihe (child hr)
  | zero _ _ ih => exact ⟨ih hr, trivial⟩
  | chosen _ _ _ _ _ _ _ _ ihc iha ihb =>
    have hc := ihc (child hr)
    have ha := iha (child hr)
    have hb := ihb (child hr)
    refine ⟨⟨⟨hc, trivial, ⟨trivial, ha⟩, trivial, trivial, ⟨trivial, hb⟩, trivial, trivial⟩,
      ?_⟩, trivial⟩
    simp [Stmt.flatten, Stmt.flattenAll, Block.Ahead, Block.targets]
  | dropped _ _ ih => exact ⟨ih hr, .single rfl⟩
  | assign _ _ _ iha ihv =>
    exact ⟨⟨iha (child hr), ihv (child hr)⟩, .single rfl⟩
  | @ifThen _ _ _ _ _ thenLabel _ elseLabel _ x _ st _ _ _ _ _ ihc iht =>
    have hc := ihc (child hr)
    obtain ⟨ht, hahead⟩ := iht (child hr)
    refine ⟨⟨hc, trivial, ht, trivial, trivial⟩, ?_⟩
    -- the arm runs ahead by itself; the test jumps to its start or behind it
    have hjoin : Block.Ahead (st.flatten ++ [.label elseLabel]) := hahead.append (.single rfl)
    simpa [Stmt.flatten, Stmt.flattenAll, Block.Ahead, Block.targets] using hjoin
  | @ifElse _ _ _ _ _ _ thenLabel _ elseLabel _ x _ endLabel _ st _ st' _ _ _ _ _ _ _ ihc iht
      ihe =>
      have hc := ihc (child hr)
      obtain ⟨ht, hahead⟩ := iht (child hr)
      obtain ⟨he, hahead'⟩ := ihe (child hr)
      refine ⟨⟨hc, trivial, ht, trivial, trivial, he, trivial, trivial⟩, ?_⟩
      have hjoin : Block.Ahead (st'.flatten ++ [.label endLabel]) := hahead'.append (.single rfl)
      have hboth : Block.Ahead (st.flatten ++
          .jump endLabel :: .label elseLabel :: (st'.flatten ++ [.label endLabel])) := by
        apply hahead.append
        simpa [Block.Ahead, Block.targets] using hjoin
      simpa [Stmt.flatten, Stmt.flattenAll, Block.Ahead, Block.targets] using hboth
  | whileLoop | forLoop => cases hr _ (Node.mem_own_self _)
  | sequence _ ih => exact ih (parts hr)
  | localSlot | paramSlot | reference => exact forward_slotAddress _ _ _ _
  | member _ ih => exact forward_atOffset (ih (child hr)) _
  | index _ _ ihi ihb =>
    exact ⟨ihb (child hr), ihi (child hr), trivial⟩
  | byAddress _ _ _ ihe ihes | byValue _ _ _ ihe ihes =>
    exact ⟨ihe fun k hk => hr k (List.mem_append_left _ hk),
      ihes fun k hk => hr k (List.mem_append_right _ hk)⟩
  | noEffect => exact ⟨trivial, trivial⟩
  | effects _ _ ihs ihss =>
    obtain ⟨hs, hahead⟩ := ihs fun k hk => hr k (List.mem_append_left _ hk)
    obtain ⟨hss, hahead'⟩ := ihss fun k hk => hr k (List.mem_append_right _ hk)
    exact ⟨⟨hs, hss⟩, hahead.append hahead'⟩

end Lowers

/-- The code of a function without loops only runs ahead. -/
theorem LowersBody.forward {types : TypeTable} {layout : Layout} {f : Source.Function}
    {g : FrameRecord} {s s' : LowerState} {code : Stmt}
    (h : LowersBody types layout f g s s' code) (hbody : ∀ n ∈ f.body.own, n.isLoop = false) :
    code.Forward ∧ Block.Ahead code.flatten := by
  cases h with
  | procedure _ hlower => exact hlower.forward hbody
  | function _ hlower => exact ⟨⟨trivial, hlower.forward hbody⟩, .single rfl⟩

end TreeCode
