/-
# The same tree lowered twice

A node may be lowered more than once, from different states. The temps and the jump labels
are different ones each time, and the code does the same nonetheless: `Lowers.twice` says
so for every reading. The labels of literals are the same if the two states draw the same
ones next, whatever else has been drawn.

The proof follows the rules of one derivation. The other one is made by the same rules,
because the shape of a node decides which rule there is for it.
-/

import TreeCode.Proofs.Lowering.Simulation
import TreeCode.Proofs.Machine.Equivalence
import TreeCode.Proofs.Names.Uniqueness

namespace TreeCode

open IR (Expr Stmt)
open Source (Node Symbol)

namespace Supply

variable {s t : Supply}

/-- A search finds one number only. -/
theorem Search.unique {candidate : Nat → String} {k i j : Nat} (h : Search s candidate k i)
    (h' : Search s candidate k j) : i = j := by
  induction h with
  | found hfree =>
    cases h' with
    | found _ => rfl
    | next htaken _ => exact absurd htaken hfree
  | next htaken _ ih =>
    cases h' with
    | found hfree => exact absurd htaken hfree
    | next _ h' => exact ih h'

/-- A search depends on nothing but which of its candidates are taken. -/
theorem Search.congr {candidate : Nat → String} {k j : Nat} (h : Search s candidate k j)
    (hnames : ∀ i, candidate i ∈ s.names ↔ candidate i ∈ t.names) : Search t candidate k j := by
  induction h with
  | found hfree => exact .found (mt (hnames _).2 hfree)
  | next htaken _ ih => exact .next ((hnames _).1 htaken) ih

theorem literalName_ne_jumpName (i j : Nat) : literalName i ≠ jumpName j := by
  intro h
  have hhead := congrArg (fun name : String => name.toList.head?) h
  simp [literalName, jumpName] at hhead

/-- Two supplies that draw the same labels for literals, and both of them only temps that
are free for general use. -/
structure InStep (s t : Supply) : Prop where
  strings : s.strings = t.strings
  taken_iff : ∀ k, literalName k ∈ s.names ↔ literalName k ∈ t.names
  left : Temp.firstFree ≤ s.temps
  right : Temp.firstFree ≤ t.temps

namespace InStep

theorem refl (hs : Temp.firstFree ≤ s.temps) : s.InStep s :=
  ⟨rfl, fun _ => Iff.rfl, hs, hs⟩

theorem symm (h : s.InStep t) : t.InStep s :=
  ⟨h.strings.symm, fun k => (h.taken_iff k).symm, h.right, h.left⟩

/-- The next literal has the same label on both sides. -/
theorem string (h : s.InStep t) :
    s.string.1 = t.string.1 ∧ s.string.2.InStep t.string.2 := by
  have hsearch : Search t literalName t.strings (s.firstFree literalName s.strings) := by
    rw [← h.strings]
    exact (search_firstFree (candidate_injective "S") s.strings).congr h.taken_iff
  have hfree : s.firstFree literalName s.strings = t.firstFree literalName t.strings :=
    hsearch.unique (search_firstFree (candidate_injective "S") t.strings)
  have hmem : ∀ (u : Supply) (name : String), name ∈ u.string.2.names ↔
      name = literalName (u.firstFree literalName u.strings) ∨ name ∈ u.names :=
    fun _ _ => List.mem_cons
  refine ⟨congrArg (fun j => Label.ofName (literalName j)) hfree, congrArg (· + 1) hfree, ?_,
    h.left, h.right⟩
  intro k
  rw [hmem, hmem, hfree, h.taken_iff]

variable {a a' b b' : LowerState} {l m : Label} {x y : Temp}

theorem label (h : a.supply.InStep t) (hl : Lower.label a = .ok (l, a')) :
    a'.supply.InStep t := by
  cases hl
  refine ⟨h.strings, fun k => ?_, h.left, h.right⟩
  rw [← h.taken_iff k]
  exact List.mem_cons.trans (or_iff_right (literalName_ne_jumpName _ _))

theorem temp (h : a.supply.InStep t) (hx : Lower.temp a = .ok (x, a')) :
    a'.supply.InStep t := by
  cases hx
  exact ⟨h.strings, h.taken_iff, Nat.le_succ_of_le h.left, h.right⟩

/-- Jump labels on both sides. -/
theorem labels (h : a.supply.InStep b.supply) (hl : Lower.label a = .ok (l, a'))
    (hm : Lower.label b = .ok (m, b')) : a'.supply.InStep b'.supply :=
  ((h.label hl).symm.label hm).symm

/-- Temps on both sides. -/
theorem temps (h : a.supply.InStep b.supply) (hx : Lower.temp a = .ok (x, a'))
    (hy : Lower.temp b = .ok (y, b')) : a'.supply.InStep b'.supply :=
  ((h.temp hx).symm.temp hy).symm

end InStep

end Supply

namespace Exec

variable {α : Type} {d : Nat} {x y z : Exec α}

theorem always_equivalence : Equivalence fun _ _ : Activation => True :=
  ⟨fun _ => trivial, fun _ => trivial, fun _ _ => trivial⟩

namespace Follows

theorem symm (h : Follows d x y) : Follows d y x :=
  Sim.symm always_equivalence h

theorem trans (h : Follows d x y) (h' : Follows d y z) : Follows d x z :=
  Sim.trans always_equivalence h h'

/-- What does as another computation does, does as it does itself. -/
theorem left (h : Follows d x y) : Follows d x x :=
  h.trans h.symm

theorem eseq_congr {setup : Setup} {st st' : Stmt} {e e' : Expr}
    (hst : Performs setup d (full setup (.ofList st.flatten) 0) st')
    (he : Computes setup d (eval setup (fullRun setup) e) e') :
    Computes setup d (eval setup (fullRun setup) (.eseq st e)) (.eseq st' e') :=
  (hst.left.eseq he.left).symm.trans (hst.eseq he)

end Follows

variable {setup : Setup} (run : Block → Exec Unit)

theorem Neutral.name (l : Label) : Neutral (eval setup run (.name l)) := by
  unfold eval
  cases setup.program.address? l with
  | some a => exact .pure a
  | none => exact .fault _

theorem Neutral.slotAddress (layout : Layout) (f : FrameRecord) (frame : Nat) (offset : Word) :
    Neutral (eval setup run (slotAddress layout f frame offset)) := by
  rw [eval_slotAddress]
  exact .slotPlace layout f frame offset

/-- The rounds of a loop, as its code makes them. -/
theorem proper_round (setup : Setup) (e : Expr) (b : Block) :
    Proper (Meaning.round (eval setup (fullRun setup) e) (full setup b 0)) :=
  (Congruence.tends.round (tends_eval setup e) (tends_full setup b 0)).lost

/-- The rounds of a counting loop, as its code makes them. -/
theorem proper_counting (setup : Setup) (tested h written read x : Expr) (b : Block) :
    Proper (Meaning.round
      (Meaning.test (eval setup (fullRun setup) tested) (eval setup (fullRun setup) h))
      (full setup b 0 >>= fun _ => Meaning.advance (eval setup (fullRun setup) written)
        (eval setup (fullRun setup) read) (eval setup (fullRun setup) x))) :=
  (Congruence.tends.round (Congruence.tends.test (tends_eval setup tested) (tends_eval setup h))
    (Congruence.tends.bind (tends_full setup b 0) fun _ => Congruence.tends.advance
      (tends_eval setup written) (tends_eval setup read) (tends_eval setup x))).lost

end Exec

section

variable {types : TypeTable} {layout : Layout} {f : FrameRecord} {n : Node}
  {s t s' t' : LowerState} {o o' : Lowered}

theorem Source.Node.isEffect_of_isPlace (h : n.isPlace = true) : n.isEffect types = false := by
  cases n <;> first | rfl | cases h

theorem Source.Node.isPlace_binary {op : Source.Op} (h : op ≠ .index) (l r : Node) :
    (binary op l r).isPlace = false := by
  cases op with
  | index => exact absurd rfl h
  | _ => rfl

/-- The value of a place is found through its address. -/
theorem Lowers.value_of_isPlace (hplace : n.isPlace = true)
    (h : Lowers types layout (.value f n) s o s') :
    ∃ a, Lowers types layout (.address f n) s (.expr a) s' ∧
      o = .expr (if (n.ty types).isAggregate then a else .mem a) := by
  cases h with
  | aggregate _ hagg ha => exact ⟨_, ha, by rw [if_pos hagg]⟩
  | load _ hagg ha => exact ⟨_, ha, by rw [hagg]; rfl⟩
  | operation hindex _ _ _ =>
    rw [Node.isPlace_binary hindex] at hplace
    cases hplace
  | zero heffect _ =>
    rw [Node.isEffect_of_isPlace hplace] at heffect
    cases heffect
  | _ => cases hplace

/-- The value of a node that has only an effect is zero. -/
theorem Lowers.value_of_isEffect (heffect : n.isEffect types = true)
    (h : Lowers types layout (.value f n) s o s') :
    ∃ st, Lowers types layout (.effect f n) s (.stmt st) s' ∧
      o = .expr (.eseq st (.const 0)) := by
  cases h with
  | zero _ hst => exact ⟨_, hst, rfl⟩
  | aggregate hplace _ _ | load hplace _ _ =>
    rw [Node.isEffect_of_isPlace hplace] at heffect
    cases heffect
  | last hvoid _ _ =>
    rw [Node.isEffect, List.getLast?_concat] at heffect
    cases hvoid.symm.trans heffect
  | chosen hvalue _ _ _ _ _ _ _ =>
    rw [heffect] at hvalue
    cases hvalue
  | _ => cases heffect

/-- The value of a sequence of nothing. -/
theorem Lowers.value_nil (h : Lowers types layout (.value f (.sequence [])) s o s') :
    o = .expr (.const 0) ∧ s' = s := by
  generalize hitems : ([] : List Node) = items at h
  cases h with
  | nothing => exact ⟨rfl, rfl⟩
  | last => exact absurd hitems.symm (by simp)
  | zero heffect =>
    subst hitems
    cases heffect
  | aggregate h | load h => cases h

/-- The value of a sequence that ends in a value. -/
theorem Lowers.value_concat {before : List Node} {last : Node}
    (hvoid : (last.ty types).isVoid = false)
    (h : Lowers types layout (.value f (.sequence (before ++ [last]))) s o s') :
    ∃ ss s₁ e, Lowers types layout (.effects f before) s (.stmts ss) s₁ ∧
      Lowers types layout (.value f last) s₁ (.expr e) s' ∧
      o = .expr (.eseq (.join ss) e) := by
  generalize hitems : before ++ [last] = items at h
  cases h with
  | nothing => exact absurd hitems (by simp)
  | last _ hss he =>
    obtain ⟨rfl, hlast⟩ := List.append_inj' hitems rfl
    cases hlast
    exact ⟨_, _, _, hss, he, rfl⟩
  | zero heffect =>
    rw [← hitems, Node.isEffect, List.getLast?_concat] at heffect
    cases hvoid.symm.trans heffect
  | aggregate h | load h => cases h

/-- The effect of a node that is computed for its value. -/
theorem Lowers.effect_of_isDropped (hdropped : n.isDropped = true)
    (h : Lowers types layout (.effect f n) s o s') :
    ∃ e, Lowers types layout (.value f n) s (.expr e) s' ∧ o = .stmt (.exp e) := by
  cases h with
  | dropped _ he => exact ⟨_, he, rfl⟩
  | _ => cases hdropped

/-- The address of a symbol draws nothing. -/
theorem Lowers.address_ident {x : Symbol} (h : Lowers types layout (.address f (.ident x)) s o s')
    (h' : Lowers types layout (.address f (.ident x)) t o' t') : o = o' ∧ s' = s ∧ t' = t := by
  cases h <;> cases h' <;> simp_all

end

section

variable (setup : Setup) (d : Nat)

open Exec (Follows eval evalAll full fullRun)

/-- Two pieces of lowered code that do alike at a depth of calls. -/
def Lowered.Equivalent : Lowered → Lowered → Prop
  | .expr e, .expr e' =>
    Follows d (eval setup (fullRun setup) e) (eval setup (fullRun setup) e')
  | .stmt st, .stmt st' =>
    Follows d (full setup (.ofList st.flatten) 0) (full setup (.ofList st'.flatten) 0)
  | .exprs es, .exprs es' =>
    Follows d (evalAll setup (fullRun setup) es) (evalAll setup (fullRun setup) es')
  | .stmts ss, .stmts ss' =>
    Follows d (full setup (.ofList (Stmt.flattenAll ss)) 0)
      (full setup (.ofList (Stmt.flattenAll ss')) 0)
  | .nothing, .nothing => True
  | _, _ => False

variable {types : TypeTable} {layout : Layout}

/-- The code of a tree that is lowered twice does alike. -/
theorem Lowers.twice {r : Reading} {s s' t t' : LowerState} {o o' : Lowered}
    (h : Lowers types layout r s o s') (h' : Lowers types layout r t o' t')
    (hst : s.supply.InStep t.supply) :
    o.Equivalent setup d o' ∧ s'.supply.InStep t'.supply := by
  induction h generalizing t t' o' with
  | number =>
    cases h' with
    | number => exact ⟨.pure _, hst⟩
    -- the other rules that fit any node ask for a place or for an effect
    | aggregate h | load h | zero h => cases h
  | logical =>
    cases h' with
    | logical => exact ⟨.pure _, hst⟩
    | aggregate h | load h | zero h => cases h
  | string hstring =>
    cases h' with
    | string hstring' =>
      obtain ⟨_, _, rfl, rfl⟩ := Lower.string_eq_ok hstring
      obtain ⟨_, _, rfl, rfl⟩ := Lower.string_eq_ok hstring'
      rw [hst.string.1]
      exact ⟨.refl (.name _ _), hst.string.2⟩
    | aggregate h | load h | zero h => cases h
  | aggregate hplace hagg _ ih =>
    obtain ⟨a', ha', rfl⟩ := h'.value_of_isPlace hplace
    rw [if_pos hagg]
    exact ih ha' hst
  | load hplace hagg _ ih =>
    obtain ⟨a', ha', rfl⟩ := h'.value_of_isPlace hplace
    obtain ⟨ha, hst'⟩ := ih ha' hst
    rw [hagg]
    exact ⟨Follows.bind ha fun a => .plain (.load a), hst'⟩
  | operation hindex hassign _ _ ihl ihr =>
    cases h' with
    | operation _ _ hl' hr' =>
      obtain ⟨hl, hst₁⟩ := ihl hl' hst
      obtain ⟨hr, hst'⟩ := ihr hr' hst₁
      exact ⟨Follows.bind hl fun x => Follows.bind hr fun y => .plain (.binary _ x y), hst'⟩
    | assigned => exact absurd rfl hassign
    | aggregate hplace | load hplace =>
      rw [Node.isPlace_binary hindex] at hplace
      cases hplace
    | zero heffect => cases heffect
  | assigned _ haddr ht ha hv iha ihv =>
    cases h' with
    | assigned _ haddr' ht' ha' hv' =>
      obtain ⟨hx, hst₁⟩ := iha ha' ((hst.temps haddr haddr').temps ht ht')
      obtain ⟨hy, hst'⟩ := ihv hv' hst₁
      -- both codes are compared with the assignment that the parts of the first one make up
      have hleft := Lowers.assigned_follows haddr ht ha hv hst.left hx.left hy.left
      exact ⟨hleft.symm.trans (Lowers.assigned_follows haddr' ht' ha' hv' hst.right hx hy), hst'⟩
    | operation _ hassign => exact absurd rfl hassign
    | aggregate h | load h | zero h => cases h
  | plus _ ih =>
    cases h' with
    | plus hx' => exact ih hx' hst
    | aggregate h | load h | zero h => cases h
  | neg _ ih =>
    cases h' with
    | neg hx' =>
      obtain ⟨hx, hst'⟩ := ih hx' hst
      exact ⟨Follows.bind hx fun x => .plain (.unary .neg x), hst'⟩
    | aggregate h | load h | zero h => cases h
  | not _ ih =>
    cases h' with
    | not hx' =>
      obtain ⟨hx, hst'⟩ := ih hx' hst
      exact ⟨Follows.bind hx fun x => .plain (.unary .not x), hst'⟩
    | aggregate h | load h | zero h => cases h
  | addr _ ih =>
    cases h' with
    | addr ha' => exact ih ha' hst
    | aggregate h | load h | zero h => cases h
  | call hg _ ih =>
    cases h' with
    | call hg' hargs' =>
      obtain rfl := Option.some.inj (hg.symm.trans hg')
      obtain ⟨hargs, hst'⟩ := ih hargs' hst
      refine ⟨?_, hst'⟩
      change Follows d (eval setup _ (.call _ _)) (eval setup _ (.call _ _))
      simp only [eval, evalAll, pure_bind, bind_assoc]
      exact Follows.bind hargs fun args => .refl (.call setup _ _)
    | aggregate h | load h | zero h => cases h
  | nothing =>
    obtain ⟨rfl, rfl⟩ := h'.value_nil
    exact ⟨.pure _, hst⟩
  | last hvoid _ _ ihb ihe =>
    obtain ⟨ss', t₁, e', hss', he', rfl⟩ := h'.value_concat hvoid
    obtain ⟨hss, hst₁⟩ := ihb hss' hst
    obtain ⟨he, hst'⟩ := ihe he' hst₁
    refine ⟨.eseq_congr ?_ he, hst'⟩
    rw [Exec.Performs, Stmt.flatten_join, Stmt.flatten_join]
    exact hss
  | zero heffect _ ih =>
    obtain ⟨st', hs', rfl⟩ := h'.value_of_isEffect heffect
    obtain ⟨hs, hst'⟩ := ih hs' hst
    exact ⟨.eseq_congr hs (.pure 0), hst'⟩
  | chosen hvalue ht hthen helse hend hc ha hb ihc iha ihb =>
    cases h' with
    | chosen _ ht' hthen' helse' hend' hc' ha' hb' =>
      have hst₁ := ((hst.temps ht ht').labels hthen hthen').labels helse helse'
      obtain ⟨he, hst₂⟩ := ihc hc' (hst₁.labels hend hend')
      obtain ⟨hx, hst₃⟩ := iha ha' hst₂
      obtain ⟨hy, hst'⟩ := ihb hb' hst₃
      have hleft := Lowers.chosen_follows hvalue ht hthen helse hend hc ha hb hst.left
        he.left hx.left hy.left
      exact ⟨hleft.symm.trans (Lowers.chosen_follows hvalue ht' hthen' helse' hend' hc' ha' hb'
        hst.right he hx hy), hst'⟩
    | zero heffect =>
      rw [hvalue] at heffect
      cases heffect
    | aggregate h | load h => cases h
  | withinValue _ _ ihd ihb =>
    cases h' with
    | withinValue hd' hb' => exact ihb hb' (ihd hd' hst).2
    | aggregate h | load h | zero h => cases h
  | dropped hdropped _ ih =>
    obtain ⟨e', he', rfl⟩ := h'.effect_of_isDropped hdropped
    obtain ⟨he, hst'⟩ := ih he' hst
    refine ⟨?_, hst'⟩
    change Follows d (full setup (.ofList [.exp _]) 0) (full setup (.ofList [.exp _]) 0)
    rw [Exec.full_ofList_exp, Exec.full_ofList_exp]
    exact Follows.bind he fun _ => .pure ()
  | assign _ _ _ iha ihv =>
    cases h' with
    | assign _ ha' hv' =>
      obtain ⟨hx, hst₁⟩ := iha ha' hst
      obtain ⟨hy, hst'⟩ := ihv hv' hst₁
      refine ⟨?_, hst'⟩
      change Follows d (full setup (.ofList [.move (.mem _) _]) 0)
        (full setup (.ofList [.move (.mem _) _]) 0)
      rw [Exec.full_ofList_move, Exec.full_ofList_move]
      exact Follows.bind hx fun a => Follows.bind hy fun v => .plain (.store a v)
    | dropped h => cases h
  | ifThen hthen helse hc ht ihc iht =>
    cases h' with
    | ifThen hthen' helse' hc' ht' =>
      obtain ⟨he, hst₁⟩ := ihc hc' ((hst.labels hthen hthen').labels helse helse')
      obtain ⟨hx, hst'⟩ := iht ht' hst₁
      have hleft := Lowers.ifThen_follows hthen helse hc ht hst.left he.left hx.left
      exact ⟨hleft.symm.trans (Lowers.ifThen_follows hthen' helse' hc' ht' hst.right he hx), hst'⟩
    | dropped h => cases h
  | ifElse hthen helse hc hend ht he ihc iht ihe =>
    cases h' with
    | ifElse hthen' helse' hc' hend' ht' he' =>
      obtain ⟨hv, hst₁⟩ := ihc hc' ((hst.labels hthen hthen').labels helse helse')
      obtain ⟨hx, hst₂⟩ := iht ht' (hst₁.labels hend hend')
      obtain ⟨hy, hst'⟩ := ihe he' hst₂
      have hleft := Lowers.ifElse_follows hthen helse hc hend ht he hst.left hv.left hx.left
        hy.left
      exact ⟨hleft.symm.trans (Lowers.ifElse_follows hthen' helse' hc' hend' ht' he' hst.right
        hv hx hy), hst'⟩
    | dropped h => cases h
  | whileLoop hstart hbody hend hc hb ihc ihb =>
    cases h' with
    | whileLoop hstart' hbody' hend' hc' hb' =>
      have hst₁ := (hst.labels hstart hstart').labels hbody hbody'
      obtain ⟨he, hst₂⟩ := ihc hc' (hst₁.labels hend hend')
      obtain ⟨hx, hst'⟩ := ihb hb' hst₂
      have hproper := Exec.proper_round setup
      have hleft := Lowers.whileLoop_follows hstart hbody hend hc hb hst.left (hproper _ _)
        he.left hx.left
      exact ⟨hleft.symm.trans (Lowers.whileLoop_follows hstart' hbody' hend' hc' hb' hst.right
        (hproper _ _) he hx), hst'⟩
    | dropped h => cases h
  | forLoop hstart hbody hend hfirst hl ht hh hb hw hr hx ihfirst ihl iht ihh ihb ihw ihr ihx =>
    cases h' with
    | forLoop hstart' hbody' hend' hfirst' hl' ht' hh' hb' hw' hr' hx' =>
      have hst₁ := (hst.labels hstart hstart').labels hbody hbody'
      obtain ⟨first, hst₂⟩ := ihfirst hfirst' (hst₁.labels hend hend')
      obtain ⟨low, hst₃⟩ := ihl hl' hst₂
      obtain ⟨tested, hst₄⟩ := iht ht' hst₃
      obtain ⟨high, hst₅⟩ := ihh hh' hst₄
      obtain ⟨body, hst₆⟩ := ihb hb' hst₅
      obtain ⟨written, hst₇⟩ := ihw hw' hst₆
      obtain ⟨read, hst₈⟩ := ihr hr' hst₇
      obtain ⟨step, hst'⟩ := ihx hx' hst₈
      have hproper := Exec.proper_counting setup
      have hleft := Lowers.forLoop_follows hstart hbody hend hfirst hl ht hh hb hw hr hx
        hst.left (hproper _ _ _ _ _ _) first.left low.left tested.left high.left body.left
        written.left read.left step.left
      have hright := Lowers.forLoop_follows hstart' hbody' hend' hfirst' hl' ht' hh' hb' hw'
        hr' hx' hst.right (hproper _ _ _ _ _ _) first low tested high body written read step
      exact ⟨hleft.symm.trans hright, hst'⟩
    | dropped h => cases h
  | sequence _ ih =>
    cases h' with
    | sequence hss' => exact ih hss' hst
    | dropped h => cases h
  | withinEffect _ _ ihd ihb =>
    cases h' with
    | withinEffect hd' hb' => exact ihb hb' (ihd hd' hst).2
    | dropped h => cases h
  | global hx =>
    obtain ⟨rfl, -, rfl⟩ := Lowers.address_ident (s := t) (.global hx) h'
    exact ⟨.refl (.name _ _), hst⟩
  | localSlot hx hle =>
    obtain ⟨rfl, -, rfl⟩ := Lowers.address_ident (s := t) (.localSlot hx hle) h'
    exact ⟨.refl (.slotAddress _ _ _ _ _), hst⟩
  | paramSlot hx hle =>
    obtain ⟨rfl, -, rfl⟩ := Lowers.address_ident (s := t) (.paramSlot hx hle) h'
    exact ⟨.refl (.slotAddress _ _ _ _ _), hst⟩
  | reference hx hle =>
    obtain ⟨rfl, -, rfl⟩ := Lowers.address_ident (s := t) (.reference hx hle) h'
    exact ⟨.refl (.bind (.slotAddress _ _ _ _ _) fun slot => .of_plain (.load slot)), hst⟩
  | member _ ih =>
    cases h' with
    | member ha' =>
      obtain ⟨ha, hst'⟩ := ih ha' hst
      refine ⟨?_, hst'⟩
      change Follows d (eval setup _ _) (eval setup _ _)
      rw [Exec.eval_atOffset, Exec.eval_atOffset]
      exact Follows.bind ha fun a => .pure _
  | index _ _ ihi iha =>
    cases h' with
    | index hi' ha' =>
      obtain ⟨hi, hst₁⟩ := ihi hi' hst
      obtain ⟨ha, hst'⟩ := iha ha' hst₁
      refine ⟨Follows.bind ha fun base => ?_, hst'⟩
      simp only [eval, pure_bind, bind_assoc]
      exact Follows.bind hi fun i => .pure _
  | deref _ ih =>
    cases h' with
    | deref hx' => exact ih hx' hst
  | withinAddress _ _ ihd ihb =>
    cases h' with
    | withinAddress hd' hb' => exact ihb hb' (ihd hd' hst).2
  | noArgument =>
    cases h' with
    | noArgument => exact ⟨.pure _, hst⟩
  | byAddress hagg _ _ ihe ihs =>
    cases h' with
    | byAddress _ he' hes' =>
      obtain ⟨he, hst₁⟩ := ihe he' hst
      obtain ⟨hes, hst'⟩ := ihs hes' hst₁
      exact ⟨Follows.bind he fun v => Follows.bind hes fun vs => .pure _, hst'⟩
    | byValue hagg' _ _ => cases hagg.symm.trans hagg'
  | byValue hagg _ _ ihe ihs =>
    cases h' with
    | byValue _ he' hes' =>
      obtain ⟨he, hst₁⟩ := ihe he' hst
      obtain ⟨hes, hst'⟩ := ihs hes' hst₁
      exact ⟨Follows.bind he fun v => Follows.bind hes fun vs => .pure _, hst'⟩
    | byAddress hagg' _ _ => cases hagg.symm.trans hagg'
  | noEffect =>
    cases h' with
    | noEffect =>
      refine ⟨?_, hst⟩
      change Follows d (full setup (.ofList []) 0) (full setup (.ofList []) 0)
      rw [Exec.full_ofList_nil]
      exact .pure ()
  | effects hn hns ihn ihns =>
    cases h' with
    | effects hn' hns' =>
      obtain ⟨he, hst₁⟩ := ihn hn' hst
      obtain ⟨hes, hst'⟩ := ihns hns' hst₁
      refine ⟨?_, hst'⟩
      change Follows d (full setup (.ofList (Stmt.flattenAll (_ :: _))) 0)
        (full setup (.ofList (Stmt.flattenAll (_ :: _))) 0)
      rw [hn.full_effects hns hst.left, hn'.full_effects hns' hst.right]
      exact Follows.bind he fun _ => hes
  | noDefinition =>
    cases h' with
    | noDefinition => exact ⟨trivial, hst⟩
  | static hx _ ih =>
    cases h' with
    | static hx' hns' => exact ih hns' hst
    | stacked hx' hslot _ => exact absurd (Option.some.inj (hx'.symm.trans hx)) (hslot _ _)
    | skipped h => cases h
  | stacked hx hslot _ ih =>
    cases h' with
    | stacked _ _ hns' => exact ih hns' hst
    | static hx' _ => exact absurd (Option.some.inj (hx.symm.trans hx')) (hslot _ _)
    | skipped h => cases h
  | procedure hg hvoid _ _ ihb ih =>
    cases h' with
    | procedure hg' _ hb' hns' =>
      cases hg.symm.trans hg'
      exact ih hns' (ihb hb' hst).2
    | function _ hvoid' _ _ => cases hvoid.symm.trans hvoid'
    | skipped h => cases h
  | function hg hvoid _ _ ihb ih =>
    cases h' with
    | function hg' _ hb' hns' =>
      cases hg.symm.trans hg'
      exact ih hns' (ihb hb' hst).2
    | procedure _ hvoid' _ _ => cases hvoid.symm.trans hvoid'
    | skipped h => cases h
  | skipped hskip _ ih =>
    cases h' with
    | skipped _ hns' => exact ih hns' hst
    | static | stacked | procedure | function => cases hskip

end

end TreeCode
