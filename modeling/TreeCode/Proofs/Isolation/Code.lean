/-
# Code that stores to variables only

In a program without indices and pointers, lowered code names the address of every place
that it stores to, and of every aggregate that it passes to a function: these are the
addresses of nodes of the function that the code belongs to. `Policy.direct` is the policy
that asks for this, and `Lowers.obeys` reads it off a derivation.
-/

import TreeCode.Proofs.IR.Obedience
import TreeCode.Proofs.Isolation.Places

namespace TreeCode

open IR (Expr Obeys Policy Stmt)
open Source (Node Routine Symbol)

/-- A frame is that of a function which is declared inside some others and has a body. -/
structure Frame.BelongsTo (p : Source.Program) (layout : Layout) (frame : Frame)
    (outer : List Routine) (r : Routine) (g : FrameRecord) (body : Node) : Prop where
  assigned : Assigned p layout outer r g
  defined : r.body = some body
  shape : frame = g.frame

/-- An expression is the address of a node of the function with a frame. -/
def Locates (p : Source.Program) (layout : Layout) (frame : Frame) (n : Node) (e : Expr) : Prop :=
  ∃ outer r g body, frame.BelongsTo p layout outer r g body ∧ n.own ⊆ body.own ∧
    n.address? p.types layout g = some e

/-- A move into memory that a node of a function is lowered to, those of its parts left out:
the move of an assignment, and the two that set the counter of a loop. -/
inductive StoreOf (types : TypeTable) (layout : Layout) (g : FrameRecord) : Node → Stmt → Prop
  | assign {target source : Node} {s s' : LowerState} {move : Stmt} :
      Lowers types layout (.effect g (.binary .assign target source)) s (.stmt move) s' →
      StoreOf types layout g (.binary .assign target source) move
  | assigned {target source : Node} {s s' : LowerState} {save copy move : Stmt} {e : Expr} :
      Lowers types layout (.value g (.binary .assign target source)) s
        (.expr (.eseq (.seq [save, copy, move]) e)) s' →
      StoreOf types layout g (.binary .assign target source) move
  | counter {counter lo hi step body : Node} {s s' : LowerState}
      {first start test enter code next back leave move : Stmt} :
      Lowers types layout (.effect g (.forLoop counter lo hi step body)) s
        (.stmt (.seq [first, start, test, enter, code, next, back, leave])) s' →
      move = first ∨ move = next → StoreOf types layout g (.forLoop counter lo hi step body) move

/-- Code of the function with a frame stores words to what the function assigns to, and
passes on the addresses of aggregates of the right types. -/
def IR.Policy.direct (p : Source.Program) (layout : Layout) (frame : Frame) : Policy where
  address e := (∃ c, e = .const c) ∨ ∃ n, Locates p layout frame n e
  store s a := ∃ e, a = some e ∧ ∃ outer r g body n target move,
    frame.BelongsTo p layout outer r g body ∧ n ∈ body.own ∧ StoreOf p.types layout g n move ∧
      move.Becomes s ∧ n.target? = some target ∧ (target.ty p.types).isWord = true ∧
      target.own ⊆ body.own ∧ target.address? p.types layout g = some e
  site l ps := ∃ hops qs, ps = some (.const hops) :: qs ∧ Visits p layout frame l hops ∧
    ∀ around q h, Assigned p layout around q h → h.label = l → ∀ (k : Nat) (x : Symbol) a,
      q.params[k]? = some x → x.ty.isAggregate = true → qs[k]? = some a →
      ∃ n e, a = some e ∧ Locates p layout frame n e ∧ n.ty p.types = x.ty

theorem IR.Policy.isAddress_of_direct {p : Source.Program} {layout : Layout} {frame : Frame}
    {e : Expr} (h : (Policy.direct p layout frame).address e) : e.isAddress = true := by
  rcases h with ⟨c, rfl⟩ | ⟨n, outer, r, g, body, -, -, he⟩
  · rfl
  · exact Node.isAddress_of_address? he

namespace Frame.BelongsTo

variable {p : Source.Program} {layout : Layout} {supply laid : Supply} {frame : Frame}
  {outer outer' : List Routine} {r r' : Routine} {g g' : FrameRecord} {body body' : Node}

/-- A frame belongs to one function only. -/
theorem unique (hbuild : Layout.build supply p = .ok (layout, laid)) (hscoped : p.WellScoped)
    (h : frame.BelongsTo p layout outer r g body)
    (h' : frame.BelongsTo p layout outer' r' g' body') :
    outer = outer' ∧ r = r' ∧ g = g' ∧ body = body' := by
  obtain ⟨rfl, rfl, rfl⟩ := h.assigned.unique hbuild hscoped h'.assigned
    (congrArg Frame.label (h.shape.symm.trans h'.shape))
  exact ⟨rfl, rfl, rfl, Option.some.inj (h.defined.symm.trans h'.defined)⟩

end Frame.BelongsTo

section Obedience

variable {P : Policy}

theorem IR.Obeys.join {ss : List Stmt} (h : Obeys P (.stmts ss)) :
    Obeys P (.stmt (Stmt.join ss)) := by
  refine Stmt.join_induction (P := fun s => Obeys P (.stmt s)) (Q := fun ss => Obeys P (.stmts ss))
    (fun s ss h => ?_) (fun _ _ => .cons) (fun _ => .seq) h
  cases h with
  | cons hs hss => exact ⟨hs, hss⟩

theorem IR.Obeys.of_isAddress : ∀ {e : Expr}, e.isAddress = true → Obeys P (.expr e)
  | .const _, _ => .const
  | .name _, _ => .name
  | .temp _, _ => .temp
  | .mem a, h => .mem (Obeys.of_isAddress (e := a) h)
  | .binop _ x y, h => by
    rw [Expr.isAddress, Bool.and_eq_true, Bool.and_eq_true] at h
    exact .binop (Obeys.of_isAddress h.2.1) (Obeys.of_isAddress h.2.2)
  | .unop _ _, h | .call _ _, h | .eseq _ _, h => nomatch h

theorem IR.Obeys.atOffset {e : Expr} (h : Obeys P (.expr e)) (offset : Word) :
    Obeys P (.expr (atOffset e offset)) := by
  unfold TreeCode.atOffset
  split
  · exact h
  · exact .binop h .const

end Obedience

/-- What is lowered is read in the function of a frame. -/
def Reading.IsIn (g : FrameRecord) : Reading → Prop
  | .value f _ => f = g
  | .effect f _ => f = g
  | .address f _ => f = g
  | .arguments f _ => f = g
  | .effects f _ => f = g
  | .definitions _ => False

/-- What lowering yields follows the policy of the function with a frame. Of arguments, the
addresses of aggregates are known. -/
def Lowered.Follows (p : Source.Program) (layout : Layout) (frame : Frame) :
    Reading → Lowered → Prop
  | _, .expr e => Obeys (.direct p layout frame) (.expr e)
  | _, .stmt s => Obeys (.direct p layout frame) (.stmt s)
  | _, .stmts ss => Obeys (.direct p layout frame) (.stmts ss)
  | .arguments _ ns, .exprs es => ∃ ps, Obeys (.direct p layout frame) (.args es ps) ∧
      List.Forall₂ (fun n a => (n.ty p.types).isAggregate = true →
        ∃ e, a = some e ∧ Locates p layout frame n e) ns ps
  | _, _ => True

section Lowering

variable {p : Source.Program} {layout : Layout} {supply laid : Supply} {frame : Frame}
  {outer : List Routine} {r : Routine} {g : FrameRecord} {body : Node}

variable (hbuild : Layout.build supply p = .ok (layout, laid)) (hscoped : p.WellScoped)
  (hframe : frame.BelongsTo p layout outer r g body)
include hbuild hscoped hframe

/-- A call passes on addresses as the policy asks. -/
theorem Frame.BelongsTo.site {callee : Symbol} {args : List Node} {h : FrameRecord}
    {ps : List (Option Expr)} (hcall : .call callee args ∈ body.own)
    (htyped : (Node.call callee args).WellTyped p.types p.declares)
    (hh : layout.frameOf? callee = some h)
    (hps : List.Forall₂ (fun n a => (n.ty p.types).isAggregate = true →
      ∃ e, a = some e ∧ Locates p layout frame n e) args ps) :
    (Policy.direct p layout frame).site h.label
      (some (.const (Int64.ofInt (hopCount g h))) :: ps) := by
  obtain ⟨around, q, hq, rfl, haround⟩ :=
    hscoped.callee_visible hframe.assigned.declared hframe.defined hcall
  refine ⟨_, ps, rfl, ⟨outer, r, g, around, q, h, hframe.assigned, hframe.shape, ⟨hq, hh⟩, rfl,
    haround, rfl⟩, ?_⟩
  intro around' q' h' hq' hlabel k x a hx haggregate ha
  obtain ⟨-, rfl, -⟩ := hq'.unique hbuild hscoped ⟨hq, hh⟩ hlabel
  obtain ⟨hlength, hzip⟩ := List.forall₂_iff_zip.1 hps
  -- there are as many arguments as there are addresses known of them
  have hk : k < args.length := hlength ▸ (List.getElem?_eq_some_iff.1 ha).1
  have hn : args[k]? = some args[k] := List.getElem?_eq_getElem hk
  have hty : args[k].ty p.types = x.ty := by
    apply htyped.2 (x, args[k])
    apply Node.mem_passed hq
    exact List.mem_of_getElem? (List.getElem?_zip_eq_some.2 ⟨hx, hn⟩)
  obtain ⟨e, rfl, he⟩ := hzip (List.mem_of_getElem? (List.getElem?_zip_eq_some.2 ⟨hn, ha⟩))
    (hty ▸ haggregate)
  exact ⟨args[k], e, rfl, he, hty⟩

/-- In a function of a program without indices and pointers whose types are right, lowered
code follows the policy of the function. -/
theorem Lowers.obeys (hdirect : ∀ n ∈ body.own, n.isIndirect = false)
    (htyped : ∀ n ∈ body.own, n.WellTyped p.types p.declares) {rd : Reading} {s s' : LowerState}
    {o : Lowered} (h : Lowers p.types layout rd s o s') (hin : rd.IsIn g)
    (hown : rd.own ⊆ body.own) :
    o.Follows p layout frame rd := by
  have child {n m : Node} (hn : n.own ⊆ body.own) (hm : m ∈ n.children := by simp) :
      m.own ⊆ body.own := List.Subset.trans (Node.own_subset hm) hn
  have parts {n : Node} (hn : n.own ⊆ body.own) : Node.ownAll n.children ⊆ body.own :=
    fun k hk => hn (Node.own_eq n ▸ List.mem_cons_of_mem _ hk)
  -- the address of a node of the function is one that the policy knows
  have locates {n : Node} {e : Expr} {s s' : LowerState} (hn : n.own ⊆ body.own)
      (he : Lowers p.types layout (.address g n) s (.expr e) s') : Locates p layout frame n e :=
    ⟨outer, r, g, body, hframe, hn, he.address?_eq fun k hk => hdirect k (hn hk)⟩
  have stores {n target : Node} {move : Stmt} {e : Expr} {s s' : LowerState} (hn : n ∈ body.own)
      (hmove : StoreOf p.types layout g n move) (htarget : n.target? = some target)
      (ht : target.own ⊆ body.own)
      (he : Lowers p.types layout (.address g target) s (.expr e) s') :
      (Policy.direct p layout frame).address e ∧ (Policy.direct p layout frame).Allows move e :=
    ⟨.inr ⟨target, locates ht he⟩, fun _ hcode => ⟨e, rfl, outer, r, g, body, n, target, move,
      hframe, hn, hmove, hcode, htarget, (htyped n hn).1 target htarget, ht,
      he.address?_eq fun k hk => hdirect k (ht hk)⟩⟩
  induction h with
  | number | logical | nothing => exact .const
  | string h =>
    obtain ⟨size, init, rfl, -⟩ := Lower.string_eq_ok h
    exact .name
  | aggregate _ _ _ ih => exact ih hin hown
  | load _ _ _ ih => exact .mem (ih hin hown)
  | operation _ _ _ _ ihl ihr => exact .binop (ihl hin (child hown)) (ihr hin (child hown))
  | assigned hscalar haddr ht ha hv _ ihv =>
    cases hin
    have hindex := Lower.temp_eq_ok haddr
    have hindex' := Lower.temp_eq_ok ht
    have hle := ha.grows.le
    obtain ⟨haddress, hstore⟩ := stores (hown (Node.mem_own_self _))
      (.assigned (.assigned hscalar haddr ht ha hv)) rfl (child hown) ha
    refine .eseq (.remember ?_ (hv.not_assigned (by omega)) haddress hstore
      (ihv rfl (child hown))) .temp
    rintro rfl
    omega
  | plus _ ih | addr _ ih | withinValue _ _ _ ih | withinEffect _ _ _ ih | withinAddress _ _ _ ih =>
    exact ih hin (child hown)
  | neg _ ih | not _ ih => exact .unop (ih hin (child hown))
  | call hg _ ih =>
    cases hin
    have hcall := hown (Node.mem_own_self _)
    obtain ⟨ps, hps, hknown⟩ := ih rfl (parts hown)
    refine .call (.arg .const ?_ hps)
      (hframe.site hbuild hscoped hcall (htyped _ hcall) hg hknown)
    rintro _ ⟨⟩
    exact ⟨rfl, .inl ⟨_, rfl⟩⟩
  | last _ _ _ ihs ihe =>
    have hall := parts hown
    rw [Node.children, Node.ownAll_append] at hall
    exact .eseq (Obeys.join (ihs hin fun k hk => hall (List.mem_append_left _ hk)))
      (ihe hin (child hown))
  | zero _ _ ih => exact .eseq (ih hin hown) .const
  | chosen _ _ _ _ _ _ _ _ ihc iha ihb =>
    have hc := ihc hin (child hown)
    have ha := iha hin (child hown)
    have hb := ihb hin (child hown)
    exact .eseq (.seq (.cons (.cjump hc) (.cons .label (.cons (.assign ha) (.cons .jump
      (.cons .label (.cons (.assign hb) (.cons .label .noStmt)))))))) .temp
  | dropped _ _ ih => exact .exp (ih hin hown)
  | assign hscalar ha hv _ ihv =>
    cases hin
    obtain ⟨haddress, hstore⟩ := stores (hown (Node.mem_own_self _))
      (.assign (.assign hscalar ha hv)) rfl (child hown) ha
    exact .store haddress hstore (ihv rfl (child hown))
  | ifThen _ _ _ _ ihc iht =>
    have hc := ihc hin (child hown)
    have ht := iht hin (child hown)
    exact .seq (.cons (.cjump hc) (.cons .label (.cons ht (.cons .label .noStmt))))
  | ifElse _ _ _ _ _ _ ihc iht ihe =>
    have hc := ihc hin (child hown)
    have ht := iht hin (child hown)
    have he := ihe hin (child hown)
    exact .seq (.cons (.cjump hc) (.cons .label (.cons ht (.cons .jump (.cons .label
      (.cons he (.cons .label .noStmt)))))))
  | whileLoop _ _ _ _ _ ihc ihb =>
    have hc := ihc hin (child hown)
    have hb := ihb hin (child hown)
    exact .seq (.cons .label (.cons (.cjump hc) (.cons .label (.cons hb (.cons .jump
      (.cons .label .noStmt))))))
  | forLoop hs hb he hfirst hl ht hh hbody hwritten hr hx _ ihl iht ihh ihb _ ihr ihx =>
    cases hin
    have hloop := Lowers.forLoop hs hb he hfirst hl ht hh hbody hwritten hr hx
    have hcounter := child hown List.mem_cons_self
    have hl := ihl rfl (child hown)
    have ht := iht rfl hcounter
    have hh := ihh rfl (child hown)
    have hb := ihb rfl (child hown)
    have hr := ihr rfl hcounter
    have hx := ihx rfl (child hown)
    obtain ⟨haddress, hstore⟩ := stores (hown (Node.mem_own_self _))
      (.counter hloop (.inl rfl)) rfl hcounter hfirst
    obtain ⟨haddress', hstore'⟩ := stores (hown (Node.mem_own_self _))
      (.counter hloop (.inr rfl)) rfl hcounter hwritten
    exact .seq (.cons (.store haddress hstore hl) (.cons .label
      (.cons (.cjump (.binop (.mem ht) hh)) (.cons .label (.cons hb
      (.cons (.store haddress' hstore' (.binop (.mem hr) hx)) (.cons .jump
      (.cons .label .noStmt))))))))
  | sequence _ ih => exact .seq (ih hin (parts hown))
  | global _ => exact .name
  | localSlot _ _ | paramSlot _ _ => exact Obeys.of_isAddress (isAddress_slotAddress _ _ _ _)
  | reference _ _ => exact .mem (Obeys.of_isAddress (isAddress_slotAddress _ _ _ _))
  | member _ ih => exact Obeys.atOffset (ih hin (child hown)) _
  | index _ _ _ _ | deref _ _ => cases hdirect _ (hown (Node.mem_own_self _))
  | noArgument => exact ⟨[], .noArg, .nil⟩
  | byAddress _ he _ ihe ihes =>
    cases hin
    have hn := List.Subset.trans (List.subset_append_left _ _) hown
    obtain ⟨ps, hps, hknown⟩ := ihes rfl (List.Subset.trans (List.subset_append_right _ _) hown)
    refine ⟨some _ :: ps, .arg (ihe rfl hn) ?_ hps, .cons (fun _ => ⟨_, rfl, locates hn he⟩) hknown⟩
    rintro _ ⟨⟩
    exact ⟨rfl, .inr ⟨_, locates hn he⟩⟩
  | byValue hvalue _ _ ihe ihes =>
    obtain ⟨ps, hps, hknown⟩ := ihes hin (List.Subset.trans (List.subset_append_right _ _) hown)
    refine ⟨none :: ps, .arg (ihe hin (List.Subset.trans (List.subset_append_left _ _) hown)) ?_
      hps, .cons (fun haggregate => ?_) hknown⟩
    · rintro _ ⟨⟩
    · rw [hvalue] at haggregate
      cases haggregate
  | noEffect => exact .noStmt
  | effects _ _ ihs ihss =>
    exact .cons (ihs hin (List.Subset.trans (List.subset_append_left _ _) hown))
      (ihss hin (List.Subset.trans (List.subset_append_right _ _) hown))
  | noDefinition | static _ _ _ | stacked _ _ _ _ | procedure _ _ _ _ _ _ | function _ _ _ _ _ _
  | skipped _ _ _ => exact hin.elim

/-- The code of a function follows the policy of the function. -/
theorem LowersBody.obeys (hdirect : ∀ n ∈ body.own, n.isIndirect = false)
    (htyped : ∀ n ∈ body.own, n.WellTyped p.types p.declares) {s s' : LowerState} {code : Stmt}
    (h : LowersBody p.types layout ⟨r.decl, body, 0⟩ g s s' code) :
    Obeys (.direct p layout frame) (.stmt code) := by
  cases h with
  | procedure _ hlower =>
    exact hlower.obeys hbuild hscoped hframe hdirect htyped rfl (List.Subset.refl _)
  | function _ hlower =>
    exact .assign (hlower.obeys hbuild hscoped hframe hdirect htyped rfl (List.Subset.refl _))

end Lowering

end TreeCode
