/-
# Lowered code does what the source means

`Lowers.agrees` compares, for every derivation, the meaning of a node with the run of
its code: values with evaluation, effects with execution. The two start in states that
look alike and whatever temps they have, since the meaning of a node has none and the
code reads only those that it has written itself.

The comparison is relative to calls at the current depth, and it takes the addresses of
literals as given.
-/

import TreeCode.Proofs.Lowering.Traversal
import TreeCode.Proofs.Machine.Structured
import TreeCode.Proofs.Meaning.Limit

namespace TreeCode

open IR (Chunk Effect Expr Stmt)
open Source (Node Symbol)

namespace Block

/-- What stands before a list and places no label does not keep it from being closed. -/
theorem Closed.of_append {a b : List Stmt} (h : Closed (a ++ b)) (ha : placed a = []) :
    Closed b := by
  intro stmt hmem l hl
  have hplaced := h stmt (List.mem_append_right _ hmem) l hl
  rwa [placed_append, ha, List.nil_append] at hplaced

end Block

namespace Exec

variable {α β : Type} {d : Nat}

/-- Calls are `d` deep in two states that look alike, whatever their activations. -/
def Level (d : Nat) : State → State → Prop :=
  Rel (fun _ _ => True) d

/-- Two computations that do alike at a depth of calls, whatever the temps. -/
def Follows (d : Nat) (x y : Exec α) : Prop :=
  Sim (Level d) x y (fun a s b t => a = b ∧ Level d s t)

namespace Follows

theorem refl {x : Exec α} (h : Neutral x) : Follows d x x :=
  h _ d

theorem plain {x : Exec α} (h : Plain x) : Follows d x x :=
  refl (.of_plain h)

theorem pure (a : α) : Follows d (Pure.pure a) (Pure.pure a) :=
  refl (.pure a)

theorem bind {x y : Exec α} {f g : α → Exec β} (hx : Follows d x y)
    (hf : ∀ a, Follows d (f a) (g a)) : Follows d (x >>= f) (y >>= g) := by
  refine Sim.bind hx fun a b => ?_
  rintro s t ⟨rfl, h⟩
  exact hf a s t h

theorem unit {x y : Exec Unit} (h : Sim (Level d) x y (fun _ s _ t => Level d s t)) :
    Follows d x y :=
  Sim.mono h (fun _ _ h => h) fun _ _ _ _ h => ⟨rfl, h⟩

theorem ite {p : Prop} [Decidable p] {x y x' y' : Exec α} (hx : Follows d x x')
    (hy : Follows d y y') : Follows d (if p then x else y) (if p then x' else y') := by
  split
  · exact hx
  · exact hy

end Follows

/-- An expression is evaluated as a computation does. -/
abbrev Computes (setup : Setup) (d : Nat) (x : Exec Word) (e : Expr) : Prop :=
  Follows d x (eval setup (fullRun setup) e)

/-- A statement is run as a computation does. -/
abbrev Performs (setup : Setup) (d : Nat) (x : Exec Unit) (st : Stmt) : Prop :=
  Follows d x (full setup (.ofList st.flatten) 0)

/-- A fact about the second state that the second computation keeps. -/
theorem Sim.keeping {γ : Type} {P : State → State → Prop} {x : Exec α} {y : Exec β}
    {Q : α → State → β → State → Prop} (h : Sim P x y Q) {f : State → γ} (hf : Keeps f y) (c : γ) :
    Sim (fun s t => P s t ∧ f t = c) x y (fun a s b t => Q a s b t ∧ f t = c) := by
  have hboth : Sim (fun s t => P s t ∧ f t = c) x y Q :=
    h.mono (fun _ _ h => h.1) fun _ _ _ _ h => h
  refine hboth.with_runs.mono (fun _ _ h => h) ?_
  rintro a s b t ⟨hq, s₀, t₀, ⟨-, hc⟩, -, hy⟩
  exact ⟨hq, (hf t₀ b t hy).trans hc⟩

section

variable {setup : Setup}

theorem full_ofList_exp (setup : Setup) (e : Expr) :
    full setup (Block.ofList [.exp e]) 0 = eval setup (fullRun setup) e >>= fun _ => pure () := by
  have hend : full setup (Block.ofList [.exp e]) 1 = pure () := full_of_none rfl
  have hget : (Block.ofList [.exp e])[0]? = some (.exp e) := rfl
  rw [full_of_some hget, step]
  simp only [bind_assoc, pure_bind]
  rw [show (0 : Nat) + 1 = 1 from rfl, hend]

variable (run : Block → Exec Unit) {t : Temp} {c : Exec Word} (layout : Layout) (f : FrameRecord)
  {x y : Exec Word} (frame : Nat) (offset : Word) {code : List Stmt} {e : Expr} {st : Stmt}
  {a b v : Expr} {thenLabel elseLabel endLabel : Label}

/-- A statement inside an expression is run, and then the expression is evaluated. -/
theorem eseq_sim {P : State → State → Prop} {x : Exec α} {f : α → Exec Word}
    {R : Word → State → Word → State → Prop} {Q : α → State → State → Prop}
    (hQ : ∀ a s t l, Q a s t → Q a s { t with location := l })
    (hst : Sim P x (full setup (Block.ofList st.flatten) 0) (fun a s _ t => Q a s t))
    (he : ∀ a, Sim (Q a) (f a) (eval setup (fullRun setup) e) R) :
    Sim P (x >>= f) (eval setup (fullRun setup) (.eseq st e)) R := by
  intro s t h
  change Matches R ((x >>= f) s) ((full setup (Block.ofList st.flatten) 0 >>= fun _ =>
    setLocation t.location >>= fun _ => eval setup (fullRun setup) e) t)
  refine Sim.bind hst (fun a _ s' t' h' => ?_) s t h
  exact he a s' { t' with location := t.location } (hQ a s' t' _ h')

theorem Follows.eseq {x : Exec Unit} (hst : Performs setup d x st) (he : Computes setup d y e) :
    Computes setup d (x >>= fun _ => y) (.eseq st e) := by
  refine eseq_sim (Q := fun _ => Level d) (fun _ s t l h => ?_) ?_ fun _ => he
  · exact ⟨{ h.view with }, h.depth, trivial⟩
  · exact Sim.mono hst (fun _ _ h => h) fun _ _ _ _ h => h.2

/-- A fact about a temp of the second state, besides. -/
def Holding (d : Nat) (t : Temp) (w : Word) (s u : State) : Prop :=
  Level d s u ∧ tempValue t u = w

theorem Holding.location {w : Word} {s u : State} (h : Holding d t w s u) (l : Location)
    : Holding d t w s { u with location := l } :=
  ⟨⟨{ h.1.view with }, h.1.depth, trivial⟩, h.2⟩

/-- A value that is moved into a temp can be read there. -/
theorem Follows.write (ht : t ≠ Temp.fp) (h : Computes setup d x e) :
    Sim (Level d) x (move setup (fullRun setup) (.temp t) e)
      (fun w s _ u => Holding d t w s u) := by
  rw [move_temp_eq setup ht, ← bind_pure x]
  refine Sim.bind h fun w w' => ?_
  rintro s u ⟨rfl, hsu⟩
  refine .ok ⟨⟨{ hsu.view with }, hsu.depth, trivial⟩, ?_⟩
  simp only [tempValue, Temps.get_set, if_true]

theorem read_sim (ht : t ≠ Temp.fp) (w : Word) :
    Sim (Holding d t w) (pure w) (readTemp t) (fun a s b u => a = b ∧ Level d s u) := by
  rintro s u ⟨h, hw⟩
  rw [readTemp_eq ht]
  exact .ok ⟨hw.symm, h⟩

/-- A value that is left in a temp by some code. -/
theorem Follows.eseq_temp (ht : t ≠ Temp.fp)
    (h : Sim (Level d) x (full setup (Block.ofList st.flatten) 0)
      (fun w s _ u => Holding d t w s u)) :
    Computes setup d x (.eseq st (.temp t)) := by
  rw [← bind_pure x]
  exact eseq_sim (fun _ _ _ l h => h.location l) h (read_sim ht)

theorem full_ofList_move_cons (target source : Expr) (hcode : Block.Closed code)
    (hnodup : (Block.placed code).Nodup) :
    full setup (Block.ofList (.move target source :: code)) 0 =
      move setup (fullRun setup) target source >>= fun _ => full setup (Block.ofList code) 0 := by
  rw [← full_ofList_move]
  exact full_append (a := [.move target source]) (Block.closed_single rfl) hcode hnodup

/-- An assignment whose value is not used. -/
theorem Follows.stored (hx : Computes setup d x a) (hy : Computes setup d y v) :
    Follows d (Meaning.drop (Meaning.assign x y)) (move setup (fullRun setup) (.mem a) v) := by
  have hdrop : Meaning.drop (Meaning.assign x y) =
      x >>= fun a => y >>= fun v => Exec.store a v := by
    simp only [Meaning.drop, Meaning.assign, bind_assoc, pure_bind]
    congr 1
    funext a
    congr 1
    funext v
    exact bind_pure_unit
  rw [hdrop]
  exact hx.bind fun a => hy.bind fun v => .plain (.store a v)

/-- An assignment whose value is used: address and value are kept in temps. -/
theorem Follows.assigned {addr : Temp} (haddr : addr ≠ Temp.fp) (ht : t ≠ Temp.fp) (hne : t ≠ addr)
    (hx : Computes setup d x a) (hy : Computes setup d y v)
    (hkeeps : Keeps (tempValue addr) (eval setup (fullRun setup) v)) :
    Computes setup d (Meaning.assign x y) (.eseq (.seq [.move (.temp addr) a, .move (.temp t) v,
      .move (.mem (.temp addr)) (.temp t)]) (.temp t)) := by
  refine Follows.eseq_temp ht ?_
  have hmoves : full setup (Block.ofList [.move (.temp addr) a, .move (.temp t) v,
      .move (.mem (.temp addr)) (.temp t)]) 0 =
      move setup (fullRun setup) (.temp addr) a >>= fun _ =>
        move setup (fullRun setup) (.temp t) v >>= fun _ =>
          move setup (fullRun setup) (.mem (.temp addr)) (.temp t) := by
    have hlast : Block.Closed [.move (.mem (.temp addr)) (.temp t)] := Block.closed_single rfl
    have hrest : Block.Closed [.move (.temp t) v, .move (.mem (.temp addr)) (.temp t)] :=
      .append (a := [.move (.temp t) v]) (Block.closed_single rfl) hlast
    rw [full_ofList_move_cons _ _ hrest .nil, full_ofList_move_cons _ _ hlast .nil,
      full_ofList_move]
  change Sim _ _ (full setup (Block.ofList [_, _, _]) 0) _
  rw [hmoves]
  refine Sim.bind (hx.write haddr) fun w _ => ?_
  -- the second move keeps the first temp
  have hkeep : Keeps (tempValue addr) (move setup (fullRun setup) (.temp t) v) := by
    rw [move_temp_eq setup ht]
    exact .bind hkeeps fun _ => keeps_writeTemp hne _
  refine Sim.bind ((hy.write ht).keeping hkeep w) fun w' _ => ?_
  rintro s u ⟨⟨hsu, hw'⟩, hw⟩
  have hstore : move setup (fullRun setup) (.mem (.temp addr)) (.temp t) u = store w w' u := by
    simp only [move, eval]
    rw [bind_of_ok (readTemp_eq haddr u), bind_of_ok (readTemp_eq ht u), hw, hw']
  have hboth : Sim (Rel (fun _ b => b.temps.get t = w') d) (store w w' >>= fun _ => Pure.pure w')
      (store w w' >>= Pure.pure) (fun a s' _ u' => Holding d t a s' u') := by
    refine Sim.bind (Neutral.of_plain (.store w w') _ d) fun _ _ => ?_
    rintro s' u' ⟨-, h⟩
    exact .ok ⟨⟨h.view, h.depth, trivial⟩, h.activation⟩
  rw [bind_pure] at hboth
  rw [hstore]
  exact hboth s u ⟨hsu.view, hsu.depth, hw'⟩

/-- A choice whose value is used: both arms leave it in a temp. -/
theorem Follows.chosen (ht : t ≠ Temp.fp) (hc : Computes setup d c e)
    (hx : Computes setup d x a)
    (hy : Computes setup d y b)
    (hnodup : (Block.placed (ifElseCode e thenLabel elseLabel endLabel [.move (.temp t) a]
      [.move (.temp t) b])).Nodup) :
    Computes setup d (Meaning.choose c x y) (.eseq (.seq [.cjump e thenLabel elseLabel,
      .label thenLabel, .move (.temp t) a, .jump endLabel, .label elseLabel, .move (.temp t) b,
      .label endLabel]) (.temp t)) := by
  refine Follows.eseq_temp ht ?_
  change Sim _ _ (full setup (Block.ofList (ifElseCode e thenLabel elseLabel endLabel
    [.move (.temp t) a] [.move (.temp t) b])) 0) _
  rw [full_ifElse (Block.closed_single rfl) (Block.closed_single rfl) hnodup, full_ofList_move,
    full_ofList_move]
  refine Sim.bind hc fun v v' => ?_
  rintro s u ⟨rfl, hsu⟩
  by_cases hv : v = 0
  · simp only [hv, if_true]
    exact hy.write ht s u hsu
  · simp only [hv, if_false]
    exact hx.write ht s u hsu

section

variable {x : Exec Unit} (hc : Computes setup d c e)
  (hx : Performs setup d x st) (hst : Block.Closed st.flatten)
include hc hx hst

/-- A conditional does what one of its arms does. -/
theorem Follows.ifThen
    (hnodup : (Block.placed (Stmt.seq [.cjump e thenLabel elseLabel, .label thenLabel, st,
      .label elseLabel]).flatten).Nodup) :
    Performs setup d (Meaning.choose c x (Pure.pure ())) (.seq
      [.cjump e thenLabel elseLabel, .label thenLabel, st, .label elseLabel]) := by
  have hcode : (Stmt.seq [.cjump e thenLabel elseLabel, .label thenLabel, st,
      .label elseLabel]).flatten = ifThenCode e thenLabel elseLabel st.flatten := by
    simp [Stmt.flatten, Stmt.flattenAll, ifThenCode]
  rw [hcode] at hnodup
  rw [Performs, hcode, full_ifThen hst hnodup]
  exact hc.bind fun v => .ite (.pure ()) hx

theorem Follows.ifElse {y : Exec Unit} {st' : Stmt}
    (hy : Performs setup d y st') (hst' : Block.Closed st'.flatten)
    (hnodup : (Block.placed (Stmt.seq [.cjump e thenLabel elseLabel, .label thenLabel, st,
      .jump endLabel, .label elseLabel, st', .label endLabel]).flatten).Nodup) :
    Performs setup d (Meaning.choose c x y) (.seq
      [.cjump e thenLabel elseLabel, .label thenLabel, st, .jump endLabel, .label elseLabel, st',
        .label endLabel]) := by
  have hcode : (Stmt.seq [.cjump e thenLabel elseLabel, .label thenLabel, st, .jump endLabel,
      .label elseLabel, st', .label endLabel]).flatten =
      ifElseCode e thenLabel elseLabel endLabel st.flatten st'.flatten := by
    simp [Stmt.flatten, Stmt.flattenAll, ifElseCode]
  rw [hcode] at hnodup
  rw [Performs, hcode, full_ifElse hst hst' hnodup]
  exact hc.bind fun v => .ite hy hx

end

theorem flatten_whileLoop (e : Expr) (st : Stmt) (startLabel bodyLabel endLabel : Label) :
    (Stmt.seq [.label startLabel, .cjump e bodyLabel endLabel, .label bodyLabel, st,
      .jump startLabel, .label endLabel]).flatten =
      loopCode e startLabel bodyLabel endLabel st.flatten := by
  simp [Stmt.flatten, Stmt.flattenAll, loopCode]

/-- A loop does what its rounds do. -/
theorem Follows.loop {x : Exec Unit} (hproper : Proper (Meaning.round c x))
    {startLabel bodyLabel : Label} (hc : Computes setup d c e)
    (hx : Follows d x (full setup (Block.ofList code) 0)) (hcode : Block.Closed code)
    (hnodup : (Block.placed (loopCode e startLabel bodyLabel endLabel code)).Nodup) :
    Follows d (forever (fun _ => Meaning.round c x) ())
      (full setup (Block.ofList (loopCode e startLabel bodyLabel endLabel code)) 0) := by
  refine .unit (loop_sim hproper hcode hnodup ?_)
  exact hc.bind fun v => .ite (.pure none) (hx.bind fun _ => .pure (some ()))

theorem Follows.test (hx : Computes setup d x a) (hy : Computes setup d y e) :
    Computes setup d (Meaning.test x y) (.binop .lt (.mem a) e) := by
  simp only [Computes, eval, bind_assoc]
  exact hx.bind fun a => (Follows.plain (.load a)).bind fun v => hy.bind fun w => .pure _

theorem Follows.advance {z : Exec Word} (hx : Computes setup d x a) (hy : Computes setup d y b)
    (hz : Computes setup d z e) :
    Follows d (Meaning.advance x y z)
      (move setup (fullRun setup) (.mem a) (.binop .add (.mem b) e)) := by
  refine hx.stored ?_
  simp only [Computes, eval, bind_assoc]
  exact hy.bind fun a => (Follows.plain (.load a)).bind fun v => hz.bind fun w => .pure _

theorem flatten_forLoop (a l c w e : Expr) (st : Stmt) (startLabel bodyLabel endLabel : Label) :
    (Stmt.seq [.move (.mem a) l, .label startLabel, .cjump c bodyLabel endLabel,
      .label bodyLabel, st, .move (.mem w) e, .jump startLabel, .label endLabel]).flatten =
      [.move (.mem a) l] ++ loopCode c startLabel bodyLabel endLabel
        (st.flatten ++ [.move (.mem w) e]) := by
  simp [Stmt.flatten, Stmt.flattenAll, loopCode]

/-- A counting loop sets its counter and then loops. -/
theorem Follows.counting {tested : Exec Word} {body next : Exec Unit} {c w : Expr}
    {startLabel bodyLabel : Label}
    (hproper : Proper (Meaning.round tested (body >>= fun _ => next)))
    (hc : Computes setup d tested c)
    (hbody : Performs setup d body st)
    (hst : Block.Closed st.flatten) (hnext : Follows d next (move setup (fullRun setup) (.mem w) e))
    (hnodup : (Block.placed (loopCode c startLabel bodyLabel endLabel
      (st.flatten ++ [.move (.mem w) e]))).Nodup) :
    Follows d (forever (fun _ => Meaning.round tested (body >>= fun _ => next)) ())
      (full setup (Block.ofList (loopCode c startLabel bodyLabel endLabel
        (st.flatten ++ [.move (.mem w) e]))) 0) := by
  have hlast : Block.Closed [.move (.mem w) e] := Block.closed_single rfl
  have hcode : (Block.placed (st.flatten ++ [.move (.mem w) e])).Nodup := by
    simp only [loopCode, Block.placed_append] at hnodup ⊢
    exact (List.nodup_append.1 (List.nodup_append.1 hnodup).1).2.1
  refine .loop hproper hc ?_ (hst.append hlast) hnodup
  rw [full_append hst hlast hcode, full_ofList_move]
  exact hbody.bind fun _ => hnext

/-- An offset is added to an address. -/
theorem eval_atOffset (e : Expr) (offset : Word) :
    eval setup run (atOffset e offset) = eval setup run e >>= fun a => pure (a + offset) := by
  unfold atOffset
  split
  next hzero =>
    simp only [hzero, Int64.add_zero]
    exact (bind_pure _).symm
  · simp only [eval, binary, pure_bind]

theorem eval_linkChain (n : Nat) : ∀ e : Expr,
    eval setup run (linkChain n e) = eval setup run e >>= followLinks n := by
  induction n with
  | zero => exact fun e => (bind_pure _).symm
  | succ n ih =>
    intro e
    rw [linkChain, ih]
    simp only [eval, bind_assoc]
    rfl

/-- The code for a slot finds it through the static links. -/
theorem eval_slotAddress :
    eval setup run (slotAddress layout f frame offset) = slotPlace layout f frame offset := by
  have hread : eval setup run (.temp Temp.fp) = get >>= fun s => pure s.fp := rfl
  rw [slotAddress, eval_atOffset, eval_linkChain, hread]
  simp only [slotPlace, bind_assoc, pure_bind]

theorem Neutral.slotPlace : Neutral (TreeCode.slotPlace layout f frame offset) := by
  intro A d s t h
  have hlinks := Neutral.bind
    (Neutral.of_plain (.followLinks (f.level - layout.frameLevel frame) t.fp))
    fun base => Neutral.pure (base + offset)
  change Matches _ ((Exec.followLinks _ s.fp >>= fun base => Pure.pure (base + offset)) s) _
  rw [h.view.fp]
  exact hlinks A d s t h

theorem binary_eq_apply (op : Source.Op) (x y : Word) :
    binary (binaryOp op) x y = op.apply x y := by
  cases op <;> rfl

end

end Exec

namespace Source.Node

variable {types : TypeTable} {layout : Layout} {program : TreeCode.Program} {practice : Practice}
  {f : FrameRecord} {n : Node} {i : Nat}

/-- The value of a place is what is found there, unless it is an aggregate. -/
theorem value_of_isPlace (h : n.isPlace = true) :
    (n.meaning types layout program practice f i).value =
      if (n.ty types).isAggregate then (n.meaning types layout program practice f i).address
      else (n.meaning types layout program practice f i).address >>= Exec.load := by
  cases n with
  | ident x => rfl
  | member operand field =>
    have hty : (member operand field).ty types =
        (((operand.ty types).field? field).getD (0, .absent)).2 := by
      simp only [ty]
      cases (operand.ty types).field? field <;> rfl
    rw [hty]
    rfl
  | binary op left right =>
    cases op with
    | index => rfl
    | _ => cases h
  | unary op operand =>
    cases op with
    | deref => rfl
    | _ => cases h
  | _ => cases h

theorem effect_of_isDropped (h : n.isDropped = true) :
    (n.meaning types layout program practice f i).effect =
      Meaning.drop (n.meaning types layout program practice f i).value := by
  cases n with
  | number _ | logical _ | string _ | ident _ | member _ _ | call _ _ => rfl
  | binary op left right =>
    cases op with
    | assign => cases h
    | _ => rfl
  | unary op operand => cases op <;> rfl
  | _ => cases h

theorem value_assign {target : Node} (h : (target.ty types).isAggregate = false) (source : Node) :
    (meaning types layout program practice f (.binary .assign target source) i).value =
      Meaning.assign (target.meaning types layout program practice f i).address
        (source.meaning types layout program practice f (i + target.literals)).value := by
  simp only [meaning, h]
  rfl

variable {valued : Bool} {ns : List Node} {last condition thenArm elseArm : Node}

theorem effect_branch :
    (meaning types layout program practice f (.branch valued condition thenArm (some elseArm))
        i).effect =
      Meaning.choose (condition.meaning types layout program practice f i).value
        (thenArm.meaning types layout program practice f (i + condition.literals)).effect
        (elseArm.meaning types layout program practice f
          (i + condition.literals + thenArm.literals)).effect := by
  simp only [meaning]
  split <;> rfl

theorem value_branch (h : (branch valued condition thenArm (some elseArm)).isEffect types = false) :
    (meaning types layout program practice f (.branch valued condition thenArm (some elseArm))
        i).value =
      Meaning.choose (condition.meaning types layout program practice f i).value
        (thenArm.meaning types layout program practice f (i + condition.literals)).value
        (elseArm.meaning types layout program practice f
          (i + condition.literals + thenArm.literals)).value := by
  have hboth : (!valued || (thenArm.ty types).isVoid) = false := h
  simp only [meaning, hboth]
  rfl

/-- The value of an operation. -/
theorem value_binary {op : Op} (hindex : op ≠ .index) (hassign : op ≠ .assign) (l r : Node) :
    (meaning types layout program practice f (.binary op l r) i).value =
      (l.meaning types layout program practice f i).value >>= fun x =>
        (r.meaning types layout program practice f (i + l.literals)).value >>= fun y =>
          op.apply x y := by
  cases op with
  | index => exact absurd rfl hindex
  | assign => exact absurd rfl hassign
  | _ => rfl

theorem lastValue_cons (h : ns ≠ []) :
    lastValue types layout program practice f (n :: ns) i =
      (n.meaning types layout program practice f i).effect >>= fun _ =>
        lastValue types layout program practice f ns (i + n.literals) := by
  cases ns with
  | nil => exact absurd rfl h
  | cons m ms => rfl

/-- The value of a sequence that ends in a value. -/
theorem lastValue_append (h : (last.ty types).isVoid = false) (before : List Node) :
    lastValue types layout program practice f (before ++ [last]) i =
      effects types layout program practice f before i >>= fun _ =>
        (last.meaning types layout program practice f (i + literalsAll before)).value := by
  induction before generalizing i with
  | nil =>
    simp only [List.nil_append, lastValue, h, effects, literalsAll, pure_bind]
    rfl
  | cons n rest ih =>
    rw [List.cons_append, lastValue_cons (by simp), ih, effects, bind_assoc, literalsAll,
      Nat.add_assoc]

/-- The value of a sequence that does not end in a value. -/
theorem lastValue_of_isVoid (hlast : ns.getLast? = some last) (h : (last.ty types).isVoid = true) :
    lastValue types layout program practice f ns i =
      effects types layout program practice f ns i >>= fun _ => pure 0 := by
  induction ns generalizing i with
  | nil => cases hlast
  | cons n rest ih =>
    cases rest with
    | nil =>
      obtain rfl : n = last := Option.some.inj hlast
      simp only [lastValue, h, effects, bind_assoc, pure_bind]
      rfl
    | cons m ms =>
      rw [lastValue_cons (List.cons_ne_nil m ms), ih hlast]
      simp only [effects, bind_assoc]

/-- The value of a node that has only an effect is zero. -/
theorem value_of_isEffect (h : n.isEffect types = true) :
    (n.meaning types layout program practice f i).value =
      (n.meaning types layout program practice f i).effect >>= fun _ => pure 0 := by
  cases n with
  | whileLoop _ _ | forLoop _ _ _ _ _ => rfl
  | branch valued condition thenArm elseArm =>
    cases elseArm with
    | none => rfl
    | some elseArm =>
      have hboth : (!valued || (thenArm.ty types).isVoid) = true := h
      simp only [meaning, hboth]
      rfl
  | sequence items =>
    simp only [isEffect] at h
    cases hlast : items.getLast? with
    | none => simp [hlast] at h
    | some last =>
      rw [hlast] at h
      exact lastValue_of_isVoid hlast h
  | _ => cases h

end Source.Node

section

variable {types : TypeTable} {layout : Layout} {r : Reading} {o : Lowered} {s s' : LowerState}

theorem Lower.temp_eq_ok {s s' : LowerState} {t : Temp} (h : Lower.temp s = .ok (t, s')) :
    t.index = s.supply.temps ∧ s'.supply.temps = s.supply.temps + 1 := by
  cases h
  exact ⟨rfl, rfl⟩

/-- Lowered code is sound, whatever its names stand for. -/
theorem Lowers.sound_of_temps (h : Lowers types layout r s o s')
    (hs : Temp.firstFree ≤ s.supply.temps) : o.Sound (fun _ => True) s'.supply.temps := by
  have hmakes := h.sound (N := fun _ => True) (Nat.le_trans hs h.grows.le)
    fun _ _ _ _ => trivial
  exact (hmakes.sound hs ⟨Nat.le_refl _, fun _ _ _ _ => trivial⟩).1

/-- Temps that were drawn before are not assigned to. -/
theorem Lowers.not_assigned (h : Lowers types layout r s o s') {t : Temp}
    (ht : t.index < s.supply.temps) : .assign t ∉ o.effects := by
  intro hmem
  have hle := (h.grows.temps t (List.count_pos_iff.2 hmem)).1
  omega

/-- Evaluating lowered code keeps the temps that were drawn before. -/
theorem Lowers.eval_keeps {setup : Setup} {e : Expr} (h : Lowers types layout r s (.expr e) s')
    {t : Temp} (ht : t.index < s.supply.temps) :
    Exec.Keeps (Exec.tempValue t) (Exec.eval setup (Exec.fullRun setup) e) := by
  refine Exec.eval_keeps (fun st hst => ?_) e (h.not_assigned ht)
  rw [← Stmt.effectsAll_flatten] at hst
  exact Exec.full_keeps setup hst 0

/-- No label is placed twice in the code of a statement. -/
theorem Lowers.placed_nodup {st : Stmt} (h : Lowers types layout r s (.stmt st) s') :
    (Block.placed st.flatten).Nodup :=
  (Stmt.placed_flatten st).nodup h.grows.nodup

/-- A temp that was drawn is none of the machine's own. -/
theorem Lower.temp_ne_fp {t : Temp} (h : Lower.temp s = .ok (t, s'))
    (hs : Temp.firstFree ≤ s.supply.temps) : t ≠ Temp.fp := by
  rintro rfl
  have hindex : (0 : Int) = s.supply.temps := (Lower.temp_eq_ok h).1
  change 2 ≤ s.supply.temps at hs
  omega

theorem Lower.label_temps {l : Label} (h : Lower.label s = .ok (l, s')) :
    s'.supply.temps = s.supply.temps := by
  cases h
  rfl

end

/-! The code of a construct does what the construct does, if the code of its parts does
what they do. -/

section

variable {types : TypeTable} {layout : Layout} {f : FrameRecord} {setup : Setup} {d : Nat}
  {s s₁ s₂ s₃ s₄ s₅ s₆ s₇ s₈ s₉ s₁₀ s' : LowerState}

open Exec (Computes Follows Performs eval full fullRun)

theorem Lowers.assigned_follows {target source : Node} {addr t : Temp} {a v : Expr}
    (haddr : Lower.temp s = .ok (addr, s₁)) (ht : Lower.temp s₁ = .ok (t, s₂))
    (ha : Lowers types layout (.address f target) s₂ (.expr a) s₃)
    (hv : Lowers types layout (.value f source) s₃ (.expr v) s')
    (hs : Temp.firstFree ≤ s.supply.temps) {x y : Exec Word} (hx : Computes setup d x a)
    (hy : Computes setup d y v) :
    Computes setup d (Meaning.assign x y) (.eseq (.seq [.move (.temp addr) a, .move (.temp t) v,
      .move (.mem (.temp addr)) (.temp t)]) (.temp t)) := by
  have hindex := Lower.temp_eq_ok haddr
  have hindex' := Lower.temp_eq_ok ht
  have hle := ha.grows.le
  refine Follows.assigned (Lower.temp_ne_fp haddr hs) (Lower.temp_ne_fp ht (by omega)) ?_ hx hy
    (hv.eval_keeps (by omega))
  rintro rfl
  omega

variable {c thenArm elseArm body : Node} {thenLabel startLabel elseLabel bodyLabel : Label}
  {e : Expr} {endLabel : Label} {st : Stmt} {x : Exec Unit} {tested : Exec Word}

theorem Lowers.chosen_follows {valued : Bool} {t : Temp} {a b : Expr}
    (hvalue : (Node.branch valued c thenArm (some elseArm)).isEffect types = false)
    (ht : Lower.temp s = .ok (t, s₁)) (hthen : Lower.label s₁ = .ok (thenLabel, s₂))
    (helse : Lower.label s₂ = .ok (elseLabel, s₃)) (hend : Lower.label s₃ = .ok (endLabel, s₄))
    (hc : Lowers types layout (.value f c) s₄ (.expr e) s₅)
    (ha : Lowers types layout (.value f thenArm) s₅ (.expr a) s₆)
    (hb : Lowers types layout (.value f elseArm) s₆ (.expr b) s')
    (hs : Temp.firstFree ≤ s.supply.temps) {x y : Exec Word} (he : Computes setup d tested e)
    (hx : Computes setup d x a) (hy : Computes setup d y b) :
    Computes setup d (Meaning.choose tested x y) (.eseq (.seq [.cjump e thenLabel elseLabel,
      .label thenLabel, .move (.temp t) a, .jump endLabel, .label elseLabel, .move (.temp t) b,
      .label endLabel]) (.temp t)) := by
  have hnodup := (Lowers.chosen hvalue ht hthen helse hend hc ha hb).grows.nodup
  rw [Lowered.effects, Expr.effects, Effect.labels_append] at hnodup
  exact Follows.chosen (Lower.temp_ne_fp ht hs) he hx hy
    ((Stmt.placed_flatten _).nodup (List.nodup_append.1 hnodup).1)

section

variable (hthen : Lower.label s = .ok (thenLabel, s₁))
  (helse : Lower.label s₁ = .ok (elseLabel, s₂))
  (hc : Lowers types layout (.value f c) s₂ (.expr e) s₃)
include hthen helse hc

theorem Lowers.ifThen_follows (ht : Lowers types layout (.effect f thenArm) s₃ (.stmt st) s')
    (hs : Temp.firstFree ≤ s.supply.temps) (he : Computes setup d tested e)
    (hx : Performs setup d x st) :
    Performs setup d (Meaning.choose tested x (pure ())) (.seq
      [.cjump e thenLabel elseLabel, .label thenLabel, st, .label elseLabel]) := by
  have htemps := Lower.label_temps hthen
  have htemps' := Lower.label_temps helse
  have hle := hc.grows.le
  exact Follows.ifThen he hx (ht.sound_of_temps (by omega)).2 (Lowers.placed_nodup
    (r := .effect f (.branch true c thenArm none)) (.ifThen hthen helse hc ht))

theorem Lowers.ifElse_follows {st' : Stmt} (hend : Lower.label s₃ = .ok (endLabel, s₄))
    (ht : Lowers types layout (.effect f thenArm) s₄ (.stmt st) s₅)
    (ht' : Lowers types layout (.effect f elseArm) s₅ (.stmt st') s')
    (hs : Temp.firstFree ≤ s.supply.temps) {y : Exec Unit} (he : Computes setup d tested e)
    (hx : Performs setup d x st) (hy : Performs setup d y st') :
    Performs setup d (Meaning.choose tested x y) (.seq
      [.cjump e thenLabel elseLabel, .label thenLabel, st, .jump endLabel, .label elseLabel, st',
        .label endLabel]) := by
  have htemps := Lower.label_temps hthen
  have htemps' := Lower.label_temps helse
  have htemps'' := Lower.label_temps hend
  have hle := hc.grows.le
  have hle' := ht.grows.le
  exact Follows.ifElse he hx (ht.sound_of_temps (by omega)).2 hy (ht'.sound_of_temps (by omega)).2
    (Lowers.placed_nodup (r := .effect f (.branch true c thenArm (some elseArm)))
      (.ifElse hthen helse hc hend ht ht'))

end

section

variable (hstart : Lower.label s = .ok (startLabel, s₁))
  (hbody : Lower.label s₁ = .ok (bodyLabel, s₂)) (hend : Lower.label s₂ = .ok (endLabel, s₃))
include hstart hbody hend

theorem Lowers.whileLoop_follows (hc : Lowers types layout (.value f c) s₃ (.expr e) s₄)
    (hb : Lowers types layout (.effect f body) s₄ (.stmt st) s')
    (hs : Temp.firstFree ≤ s.supply.temps) (hproper : Exec.Proper (Meaning.round tested x))
    (he : Computes setup d tested e) (hx : Performs setup d x st) :
    Performs setup d (Exec.forever (fun _ => Meaning.round tested x) ()) (.seq
      [.label startLabel, .cjump e bodyLabel endLabel, .label bodyLabel, st, .jump startLabel,
        .label endLabel]) := by
  have htemps := Lower.label_temps hstart
  have htemps' := Lower.label_temps hbody
  have htemps'' := Lower.label_temps hend
  have hle := hc.grows.le
  have hnodup := (Lowers.whileLoop hstart hbody hend hc hb).placed_nodup
  rw [Exec.flatten_whileLoop] at hnodup
  rw [Performs, Exec.flatten_whileLoop]
  exact Follows.loop hproper he hx (hb.sound_of_temps (by omega)).2 hnodup

theorem Lowers.forLoop_follows {counter lo hi step : Node} {first l tested h written read x : Expr}
    (hfirst : Lowers types layout (.address f counter) s₃ (.expr first) s₄)
    (hl : Lowers types layout (.value f lo) s₄ (.expr l) s₅)
    (ht : Lowers types layout (.address f counter) s₅ (.expr tested) s₆)
    (hh : Lowers types layout (.value f hi) s₆ (.expr h) s₇)
    (hb : Lowers types layout (.effect f body) s₇ (.stmt st) s₈)
    (hw : Lowers types layout (.address f counter) s₈ (.expr written) s₉)
    (hr : Lowers types layout (.address f counter) s₉ (.expr read) s₁₀)
    (hx : Lowers types layout (.value f step) s₁₀ (.expr x) s')
    (hs : Temp.firstFree ≤ s.supply.temps) {a v b w z y i : Exec Word} {u : Exec Unit}
    (hproper : Exec.Proper (Meaning.round (Meaning.test b w)
      (u >>= fun _ => Meaning.advance z y i)))
    (hfirst' : Computes setup d a first) (hl' : Computes setup d v l)
    (ht' : Computes setup d b tested) (hh' : Computes setup d w h)
    (hb' : Performs setup d u st) (hw' : Computes setup d z written)
    (hr' : Computes setup d y read) (hx' : Computes setup d i x) :
    Performs setup d (Meaning.drop (Meaning.assign a v) >>= fun _ =>
        Exec.forever (fun _ => Meaning.round (Meaning.test b w)
          (u >>= fun _ => Meaning.advance z y i)) ())
      (.seq [.move (.mem first) l, .label startLabel,
        .cjump (.binop .lt (.mem tested) h) bodyLabel endLabel, .label bodyLabel, st,
        .move (.mem written) (.binop .add (.mem read) x), .jump startLabel, .label endLabel]) := by
  have hall := Lowers.forLoop hstart hbody hend hfirst hl ht hh hb hw hr hx
  have hclosed := (hall.sound_of_temps hs).2
  have hnodup := hall.placed_nodup
  have hle : s.supply.temps ≤ s₇.supply.temps :=
    calc s.supply.temps = s₃.supply.temps := by
          rw [Lower.label_temps hend, Lower.label_temps hbody, Lower.label_temps hstart]
      _ ≤ s₅.supply.temps := Nat.le_trans hfirst.grows.le hl.grows.le
      _ ≤ s₇.supply.temps := Nat.le_trans ht.grows.le hh.grows.le
  rw [Exec.flatten_forLoop] at hclosed hnodup
  rw [Performs, Exec.flatten_forLoop, List.singleton_append,
    Exec.full_ofList_move_cons _ _ (hclosed.of_append rfl) hnodup]
  refine Follows.bind (Follows.stored hfirst' hl') fun _ => ?_
  exact Follows.counting hproper (Follows.test ht' hh') hb'
    (hb.sound_of_temps (Nat.le_trans hs hle)).2 (Follows.advance hw' hr' hx') hnodup

end

/-- One effect is executed after the other. -/
theorem Lowers.full_effects {n : Node} {ns : List Node} {ss : List Stmt}
    (hst : Lowers types layout (.effect f n) s (.stmt st) s₁)
    (hss : Lowers types layout (.effects f ns) s₁ (.stmts ss) s')
    (hs : Temp.firstFree ≤ s.supply.temps) :
    full setup (.ofList (Stmt.flattenAll (st :: ss))) 0 =
      full setup (.ofList st.flatten) 0 >>= fun _ => full setup (.ofList (Stmt.flattenAll ss)) 0 :=
  Exec.full_append (hst.sound_of_temps hs).2
    (hss.sound_of_temps (Nat.le_trans hs hst.grows.le)).2
    ((Stmt.placed_flattenAll _).nodup (Lowers.effects hst hss).grows.nodup)

end

/-- What is made between two states of lowering has a property that depends on the number
of its first literal. -/
structure Renders (program : Program) (s s' : LowerState) (n : Nat) (P : Nat → Prop) :
    Prop where
  grows : Grows s s' []
  count : (s.since s').length = n
  holds : Temp.firstFree ≤ s.supply.temps → ∀ i, program.Literals i (s.since s') → P i

namespace Renders

variable {program : Program} {s s₁ s' : LowerState} {n m : Nat} {P Q : Nat → Prop}
  {types : TypeTable} {layout : Layout} {r : Reading} {o : Lowered}

theorem of_lowers (h : Lowers types layout r s o s') (hP : Temp.firstFree ≤ s.supply.temps →
    ∀ i, program.Literals i (s.since s') → P i) : Renders program s s' r.literals P :=
  have htraverses : Traverses types layout program [] s s' r.literals r.functions := h.traverses
  ⟨htraverses.grows, htraverses.count, hP⟩

theorem refl (h : ∀ i, P i) : Renders program s s 0 P where
  grows := .refl s
  count := by rw [LowerState.since, List.drop_length, List.length_nil]
  holds _ i _ := h i

theorem cast (h : Renders program s s' n P) (hn : n = m) : Renders program s s' m P :=
  hn ▸ h

theorem mono (h : Renders program s s' n P) (hPQ : ∀ i, P i → Q i) :
    Renders program s s' n Q :=
  ⟨h.grows, h.count, fun hs i hlit => hPQ i (h.holds hs i hlit)⟩

theorem and (h : Renders program s s₁ n P) (h' : Renders program s₁ s' m Q) :
    Renders program s s' (n + m) (fun i => P i ∧ Q (i + n)) := by
  have hsince := LowerState.since_trans h.grows.chunks h'.grows.chunks
  refine ⟨h.grows.append h'.grows, ?_, fun hs i hlit => ?_⟩
  · rw [hsince, List.length_append, h.count, h'.count]
  · rw [hsince] at hlit
    obtain ⟨hfirst, hsecond⟩ := hlit.append
    rw [h.count] at hsecond
    exact ⟨h.holds hs i hfirst, h'.holds (Nat.le_trans hs h.grows.le) _ hsecond⟩

/-- The temps that are drawn are free for general use. -/
theorem with_temps (h : Renders program s s' n P) :
    Renders program s s' n (fun i => Temp.firstFree ≤ s.supply.temps ∧ P i) :=
  ⟨h.grows, h.count, fun hs i hlit => ⟨hs, h.holds hs i hlit⟩⟩

theorem label {l : Label} (h : Lower.label s = .ok (l, s₁)) (h' : Renders program s₁ s' n P) :
    Renders program s s' n P := by
  have hgrows := (Grows.label h).forget
  cases h
  exact ⟨hgrows.append h'.grows, h'.count, h'.holds⟩

theorem temp {t : Temp} (h : Lower.temp s = .ok (t, s₁)) (h' : Renders program s₁ s' n P) :
    Renders program s s' n P := by
  have hgrows := (Grows.temp h).forget
  cases h
  exact ⟨hgrows.append h'.grows, h'.count, fun hs => h'.holds (Nat.le_trans hs hgrows.le)⟩

end Renders

section

variable (p : Source.Program) (layout : Layout) (setup : Setup) (d : Nat)

open Exec (Computes Follows Performs eval evalAll full fullRun)

/-- Calls do alike at a depth of calls. -/
def Answers : Prop :=
  ∀ callee g, layout.frameOf? callee = some g → ∀ hops args,
    Follows d ((p.full layout setup).call g hops args)
      (Exec.call setup (fullRun setup) g.label (Int64.ofInt hops :: args))

/-- Code does what the reading means that it was made for, if its first literal has the
given number. -/
def Agrees : Reading → Lowered → Nat → Prop
  | .value f n, .expr e, i =>
    Follows d (n.meaning p.types layout setup.program (p.full layout setup) f i).value
      (eval setup (fullRun setup) e)
  | .address f n, .expr e, i =>
    Follows d (n.meaning p.types layout setup.program (p.full layout setup) f i).address
      (eval setup (fullRun setup) e)
  | .effect f n, .stmt st, i =>
    Follows d (n.meaning p.types layout setup.program (p.full layout setup) f i).effect
      (full setup (.ofList st.flatten) 0)
  | .arguments f ns, .exprs es, i =>
    Follows d (Node.arguments p.types layout setup.program (p.full layout setup) f ns i)
      (evalAll setup (fullRun setup) es)
  | .effects f ns, .stmts ss, i =>
    Follows d (Node.effects p.types layout setup.program (p.full layout setup) f ns i)
      (full setup (.ofList (Stmt.flattenAll ss)) 0)
  | _, _, _ => True

variable {p layout setup d}

/-- Lowered code does what the source means. -/
theorem Lowers.agrees (hcall : Answers p layout setup d) {r : Reading} {s s' : LowerState}
    {o : Lowered} (h : Lowers p.types layout r s o s') :
    Renders setup.program s s' r.literals (Agrees p layout setup d r o) := by
  induction h with
  | number | logical | nothing | noArgument => exact .refl fun _ => .pure _
  | plus _ ih | addr _ ih | sequence _ ih | deref _ ih => exact ih
  | withinValue _ _ ihd ihb | withinEffect _ _ ihd ihb | withinAddress _ _ ihd ihb =>
    exact (ihd.and ihb).mono fun i h => h.2
  | string hstring =>
    obtain ⟨he, hsince⟩ := Lower.since_string hstring
    refine ⟨(Grows.string hstring).forget, congrArg List.length hsince, fun _ i hlit => ?_⟩
    rw [hsince] at hlit
    change Follows _ (pure _) (eval _ _ _)
    simp only [he, eval, hlit 0 _ rfl]
    exact .pure _
  | aggregate hplace hagg _ ih =>
    refine ih.mono fun i ha => ?_
    change Follows _ _ _
    rw [Node.value_of_isPlace hplace, if_pos hagg]
    exact ha
  | load hplace hagg _ ih =>
    refine ih.mono fun i ha => ?_
    change Follows _ _ _
    rw [Node.value_of_isPlace hplace, if_neg (by rw [hagg]; exact Bool.false_ne_true)]
    exact Follows.bind ha fun a => .plain (.load a)
  | operation hindex hassign _ _ ihl ihr =>
    refine (ihl.and ihr).mono fun i h => ?_
    change Follows _ _ _
    rw [Node.value_binary hindex hassign]
    refine Follows.bind h.1 fun x => Follows.bind h.2 fun y => ?_
    rw [Exec.binary_eq_apply, ← Exec.binary_eq_apply]
    exact .plain (.binary _ x y)
  | assigned hagg haddr ht ha hv iha ihv =>
    refine (Renders.temp haddr (.temp ht (iha.and ihv))).with_temps.mono fun i h => ?_
    obtain ⟨hs, hx, hy⟩ := h
    change Follows _ _ _
    rw [Node.value_assign hagg]
    exact Lowers.assigned_follows haddr ht ha hv hs hx hy
  | neg _ ih => exact ih.mono fun i h => Follows.bind h fun x => .plain (.unary .neg x)
  | not _ ih => exact ih.mono fun i h => Follows.bind h fun x => .plain (.unary .not x)
  | call hg _ ih =>
    refine ih.mono fun i h => ?_
    change Follows _ _ _
    simp only [Node.meaning, hg, eval, evalAll, pure_bind, bind_assoc]
    exact Follows.bind h fun args => hcall _ _ hg _ args
  | last hvoid _ _ ihb ihe =>
    refine ((ihb.and ihe).cast (by simp [Reading.literals, Node.literals, Node.literalsAll])).mono
      fun i h => ?_
    change Follows _ (Node.lastValue _ _ _ _ _ (_ ++ [_]) i) _
    rw [Node.lastValue_append hvoid]
    refine Follows.eseq ?_ h.2
    rw [Performs, Stmt.flatten_join]
    exact h.1
  | zero heffect _ ih =>
    refine ih.mono fun i h => ?_
    change Follows _ _ _
    rw [Node.value_of_isEffect heffect]
    exact Follows.eseq h (.pure 0)
  | chosen hvalue ht hthen helse hend hc ha hb ihc iha ihb =>
    refine (Renders.temp ht (.label hthen (.label helse (.label hend
      (ihc.and (iha.and ihb)))))).with_temps.mono fun i h => ?_
    obtain ⟨hs, hc', ha', hb'⟩ := h
    change Follows _ _ _
    rw [Node.value_branch hvalue]
    exact Lowers.chosen_follows hvalue ht hthen helse hend hc ha hb hs hc' ha' hb'
  | dropped hdropped _ ih =>
    refine ih.mono fun i h => ?_
    change Follows _ _ (full setup (.ofList [.exp _]) 0)
    rw [Node.effect_of_isDropped hdropped, Exec.full_ofList_exp]
    exact Follows.bind h fun _ => .pure ()
  | assign hagg _ _ iha ihv =>
    refine (iha.and ihv).mono fun i h => ?_
    change Follows _ (Meaning.drop (Node.meaning _ _ _ _ _ (.binary .assign _ _) i).value)
      (full setup (.ofList [.move (.mem _) _]) 0)
    rw [Node.value_assign hagg, Exec.full_ofList_move]
    exact Follows.stored h.1 h.2
  | ifThen hthen helse hc ht ihc iht =>
    refine (Renders.label hthen (.label helse (ihc.and iht))).with_temps.mono fun i h => ?_
    obtain ⟨hs, hc', ht'⟩ := h
    exact Lowers.ifThen_follows hthen helse hc ht hs hc' ht'
  | ifElse hthen helse hc hend ht he ihc iht ihe =>
    refine (Renders.label hthen (.label helse (ihc.and (.label hend
      (iht.and ihe))))).with_temps.mono fun i h => ?_
    obtain ⟨hs, hc', ht', he'⟩ := h
    change Follows _ _ _
    rw [Node.effect_branch]
    exact Lowers.ifElse_follows hthen helse hc hend ht he hs hc' ht' he'
  | @whileLoop f _ _ _ _ _ _ _ _ _ _ _ _ _ hstart hbody hend hc hb ihc ihb =>
    have hm := p.tends_meaning layout setup f
    refine (Renders.label hstart (.label hbody (.label hend (ihc.and ihb)))).with_temps.mono
      fun i h => ?_
    obtain ⟨hs, hc', hb'⟩ := h
    exact Lowers.whileLoop_follows hstart hbody hend hc hb hs (Exec.Tends.lost
      (Exec.Congruence.tends.round (hm _ _).value (hm _ _).effect)) hc' hb'
  | @forLoop f _ _ _ _ _ _ _ _ _ _ _ _ _ _ _ _ _ _ _ _ _ _ _ _ _ _ _ _ hstart hbody hend hfirst hl
      ht hh hb hw hr hx ihfirst ihl iht ihh ihb ihw ihr ihx =>
      have hm := p.tends_meaning layout setup f
      refine (Renders.label hstart (.label hbody (.label hend (ihfirst.and (ihl.and (iht.and
        (ihh.and (ihb.and (ihw.and (ihr.and ihx)))))))))).with_temps.mono fun i h => ?_
      obtain ⟨hs, hfirst', hl', ht', hh', hb', hw', hr', hx'⟩ := h
      refine Lowers.forLoop_follows hstart hbody hend hfirst hl ht hh hb hw hr hx hs ?_
        hfirst' hl' ht' hh' hb' hw' hr' hx'
      exact Exec.Tends.lost (Exec.Congruence.tends.round
        (Exec.Congruence.tends.test (hm _ _).address (hm _ _).value)
        (Exec.Congruence.tends.bind (hm _ _).effect fun _ =>
          Exec.Congruence.tends.advance (hm _ _).address (hm _ _).address (hm _ _).value))
  | global hx =>
    refine .refl fun i => ?_
    change Follows _ (symbolPlace _ _ _ _) _
    simp only [symbolPlace, hx, eval]
    cases setup.program.address? _ with
    | some a => exact .pure a
    | none => exact .plain (.fault trivial)
  | localSlot hx _ =>
    refine .refl fun i => ?_
    change Follows _ (symbolPlace _ _ _ _) _
    simp only [symbolPlace, hx, Exec.eval_slotAddress]
    exact .refl (.slotPlace _ _ _ _)
  | paramSlot hx _ =>
    refine .refl fun i => ?_
    change Follows _ (symbolPlace _ _ _ _) _
    simp only [symbolPlace, hx, Exec.eval_slotAddress, Bool.false_eq_true, if_false]
    rw [bind_pure]
    exact .refl (.slotPlace _ _ _ _)
  | reference hx _ =>
    refine .refl fun i => ?_
    change Follows _ (symbolPlace _ _ _ _) _
    simp only [symbolPlace, hx, eval, Exec.eval_slotAddress]
    exact (Follows.refl (.slotPlace _ _ _ _)).bind fun slot => .plain (.load slot)
  | member _ ih =>
    refine ih.mono fun i h => ?_
    change Follows _ _ _
    rw [Exec.eval_atOffset]
    exact Follows.bind h fun a => .pure _
  | index _ _ ihi iha =>
    refine ((ihi.and iha).cast (Nat.add_comm _ _)).mono fun i h => ?_
    refine Follows.bind h.2 fun base => ?_
    simp only [eval, pure_bind, bind_assoc]
    exact Follows.bind h.1 fun v => .pure _
  | byAddress hagg _ _ ihe ihs =>
    refine (ihe.and ihs).mono fun i h => ?_
    change Follows _ _ _
    rw [Node.arguments, if_pos hagg]
    exact Follows.bind h.1 fun v => Follows.bind h.2 fun vs => .pure _
  | byValue hagg _ _ ihe ihs =>
    refine (ihe.and ihs).mono fun i h => ?_
    change Follows _ _ _
    rw [Node.arguments, if_neg (by rw [hagg]; exact Bool.false_ne_true)]
    exact Follows.bind h.1 fun v => Follows.bind h.2 fun vs => .pure _
  | noEffect =>
    refine .refl fun _ => ?_
    change Follows _ (pure ()) (full setup (.ofList []) 0)
    rw [Exec.full_ofList_nil]
    exact .pure ()
  | effects hst hss ihe ihs =>
    refine (ihe.and ihs).with_temps.mono fun i h => ?_
    obtain ⟨hs, he, hes⟩ := h
    change Follows _ _ (full setup (.ofList (Stmt.flattenAll (_ :: _))) 0)
    rw [hst.full_effects hss hs]
    exact Follows.bind he fun _ => hes
  | noDefinition => exact .refl fun _ => trivial
  | static hx h _ => exact .of_lowers (.static hx h) fun _ _ _ => trivial
  | stacked hx ha h _ => exact .of_lowers (.stacked hx ha h) fun _ _ _ => trivial
  | procedure hg hvoid hbody h _ _ =>
    exact .of_lowers (.procedure hg hvoid hbody h) fun _ _ _ => trivial
  | function hg hvoid hbody h _ _ =>
    exact .of_lowers (.function hg hvoid hbody h) fun _ _ _ => trivial
  | skipped hskip h _ => exact .of_lowers (.skipped hskip h) fun _ _ _ => trivial

end

end TreeCode
