/-
# Evaluation without a bound

The meaning of a node is put together from loops, calls and the operations of the
machine by sequencing, so it respects every congruence that loops and calls respect.
`full` is the practice of loops and calls with as much fuel as they need; it satisfies
the equation of the recursion, and evaluation with growing fuel tends to it.
-/

import TreeCode.Proofs.Meaning.Basic

namespace TreeCode

open Source (Node Symbol)

namespace Exec

/-- Two families of practices, related through a congruence. -/
structure Congruence.Practices {ι : Type} (C : Congruence ι) (P : ι → Practice) (P' : Practice) :
    Prop where
  loop : ∀ {F : ι → Exec (Option Unit)} {G : Exec (Option Unit)}, C.rel F G →
    C.rel (fun i => (P i).loop (F i)) (P'.loop G)
  call : ∀ f hops args, C.rel (fun i => (P i).call f hops args) (P'.call f hops args)

/-- The readings of two nodes, related through a congruence. -/
structure Congruence.Meanings {ι : Type} (C : Congruence ι) (M : ι → Meaning) (M' : Meaning) :
    Prop where
  value : C.rel (fun i => (M i).value) M'.value
  effect : C.rel (fun i => (M i).effect) M'.effect
  address : C.rel (fun i => (M i).address) M'.address

namespace Congruence

variable {ι : Type} (C : Congruence ι)

variable {x c : ι → Exec Word} {y c' : Exec Word}

theorem drop (h : C.rel x y) : C.rel (fun i => Meaning.drop (x i)) (Meaning.drop y) :=
  C.bind h fun _ => C.pure _

theorem ofValue (h : C.rel x y) : C.Meanings (fun i => .ofValue (x i)) (.ofValue y) :=
  ⟨h, C.drop h, C.lost⟩

theorem ofEffect {x : ι → Exec Unit} {y : Exec Unit} (h : C.rel x y) :
    C.Meanings (fun i => .ofEffect (x i)) (.ofEffect y) :=
  ⟨C.bind h fun _ => C.pure _, h, C.lost⟩

theorem ofPlace (ty : Ty) (h : C.rel x y) :
    C.Meanings (fun i => .ofPlace ty (x i)) (.ofPlace ty y) := by
  have hload := C.bind (f := fun _ => load) h fun a => C.plain (.load a)
  by_cases hty : ty.isAggregate = true
  · simp only [Meaning.ofPlace, hty, if_true]
    exact ⟨h, C.drop h, h⟩
  · simp only [Meaning.ofPlace, hty]
    exact ⟨hload, C.drop hload, h⟩

theorem choose {α : Type} {x y : ι → Exec α} {x' y' : Exec α} (hc : C.rel c c') (hx : C.rel x x')
    (hy : C.rel y y') :
    C.rel (fun i => Meaning.choose (c i) (x i) (y i)) (Meaning.choose c' x' y') := by
  refine C.bind hc fun v => ?_
  by_cases hv : v = 0
  · simp only [if_pos hv]
    exact hy
  · simp only [if_neg hv]
    exact hx

theorem round {x : ι → Exec Unit} {x' : Exec Unit} (hc : C.rel c c') (hx : C.rel x x') :
    C.rel (fun i => Meaning.round (c i) (x i)) (Meaning.round c' x') :=
  C.choose hc (C.bind hx fun _ => C.pure _) (C.pure _)

theorem assign {a v : ι → Exec Word} {a' v' : Exec Word} (ha : C.rel a a') (hv : C.rel v v') :
    C.rel (fun i => Meaning.assign (a i) (v i)) (Meaning.assign a' v') :=
  C.bind ha fun _ => C.bind hv fun _ => C.bind (C.plain (.store _ _)) fun _ =>
    C.pure _

theorem test {a h : ι → Exec Word} {a' h' : Exec Word} (ha : C.rel a a') (hh : C.rel h h') :
    C.rel (fun i => Meaning.test (a i) (h i)) (Meaning.test a' h') :=
  C.bind ha fun _ => C.bind (C.plain (.load _)) fun _ => C.bind hh fun _ =>
    C.pure _

theorem advance {w r d : ι → Exec Word} {w' r' d' : Exec Word} (hw : C.rel w w')
    (hr : C.rel r r') (hd : C.rel d d') :
    C.rel (fun i => Meaning.advance (w i) (r i) (d i)) (Meaning.advance w' r' d') :=
  C.drop (C.assign hw (C.bind hr fun _ => C.bind (C.plain (.load _)) fun _ =>
    C.bind hd fun _ => C.pure _))

end Congruence

theorem Plain.apply (op : Source.Op) (x y : Word) : Plain (op.apply x y) := by
  cases op with
  | div | mod =>
    simp only [Source.Op.apply]
    split
    · exact .fault trivial
    · exact .pure _
  | _ => exact .pure _

theorem Settled.slotPlace (layout : Layout) (current : FrameRecord) (frame : Nat)
    (offset : Word) : Settled (TreeCode.slotPlace layout current frame offset) :=
  bind get fun _ => bind (of_plain (.followLinks _ _)) fun _ => pure _

section

variable {ι : Type} (C : Congruence ι) {types : TypeTable} {layout : Layout}
  {program : TreeCode.Program} {P : ι → Practice} {P' : Practice} (h : C.Practices P P')

theorem Congruence.symbolPlace (current : FrameRecord) (x : Symbol) :
    C.rel (fun _ => symbolPlace layout program current x)
      (TreeCode.symbolPlace layout program current x) := by
  unfold TreeCode.symbolPlace
  split
  · exact C.lost
  · split
    · exact C.pure _
    · exact C.const (Settled.fault _)
  · exact C.const (Settled.slotPlace _ _ _ _)
  · refine C.bind (C.const (Settled.slotPlace _ _ _ _)) fun slot => ?_
    split
    · exact C.plain (.load _)
    · exact C.pure _

namespace Congruence

variable (current : FrameRecord)

-- lists need `h` through their nodes only
set_option linter.unusedSectionVars false
include h

mutual

theorem meaning : ∀ (n : Node) (k : Nat),
    C.Meanings (fun i => n.meaning types layout program (P i) current k)
      (n.meaning types layout program P' current k)
  | .number _, _ | .logical _, _ | .string _, _ => C.ofValue (C.pure _)
  | .ident x, _ => C.ofPlace _ (C.symbolPlace current x)
  | .member operand _, k =>
    C.ofPlace _ (C.bind (meaning operand k).address fun _ => C.pure _)
  | .binary op left right, k => by
    have hl := fun k => meaning left k
    have hr := fun k => meaning right k
    cases op with
    | index =>
      exact C.ofPlace _ (C.bind (hl _).address fun _ => C.bind (hr k).value fun _ => C.pure _)
    | assign =>
      refine C.ofValue ?_
      split
      · exact C.lost
      · exact C.assign (hl k).address (hr _).value
    | _ =>
      exact C.ofValue (C.bind (hl k).value fun _ => C.bind (hr _).value fun _ =>
        C.plain (.apply _ _ _))
  | .unary op operand, k => by
    have hx := meaning operand k
    cases op with
    | plus => exact C.ofValue hx.value
    | neg | not => exact C.ofValue (C.bind hx.value fun _ => C.pure _)
    | addr => exact C.ofValue hx.address
    | deref => exact C.ofPlace _ hx.value
    | _ => exact C.ofValue C.lost
  | .call callee args, k => by
    refine C.ofValue ?_
    cases layout.frameOf? callee with
    | none => exact C.lost
    | some f => exact C.bind (arguments args k) fun _ => h.call _ _ _
  | .sequence items, k =>
    have he := C.ofEffect (effects items k)
    ⟨lastValue items k, he.effect, he.address⟩
  | .within body defs, k => meaning body _
  | .branch _ condition thenArm none, k =>
    C.ofEffect (C.choose (meaning condition k).value (meaning thenArm _).effect (C.pure _))
  | .branch valued condition thenArm (some elseArm), k => by
    have hc := (meaning condition k).value
    have ht := meaning thenArm (k + condition.literals)
    have he := meaning elseArm (k + condition.literals + thenArm.literals)
    have hboth := C.ofEffect (C.choose hc ht.effect he.effect)
    simp only [Node.meaning]
    split
    · exact hboth
    · exact ⟨C.choose hc ht.value he.value, hboth.effect, hboth.address⟩
  | .whileLoop condition body, k =>
    C.ofEffect (h.loop (C.round (meaning condition k).value (meaning body _).effect))
  | .forLoop counter lo hi step body, k => by
    have hcounter := fun k => (meaning counter k).address
    refine C.ofEffect (C.bind (C.drop (C.assign (hcounter k) (meaning lo _).value)) fun _ =>
      h.loop (C.round ?_ ?_))
    · exact C.test (hcounter _) (meaning hi _).value
    · exact C.bind (meaning body _).effect fun _ =>
        C.advance (hcounter _) (hcounter _) (meaning step _).value
  | .funDecl _ _ _, _ | .varDecl _, _ | .parDecl _, _ | .typeDecl _, _ => C.ofValue C.lost

theorem effects : ∀ (ns : List Node) (k : Nat),
    C.rel (fun i => Node.effects types layout program (P i) current ns k)
      (Node.effects types layout program P' current ns k)
  | [], _ => C.pure _
  | n :: rest, k => C.bind (meaning n k).effect fun _ => effects rest _

theorem lastValue : ∀ (ns : List Node) (k : Nat),
    C.rel (fun i => Node.lastValue types layout program (P i) current ns k)
      (Node.lastValue types layout program P' current ns k)
  | [], _ => C.pure _
  | [n], k => by
    have hn := meaning n k
    simp only [Node.lastValue]
    split
    · exact C.bind hn.effect fun _ => C.pure _
    · exact hn.value
  | n :: m :: rest, k =>
    C.bind (meaning n k).effect fun _ => lastValue (m :: rest) _

theorem arguments : ∀ (ns : List Node) (k : Nat),
    C.rel (fun i => Node.arguments types layout program (P i) current ns k)
      (Node.arguments types layout program P' current ns k)
  | [], _ => C.pure _
  | n :: rest, k => by
    have hn := meaning n k
    have hrest := arguments rest (k + n.literals)
    simp only [Node.arguments]
    split
    · exact C.bind hn.address fun _ => C.bind hrest fun _ => C.pure _
    · exact C.bind hn.value fun _ => C.bind hrest fun _ => C.pure _

end

end Congruence

end

section

variable {ι : Type} (C : Congruence ι) {P : ι → Practice} {P' : Practice} (h : C.Practices P P')

theorem Congruence.framed (setup : Setup) (frame : Frame) (link : Word) (args : List Word)
    {x : ι → Exec Word} {y : Exec Word} (hx : C.rel x y) :
    C.rel (fun i => framed setup frame link args (x i))
      (Exec.framed setup frame link args y) := by
  refine C.bind (C.plain (.reserve _ _ _)) fun base => ?_
  refine C.bind (C.const (Settled.fill _ _ _ _)) fun _ => ?_
  refine C.bind (C.const fun s => finished_ok _ _) fun _ => C.bind hx fun v => ?_
  have hvacate : Settled (vacate frame) :=
    .bind .get fun _ => .bind (.of_plain (.load _)) fun _ _ => finished_ok _ _
  exact C.bind (C.const hvacate) fun _ => C.pure v

include h

theorem Congruence.function {types : TypeTable} {layout : Layout} {program : TreeCode.Program}
    (f : Source.Function) (frame : FrameRecord) :
    C.rel (fun i => f.meaning types layout program (P i) frame)
      (f.meaning types layout program P' frame) := by
  have hm : C.Meanings
      (fun i => f.body.meaning types layout program (P i) frame f.literal)
      (f.body.meaning types layout program P' frame f.literal) :=
    C.meaning h frame f.body f.literal
  unfold Source.Function.meaning
  dsimp only
  split
  · exact C.bind hm.effect fun _ => C.pure _
  · exact hm.value

theorem Congruence.sourceCall (p : Source.Program) (layout : Layout) (setup : Setup)
    (frame : FrameRecord) (hops : Int) (args : List Word) :
    C.rel (fun i => p.call layout setup (P i) frame hops args)
      (p.call layout setup P' frame hops args) := by
  unfold Source.Program.call
  cases p.function? frame.decl with
  | some f =>
    refine C.bind (C.const Settled.get) fun _ => ?_
    refine C.bind (C.plain (.followLinks _ _)) fun link => ?_
    exact C.framed setup frame.frame link args (C.function h f frame)
  | none =>
    cases Builtin.ofName? frame.label.name with
    | some b => exact C.bind (C.plain .countCall) fun _ => C.plain (.builtin b args)
    | none => exact C.const (Settled.fault _)

end

end Exec

namespace Source.Program

open Exec

variable (p : Source.Program) (layout : Layout) (setup : Setup)

theorem practice_loop (n : Nat) (round : Exec (Option Unit)) :
    (p.practice layout setup n).loop round = rounds (fun _ => round) n () := by
  cases n <;> rfl

theorem loop_below {F G : Exec (Option Unit)} (h : Below F G) (n : Nat) :
    Below ((p.practice layout setup n).loop F) ((p.practice layout setup (n + 1)).loop G) := by
  intro s hs
  rw [practice_loop] at hs ⊢
  rw [practice_loop]
  have hmore : rounds (fun _ => G) n () s = rounds (fun _ => F) n () s :=
    Below.rounds (fun _ => h) n () s hs
  have hends : Finished (rounds (fun _ => G) n () s) := by rwa [hmore]
  exact (rounds_ascending (fun _ => G) () n s hends).trans hmore

/-- More fuel does not change what loops and calls do with less. -/
theorem practice_below (n : Nat) : Congruence.below.Practices
    (fun _ => p.practice layout setup n) (p.practice layout setup (n + 1)) := by
  induction n with
  | zero =>
    exact ⟨fun h => p.loop_below layout setup h 0, fun f hops args s hs => absurd rfl (hs s)⟩
  | succ n ih =>
    exact ⟨fun h => p.loop_below layout setup h (n + 1),
      Congruence.below.sourceCall ih p layout setup⟩

/-- Loops and calls with as much fuel as they need. -/
noncomputable def full : Practice where
  loop round := forever (fun _ => round) ()
  call frame hops args := limit fun n => (p.practice layout setup n).call frame hops args

theorem tends_full :
    Congruence.tends.Practices (p.practice layout setup) (p.full layout setup) where
  loop h := by
    simp only [practice_loop]
    exact Tends.rounds (fun _ => h) ()
  call frame hops args :=
    tends_limit fun n => (p.practice_below layout setup n).call frame hops args

/-- The meaning of a node with as much fuel as it needs is that of growing fuel. -/
theorem tends_meaning (f : FrameRecord) (n : Node) (i : Nat) :
    Congruence.tends.Meanings
      (fun k => n.meaning p.types layout setup.program (p.practice layout setup k) f i)
      (n.meaning p.types layout setup.program (p.full layout setup) f i) :=
  Congruence.tends.meaning (p.tends_full layout setup) f n i

/-- Calls with enough fuel satisfy the equation of the recursion. -/
theorem full_call (frame : FrameRecord) (hops : Int) (args : List Word) :
    (p.full layout setup).call frame hops args =
      p.call layout setup (p.full layout setup) frame hops args := by
  have hleft := (p.tends_full layout setup).call frame hops args
  have hright := Congruence.tends.sourceCall (p.tends_full layout setup) p layout setup frame hops
    args
  exact Tends.unique (Tends.succ hleft) hright

/-- Evaluate a program from the function of a name on, with as much fuel as that needs. -/
noncomputable def fullEvaluate (name : String) (arg : Word) : Exec Word :=
  match p.entryOf? layout name with
  | none => Exec.fault (.noEntry name)
  | some (f, frame) =>
    Exec.framed setup frame.frame 0 [arg]
      (f.meaning p.types layout setup.program (p.full layout setup) frame)

theorem tends_fullEvaluate (name : String) (arg : Word) :
    Tends (fun n => p.evaluate layout setup n name arg) (p.fullEvaluate layout setup name arg) := by
  unfold evaluate fullEvaluate
  cases p.entryOf? layout name with
  | none => exact Tends.const (Settled.fault _)
  | some e =>
    exact Congruence.tends.framed setup e.2.frame 0 [arg]
      (Congruence.tends.function (p.tends_full layout setup) e.1 e.2)

end Source.Program

end TreeCode
