/-
# Programs without loops stop

A program without loops may call itself without end, and it may overwrite whatever memory
it likes; its runs stop all the same. Inside a function control only moves ahead, and the
limit on the depth of calls bounds how far functions can call each other: the depth is
counted by the machine and not kept in memory.

`Exec.Stops` follows a computation together with the depth. Calls are dealt with by
induction on the depth that is left below the limit, code by induction on its structure,
and a block by induction on what is left of it.
-/

import TreeCode.Proofs.Lowering.Forward
import TreeCode.Proofs.Machine.Accord
import TreeCode.Proofs.Machine.Ends
import TreeCode.Proofs.Wiring

namespace TreeCode

open IR (Expr Stmt)

namespace Exec

variable {α β : Type}

/-- At depth `d`, a computation ends; if it yields a value, then at depth `e`. -/
def Stops (d e : Nat) (x : Exec α) : Prop :=
  ∀ s, s.depth = d → Finished (x s) ∧ ∀ a t, x s = .ok a t → t.depth = e

namespace Stops

variable {d e e' : Nat}

theorem bind {x : Exec α} {f : α → Exec β} (hx : Stops d e x)
    (hf : ∀ s a t, s.depth = d → x s = .ok a t → Stops e e' (f a)) : Stops d e' (x >>= f) := by
  intro s hs
  obtain ⟨hfinished, hdepth⟩ := hx s hs
  cases h : x s with
  | ok a t =>
    rw [bind_of_ok h]
    exact hf s a t hs h t (hdepth a t h)
  | error stop t =>
    rw [h] at hfinished
    rw [bind_of_error h]
    exact ⟨finished_error_iff.2 (finished_error_iff.1 hfinished), fun _ _ heq => nomatch heq⟩

/-- A step that leaves the bookkeeping of calls alone. -/
theorem of_settled {x : Exec α} (hx : Settled x) (hquiet : Quiescent x) : Stops d d x := by
  intro s hs
  refine ⟨hx s, fun a t h => ?_⟩
  have hcalm := (hquiet s).depth
  rw [h, hs] at hcalm
  exact hcalm

theorem of_plain {x : Exec α} (h : Plain x) : Stops d d x :=
  of_settled (.of_plain h) (.of_plain h)

theorem pure (a : α) : Stops d d (Pure.pure a : Exec α) :=
  of_plain (.pure a)

theorem defect (cause : Defect) : Stops d e (defect cause : Exec α) :=
  fun s _ => ⟨Settled.defect cause s, fun _ _ h => nomatch h⟩

theorem fault (cause : FaultCause) : Stops d e (fault cause : Exec α) :=
  fun s _ => ⟨Settled.fault cause s, fun _ _ h => nomatch h⟩

theorem get : Stops d d (MonadState.get : Exec State) :=
  of_settled .get .get

theorem enter (setup : Setup) (frame : Frame) (base : Word) :
    Stops d (d + 1) (enter setup frame base) := by
  intro s hs
  refine ⟨Settled.enter setup frame base s, fun a t h => ?_⟩
  cases h
  exact congrArg (· + 1) hs

theorem leave (frame : Frame) (caller : Activation) (l : Location) :
    Stops (d + 1) d (leave frame caller l) := by
  refine get.bind fun _ _ _ _ _ => (of_plain (.load _)).bind fun _ _ _ _ _ => ?_
  intro s hs
  refine ⟨Settled.resume frame caller l _ s, fun a t h => ?_⟩
  cases h
  exact congrArg (· - 1) hs

variable {setup : Setup} {run : Block → Exec Unit}

/-- A call stops if the body does one level deeper. At the limit the body is not run. -/
theorem invoke {f : Function}
    (hbody : (d : Int) < setup.maxDepth → Stops (d + 1) (d + 1) (run f.body)) (link : Word)
    (args : List Word) : Stops d d (invoke setup run f link args) := by
  apply (of_plain (.reserve setup f.frame args.length)).bind
  intro s base t hs hreserve
  have hlimit : (d : Int) < setup.maxDepth := by
    unfold Exec.reserve at hreserve
    dsimp only at hreserve
    split at hreserve
    · cases hreserve
    · omega
  apply (of_settled (.fill f.frame base link args) (.fill _ _ _ _)).bind
  intro _ _ _ _ _
  refine get.bind fun _ _ _ _ _ => get.bind fun _ _ _ _ _ => ?_
  refine (enter setup f.frame base).bind fun _ _ _ _ _ => ?_
  exact (hbody hlimit).bind fun _ _ _ _ _ => leave _ _ _

theorem call (h : ∀ f ∈ setup.program.functions, ∀ link args,
      Stops d d (Exec.invoke setup run f link args)) (l : Label) (args : List Word) :
    Stops d d (call setup run l args) := by
  unfold Exec.call
  cases hf : setup.program.function? l with
  | some f =>
    cases args with
    | nil => exact defect _
    | cons hops args =>
      refine get.bind fun _ _ _ _ _ => ?_
      refine (of_plain (.followLinks _ _)).bind fun _ _ _ _ _ => ?_
      exact h f (List.mem_of_find?_eq_some hf) _ _
  | none =>
    cases Builtin.ofName? l.name with
    | none => exact fault _
    | some b =>
      refine (of_plain .countCall).bind fun _ _ _ _ _ => ?_
      cases args with
      | nil => exact defect _
      | cons _ args => exact of_plain (.builtin b args)

end Stops

/-- Control moves ahead in a block whose jumps lead forward. -/
theorem lt_of_goto {setup : Setup} {run : Block → Exec Unit} {code : List Stmt}
    (h : Block.Ahead code) {pc next : Nat} {stmt : Stmt} (hstmt : code[pc]? = some stmt)
    {l? : Option Label} {s t s' t' : State} (hact : act setup run stmt s = .ok l? t)
    (hgoto : goto (.ofList code) pc l? s' = .ok next t') : pc < next := by
  cases l? with
  | none =>
    cases hgoto
    exact Nat.lt_succ_self pc
  | some l =>
    simp only [goto, target] at hgoto
    cases hi : Block.position? (.ofList code) l with
    | none =>
      rw [hi] at hgoto
      cases hgoto
    | some i =>
      rw [hi] at hgoto
      cases hgoto
      exact h.lt_position? hstmt (mem_targets_of_act setup run hact) hi

/-- A block whose jumps lead forward stops if its instructions do. -/
theorem full_stops {setup : Setup} {code : List Stmt} (h : Block.Ahead code) {d : Nat}
    (hact : ∀ stmt ∈ code, Stops d d (act setup (fullRun setup) stmt)) (pc : Nat) :
    Stops d d (full setup (.ofList code) pc) := by
  induction hleft : code.length - pc using Nat.strongRecOn generalizing pc with
  | _ left ih =>
    rw [full_eq, Block.getElem?_ofList]
    cases hstmt : code[pc]? with
    | none => exact .pure ()
    | some stmt =>
      have hlt : pc < code.length := (List.getElem?_eq_some_iff.1 hstmt).1
      dsimp only
      rw [step_eq, bind_assoc]
      apply (hact stmt (List.mem_of_getElem? hstmt)).bind
      intro s l? t _ hact
      have hgoto : Stops d d (goto (.ofList code) pc l?) := by
        cases l? with
        | none => exact .pure _
        | some l => exact .of_plain (.target _ l)
      apply hgoto.bind
      intro s' next t' _ hnext
      have hahead := lt_of_goto h hstmt hact hnext
      exact ih (code.length - next) (by omega) next rfl

section

variable {setup : Setup} {d : Nat} (hcall : ∀ l args, Stops d d (call setup (fullRun setup) l args))

-- only expressions need `hcall` themselves
set_option linter.unusedSectionVars false
include hcall

mutual

/-- Evaluation stops where calls do, by the structure of the expression. -/
theorem eval_stops : ∀ e : Expr, e.Forward → Stops d d (eval setup (fullRun setup) e)
  | .const _, _ => .pure _
  | .name l, _ => by
    unfold eval
    cases setup.program.address? l with
    | some _ => exact .pure _
    | none => exact .fault _
  | .temp t, _ => .of_settled (.readTemp t) (.readTemp t)
  | .mem a, h => (eval_stops a h).bind fun _ v _ _ _ => .of_plain (.load v)
  | .binop op x y, h =>
    (eval_stops x h.1).bind fun _ v _ _ _ => (eval_stops y h.2).bind
      fun _ w _ _ _ => .of_plain (.binary op v w)
  | .unop op x, h =>
    (eval_stops x h).bind fun _ v _ _ _ => .of_plain (.unary op v)
  | .call l args, h => (evalAll_stops args h).bind fun _ vs _ _ _ => hcall l vs
  | .eseq s e, h =>
    (Stops.of_settled .location .location).bind fun _ l _ _ _ =>
      (full_stops h.1.2 (act_stops s h.1.1) 0).bind fun _ _ _ _ _ =>
        (Stops.of_settled (.setLocation l) (.setLocation l)).bind fun _ _ _ _ _ =>
          eval_stops e h.2

theorem evalAll_stops : ∀ es : List Expr, Expr.ForwardAll es →
    Stops d d (evalAll setup (fullRun setup) es)
  | [], _ => .pure _
  | e :: es, h =>
    (eval_stops e h.1).bind fun _ _ _ _ _ =>
      (evalAll_stops es h.2).bind fun _ _ _ _ _ => .pure _

/-- The instructions of a statement stop. -/
theorem act_stops : ∀ s : Stmt, s.Forward → ∀ stmt ∈ s.flatten,
    Stops d d (act setup (fullRun setup) stmt)
  | .absent, _, _, hmem => nomatch hmem
  | .exp e, h, _, hmem | .cjump e _ _, h, _, hmem => by
    cases List.mem_singleton.1 hmem
    exact (eval_stops e h).bind fun _ _ _ _ _ => .pure _
  | .move target e, h, _, hmem => by
    cases List.mem_singleton.1 hmem
    refine Stops.bind ?_ fun _ _ _ _ _ => .pure _
    have he := eval_stops e h.2
    cases target with
    | temp t =>
      by_cases ht : t = Temp.fp
      · rw [move, if_pos ht]
        exact .defect _
      · rw [move, if_neg ht]
        exact he.bind fun _ v _ _ _ => .of_settled (.writeTemp t v) (.writeTemp t v)
    | mem a =>
      exact (eval_stops a h.1).bind fun _ v _ _ _ => he.bind fun _ w _ _ _ =>
        .of_plain (.store v w)
    | _ => exact .defect _
  | .seq ss, h, stmt, hmem => actAll_stops ss h stmt hmem
  | .jump _, _, _, hmem | .label _, _, _, hmem => by
    cases List.mem_singleton.1 hmem
    exact .pure _

theorem actAll_stops : ∀ ss : List Stmt, Stmt.ForwardAll ss →
      ∀ stmt ∈ Stmt.flattenAll ss, Stops d d (act setup (fullRun setup) stmt)
  | [], _, _, hmem => nomatch hmem
  | s :: ss, h, stmt, hmem => by
    rcases List.mem_append.1 hmem with hmem | hmem
    · exact act_stops s h.1 stmt hmem
    · exact actAll_stops ss h.2 stmt hmem

end

end

end Exec

/-- The code of every function of a program only runs ahead. -/
def Program.Forward (p : Program) : Prop :=
  ∀ f ∈ p.functions, ∃ code : Stmt, f.body = .ofStmt code ∧ code.Forward ∧
    Block.Ahead code.flatten

namespace Exec

/-- Calls stop, by induction on the depth that is left below the limit. -/
theorem invoke_stops {setup : Setup} (hp : setup.program.Forward) (left : Nat) :
    ∀ {d : Nat}, setup.maxDepth ≤ d + left → ∀ f ∈ setup.program.functions, ∀ link args,
      Stops d d (invoke setup (fullRun setup) f link args) := by
  induction left with
  | zero =>
    intro d hleft f _ link args
    apply Stops.invoke
    intro hlimit
    omega
  | succ left ih =>
    intro d hleft f hf link args
    apply Stops.invoke
    intro _
    obtain ⟨code, hbody, hforward, hahead⟩ := hp f hf
    have hcall : ∀ l args, Stops (d + 1) (d + 1) (call setup (fullRun setup) l args) :=
      Stops.call (ih (by omega))
    rw [hbody]
    exact full_stops hahead (act_stops hcall code hforward) 0

/-- A first call stops. -/
theorem finished_fullEnter {setup : Setup} (hp : setup.program.Forward) (name : String)
    (arg : Word) {s : State} (hs : s.depth = 0) : Finished (fullEnter setup name arg s) := by
  unfold fullEnter
  cases hf : setup.program.lookup? name with
  | none => exact Settled.fault _ s
  | some f =>
    have hstops := invoke_stops hp setup.maxDepth.toNat (d := 0) (by omega) f
      (List.mem_of_find?_eq_some hf) 0 [arg]
    exact (hstops s hs).1

end Exec

/-- A machine for code that only runs ahead has a behaviour. -/
theorem Machine.exists_behaves {code : Program} (hcode : code.Forward) {o : Options} {m : Machine}
    (hm : new code o = .ok m) (name : String) (arg : Word) : ∃ b, m.Behaves name arg b := by
  obtain ⟨hsetup, hstarted⟩ := new_eq_ok hm
  obtain ⟨memory, hstate⟩ := state_of_new hm
  have hprogram : m.setup.program = code := by
    rw [hsetup]
    rfl
  have hdepth : m.startState.depth = 0 := by
    rw [startState, hstate]
    rfl
  have hfinished : Exec.Finished (Exec.fullEnter m.setup name arg m.startState) :=
    Exec.finished_fullEnter (hprogram ▸ hcode) name arg hdepth
  simp only [behaves_iff hstarted]
  cases hresult : Exec.fullEnter m.setup name arg m.startState with
  | ok value s => exact ⟨_, rfl⟩
  | error stop s =>
    rw [hresult] at hfinished
    cases stop with
    | fault _ | defect _ => exact ⟨_, rfl⟩
    | outOfFuel => exact absurd rfl (hfinished s)

/-- A program without loops is lowered to code that only runs ahead. -/
theorem Compilation.Stages.forward_tree {p : Source.Program} {c : Compilation}
    {laid lowered : Supply} (h : Stages p c laid lowered) (hp : p.LoopFree) : c.tree.Forward := by
  intro f hf
  obtain ⟨code, hmem, hbody⟩ := Program.exists_code_of_mem_functions h.tree hf
  refine ⟨code, hbody, ?_⟩
  rcases ((Lowers.of_program h.lower).chunked []).origin f.frame code hmem with
    hnone | ⟨d, hd, hcoded⟩
  · cases hnone
  · generalize f.frame = frame at hcoded
    cases hcoded with
    | intro _ hlowers =>
      exact hlowers.forward fun n hn => hp n (Source.Program.own_subset hd rfl hn)

/-- Programs without loops stop. However their functions call each other, and whatever memory
they overwrite, each run of each of their two forms ends, in one way. -/
theorem Source.Program.loopFree_ends {p : Source.Program} {c : Compilation}
    (h : p.compile = .ok c) (hp : p.LoopFree) :
    ∀ code ∈ [c.tree, c.linear], ∀ (o : Options) (m : Machine), Machine.new code o = .ok m →
      ∀ (name : String) (arg : Word), ∃! r, m.Ends name arg r := by
  intro code hcode o m hm name arg
  obtain ⟨laid, lowered, hstages⟩ := Compilation.stages_of_compile h
  have htree := hstages.forward_tree hp
  have hbehaves : ∃ b, m.Behaves name arg b := by
    rcases List.mem_cons.1 hcode with rfl | hcode
    · exact Machine.exists_behaves htree hm name arg
    · cases List.mem_singleton.1 hcode
      -- the linear form behaves like the tree form
      have hk : 2 ≤ lowered.temps := firstFree_le_of_lower hstages.layout hstages.lower
      have hnew := Machine.new_of_forms hstages.forms o
      cases htreeNew : Machine.new c.tree o with
      | error e =>
        rw [htreeNew, hm] at hnew
        cases hnew
      | ok m' =>
        obtain ⟨b, hb⟩ := Machine.exists_behaves htree htreeNew name arg
        exact ⟨b, (Machine.behaves_of_forms hstages.forms hk htreeNew hm name arg b).1 hb⟩
  obtain ⟨b, hb⟩ := hbehaves
  obtain ⟨r, hr, -⟩ := Machine.behaves_iff_ends.1 hb
  exact ⟨r, hr, fun r' hr' => hr.unique (Machine.new_eq_ok hm).2 hr'⟩

/-- A function that calls itself without end stops in both forms. -/
theorem Sample.runaway_ends :
    ∃ c m m', runaway.compile = .ok c ∧ runaway.LoopFree ∧
      Machine.new c.tree ⟨96, 0, false⟩ = .ok m ∧ Machine.new c.linear ⟨96, 0, false⟩ = .ok m' ∧
      (∃! r, m.Ends entryName 0 r) ∧ ∃! r, m'.Ends entryName 0 r := by
  have hmade : (runaway.compile.toOption.bind fun c =>
      (Machine.new c.tree ⟨96, 0, false⟩).toOption.bind fun _ =>
        (Machine.new c.linear ⟨96, 0, false⟩).toOption.map fun _ => ()) = some () := by
    decide +kernel
  have hfree : runaway.LoopFree := by decide +kernel
  obtain ⟨c, hc, hmade⟩ := Outcome.of_toOption_bind hmade
  obtain ⟨m, hm, hmade⟩ := Outcome.of_toOption_bind hmade
  obtain ⟨m', hm', -⟩ := Outcome.of_toOption_map hmade
  have hends := Source.Program.loopFree_ends hc hfree
  exact ⟨c, m, m', hc, hfree, hm, hm', hends c.tree (by simp) _ m hm entryName 0,
    hends c.linear (by simp) _ m' hm' entryName 0⟩

end TreeCode
