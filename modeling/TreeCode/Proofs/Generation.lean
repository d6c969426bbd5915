/-
# Generated code has the meaning of its source

The tree code of a program does what evaluating the program does. `Lowers.agrees` says
so for every piece of code, given that calls do alike; here calls are compared by
induction on the depth that is left below the limit.

`Source.Program.Generated` collects what is known about generated code: every function of
the source has a chunk that is found by its label, and there are no other chunks of code.
-/

import TreeCode.Compilation
import TreeCode.Proofs.Index
import TreeCode.Proofs.Layout.Frames
import TreeCode.Proofs.Layout.Globals
import TreeCode.Proofs.Lowering.Simulation
import TreeCode.Sample

namespace TreeCode

open IR (Chunk Expr Stmt)
open Source (Node Symbol)

namespace Exec

variable {setup : Setup} {run : Block → Exec Unit} {d : Nat}

theorem occupy_sim {s t : State} (frame : Frame) (base : Word) (h : Level d s t) :
    Matches (fun _ s' _ t' => Holding (d + 1) Temp.rv 0 s' t') (occupy setup base s)
      (enter setup frame base t) := by
  have hview := h.view
  refine .ok ⟨⟨?_, congrArg (· + 1) h.depth, trivial⟩, rfl⟩
  exact {
    memory := hview.memory
    fp := rfl
    sp := rfl
    depth := congrArg (· + 1) hview.depth
    status := hview.status
    output := hview.output
    calls := congrArg (· + 1) hview.calls
    maxDepth := by simp only [hview.maxDepth, hview.depth]
    peakStack := by simp only [hview.peakStack] }

/-- Giving a frame back does what leaving it does, with the value in the temp for
results. -/
theorem vacate_sim (frame : Frame) (caller : Activation) (l : Location) (v : Word) :
    Sim (Holding (d + 1) Temp.rv v) (vacate frame >>= fun _ => pure v) (leave frame caller l)
      (fun a s b t => a = b ∧ Level d s t) := by
  rintro s t ⟨h, hv⟩
  have hload := Neutral.of_plain (.load (t.fp + frame.linkOffset))
    (fun _ b => b.temps.get Temp.rv = v) (d + 1)
  simp only [vacate, bind_assoc]
  change Matches _ ((Exec.load (s.fp + frame.linkOffset) >>= fun saved =>
      (modify fun s => { s with fp := saved, sp := s.fp + frame.size, depth := s.depth - 1 }) >>=
        fun _ => pure v) s)
    ((Exec.load (t.fp + frame.linkOffset) >>= resume frame caller l) t)
  rw [h.view.fp]
  refine Sim.bind hload (fun w w' => ?_) s t ⟨h.view, h.depth, hv⟩
  rintro s' t' ⟨rfl, h'⟩
  refine .ok ⟨h'.activation.symm, ⟨{ h'.view with fp := rfl, sp := ?_, depth := ?_ }, ?_, trivial⟩⟩
  · exact congrArg (· + frame.size) h'.view.fp
  · exact congrArg (· - 1) h'.view.depth
  · exact congrArg (· - 1) h'.depth

/-- Evaluating a body in a new frame does what calling a function does whose code does
alike. Bodies need not be compared at the depth limit. -/
theorem framed_sim {f : Function} {x : Exec Word}
    (hbody : (d : Int) < setup.maxDepth → Sim (Holding (d + 1) Temp.rv 0) x (run f.body)
      (fun v s _ t => Holding (d + 1) Temp.rv v s t)) (link : Word) (args : List Word) :
    Follows d (framed setup f.frame link args x) (invoke setup run f link args) := by
  unfold framed invoke
  refine Sim.bind (reserve_sim (Setup.Alike.refl setup) f.frame args.length) fun base base' => ?_
  refine Sim.of_imp (p := (d : Int) < setup.maxDepth ∧ base = base')
    (fun s t h => ⟨h.1, h.2.1⟩) ?_
  rintro ⟨hdepth, rfl⟩
  refine Sim.mono (P := Level d) ?_ (fun _ _ h => h.2.2) fun _ _ _ _ h => h
  refine Sim.bind (fill_sim f.frame base link args _ d) fun _ _ s t h => ?_
  change Matches _
    ((occupy setup base >>= fun _ => x >>= fun v => vacate f.frame >>= fun _ => pure v) s)
    ((enter setup f.frame base >>= fun _ => run f.body >>= fun _ =>
      leave f.frame t.activation t.location) t)
  have hrest := Sim.bind (hbody hdepth) fun v _ => vacate_sim f.frame t.activation t.location v
  exact Sim.bind (P := fun s' t' => s' = s ∧ t' = t) (fun s' t' hst => by
    obtain ⟨rfl, rfl⟩ := hst
    exact occupy_sim f.frame base h.2) (fun _ _ => hrest) s t ⟨rfl, rfl⟩

end Exec

section

variable {p : Source.Program} {layout : Layout} {setup : Setup} {d : Nat}

open Exec (Holding Sim full)

/-- The chunk of a function does what its body means, and leaves the result in the temp
for results. -/
theorem LowersBody.sim (hcall : Answers p layout setup d) {f : Source.Function} {g : FrameRecord}
    {s s' : LowerState} {code : Stmt} (h : LowersBody p.types layout f g s s' code)
    (hs : Temp.firstFree ≤ s.supply.temps) (hlit : setup.program.Literals f.literal (s.since s')) :
    Sim (Holding d Temp.rv 0)
      (f.meaning p.types layout setup.program (p.full layout setup) g)
      (full setup (.ofStmt code) 0) (fun v s _ t => Holding d Temp.rv v s t) := by
  cases h with
  | procedure hvoid hbody =>
    have hrv : Temp.rv.index < s.supply.temps :=
      Int.ofNat_lt.2 (Nat.lt_of_lt_of_le (by decide) hs)
    have hkeeps : Exec.Keeps (Exec.tempValue Temp.rv) (full setup (.ofStmt code) 0) := by
      refine Exec.full_keeps setup ?_ 0
      rw [Stmt.effectsAll_flatten]
      exact hbody.not_assigned hrv
    have hagrees := (hbody.agrees hcall).holds hs f.literal hlit
    simp only [Source.Function.meaning, hvoid, if_true]
    have hsim := Sim.bind (f := fun _ => pure 0) (g := pure) (hagrees.keeping hkeeps 0)
      (R := fun v s _ t => Holding d Temp.rv v s t) fun _ _ => by
        rintro s t ⟨⟨-, h⟩, hv⟩
        exact .ok ⟨h, hv⟩
    rwa [bind_pure] at hsim
  | function hvoid hbody =>
    have hagrees := (hbody.agrees hcall).holds hs f.literal hlit
    simp only [Source.Function.meaning, hvoid, Bool.false_eq_true, if_false]
    change Sim _ _ (full setup (Block.ofList [.move (.temp Temp.rv) _]) 0) _
    rw [Exec.full_ofList_move]
    exact Sim.mono (hagrees.write (by decide)) (fun _ _ h => h.1) fun _ _ _ _ h => h

end

namespace Source.Program

/-- What is known about the generated code of a program. -/
structure Generated (p : Source.Program) (layout : Layout) (program : TreeCode.Program) :
    Prop where
  emitted : ∀ f ∈ p.functions, Emitted p.types layout program program.chunks f
  function? : ∀ frame code, .code frame code ∈ program.chunks →
    program.function? frame.label = some ⟨frame, .ofStmt code⟩
  lookup? : ∀ frame code, .code frame code ∈ program.chunks →
    program.lookup? frame.label.name = some ⟨frame, .ofStmt code⟩
  origin : ∀ f ∈ program.functions,
    ∃ src ∈ p.functions, ∃ g, layout.frameOf? src.decl = some g ∧ f.frame = g.frame
  labels : ∀ f g, f ∈ layout.frames → g ∈ layout.frames → f.label.name = g.label.name →
    f.decl = g.decl

theorem generated_of_build {p : Source.Program} {layout : Layout} {laid : Supply} {t : TreeForm}
    (hlayout : Layout.build .empty p = .ok (layout, laid)) (ht : p.generate layout laid = .ok t) :
    p.Generated layout t.program := by
  obtain ⟨⟨chunks, supply⟩, hlower, ht⟩ := Outcome.of_bind ht
  obtain ⟨program, hindex, ht⟩ := Outcome.of_bind ht
  cases ht
  have hlower := Lowers.of_program (Outcome.of_mapError hlower)
  have hindex := Outcome.of_mapError hindex
  have hchunks : program.chunks = chunks := by rw [TreeCode.Program.ofChunks_eq_ok hindex]
  have htraverses : Traverses p.types layout program chunks ⟨laid, []⟩ ⟨supply, chunks⟩
      (Node.literalsIn p.defs) (Node.functionsIn p.defs) := hlower.traverses
  refine ⟨?_, ?_, ?_, ?_, fun f g => Layout.frame_eq_of_label hlayout⟩
  · rw [hchunks]
    exact htraverses.emitted (Nat.le_of_eq (Layout.temps_of_build hlayout).symm)
      (List.Subset.refl _) 0 (TreeCode.Program.literals_of_chunks hindex)
  · rw [hchunks]
    exact fun _ _ => TreeCode.Program.function?_of_code hindex
  · rw [hchunks]
    exact fun _ _ => TreeCode.Program.lookup?_of_code hindex
  · intro f hf
    obtain ⟨body, hmem, -⟩ := TreeCode.Program.exists_code_of_mem_functions hindex hf
    rcases htraverses.origin f.frame body hmem with hmem | horigin
    · cases hmem
    · exact horigin 0

namespace Generated

variable {p : Source.Program} {layout : Layout} {program : TreeCode.Program}
  (h : p.Generated layout program)

include h

/-- The chunk of a function is found by its label. -/
theorem exists_code {f : Source.Function} (hf : f ∈ p.functions) {g : FrameRecord}
    (hg : layout.frameOf? f.decl = some g) :
    ∃ code supply s', program.function? g.label = some ⟨g.frame, .ofStmt code⟩ ∧
      program.lookup? g.label.name = some ⟨g.frame, .ofStmt code⟩ ∧
      Temp.firstFree ≤ supply.temps ∧ LowersBody p.types layout f g ⟨supply, []⟩ s' code ∧
      program.Literals f.literal (literalLabels s'.chunks) := by
  obtain ⟨g', code, supply, s', hg', hs, hbody, hlit, hmem⟩ := h.emitted f hf
  cases hg.symm.trans hg'
  exact ⟨code, supply, s', h.function? _ _ hmem, h.lookup? _ _ hmem, hs, hbody, hlit⟩

/-- A frame without a function has no code. -/
theorem function?_eq_none {callee : Symbol} {g : FrameRecord} (hg : layout.frameOf? callee = some g)
    (hnone : p.function? g.decl = none) : program.function? g.label = none := by
  refine List.find?_eq_none.2 fun f hf heq => ?_
  obtain ⟨src, hsrc, g', hg', hframe⟩ := h.origin f hf
  have hlabel : g'.label = g.label := by
    have hlabel : f.frame.label = g.label := beq_iff_eq.1 heq
    rwa [hframe] at hlabel
  have hdecl := h.labels g' g (Array.mem_of_find?_eq_some hg') (Array.mem_of_find?_eq_some hg)
    (congrArg Label.name hlabel)
  refine List.find?_eq_none.1 hnone src hsrc (beq_iff_eq.2 ?_)
  rw [← hdecl, Layout.id_of_frameOf? hg']

/-- There is code under a name exactly if there is a function. -/
theorem lookup?_eq_none {name : String} (hnone : p.entryOf? layout name = none) :
    program.lookup? name = none := by
  refine List.find?_eq_none.2 fun f hf heq => ?_
  obtain ⟨src, hsrc, g, hg, hframe⟩ := h.origin f hf
  have hname : g.label.name = name := by
    have hname : f.frame.label.name = name := beq_iff_eq.1 heq
    rwa [hframe] at hname
  have hentry := List.findSome?_eq_none_iff.1 hnone src hsrc
  simp [hg, hname] at hentry

end Generated

end Source.Program

section

variable {p : Source.Program} {layout : Layout} {setup : Setup}
  (h : p.Generated layout setup.program)

open Exec (Follows)

include h

/-- Calls do alike at every depth. -/
theorem Source.Program.Generated.answers (d : Nat) : Answers p layout setup d := by
  -- by induction on the number of calls that still fit below the limit
  obtain ⟨r, hr⟩ : ∃ r : Nat, (setup.maxDepth - d).toNat = r := ⟨_, rfl⟩
  induction r using Nat.strongRecOn generalizing d with
  | ind r ih =>
    intro callee g hg hops args
    rw [p.full_call layout setup]
    unfold Source.Program.call Exec.call
    cases hf : p.function? g.decl with
    | none =>
      rw [h.function?_eq_none hg hf]
      dsimp only
      cases Builtin.ofName? g.label.name with
      | none => exact .plain (.fault trivial)
      | some b => exact .plain (.bind .countCall fun _ => Exec.Plain.builtin b args)
    | some f =>
      have hfound := List.find?_some hf
      have hid : f.decl.id = callee.id :=
        (beq_iff_eq.1 hfound).trans (Layout.id_of_frameOf? hg)
      obtain ⟨code, supply, s', hfun, -, hs, hbody, hlit⟩ :=
        h.exists_code (List.mem_of_find?_eq_some hf) ((Layout.frameOf?_of_id hid).trans hg)
      rw [hfun]
      intro s t hst
      have hframed : ∀ link, Follows d
          (Exec.framed setup g.frame link args
            (f.meaning p.types layout setup.program (p.full layout setup) g))
          (Exec.invoke setup (Exec.fullRun setup) ⟨g.frame, .ofStmt code⟩ link args) :=
        fun link => Exec.framed_sim (f := ⟨g.frame, .ofStmt code⟩) (fun hdepth =>
          hbody.sim (ih _ (by omega) (d + 1) rfl) hs hlit) link args
      have hlinks := (Follows.plain (d := d)
        (.followLinks (Int64.ofInt hops).toInt.toNat t.fp)).bind hframed
      change Exec.Matches _ ((Exec.followLinks _ s.fp >>= fun link => _) s)
        ((Exec.followLinks _ t.fp >>= fun link => _) t)
      rw [hst.view.fp]
      exact hlinks s t hst

/-- Evaluating a program does what running its code does. -/
theorem Source.Program.Generated.fullEvaluate_sim (name : String) (arg : Word) (d : Nat) :
    Follows d (p.fullEvaluate layout setup name arg) (Exec.fullEnter setup name arg) := by
  unfold Source.Program.fullEvaluate Exec.fullEnter
  cases hentry : p.entryOf? layout name with
  | none =>
    rw [h.lookup?_eq_none hentry]
    exact .refl (.fault _)
  | some e =>
    obtain ⟨f, hf, hmatch⟩ := List.exists_of_findSome?_eq_some hentry
    split at hmatch
    next g hg =>
      split at hmatch
      next hname =>
        cases hmatch
        obtain ⟨code, supply, s', -, hfun, hs, hbody, hlit⟩ := h.exists_code hf hg
        rw [← hname, hfun]
        exact Exec.framed_sim (f := ⟨g.frame, .ofStmt code⟩)
          (fun _ => hbody.sim (h.answers (d + 1)) hs hlit) 0 [arg]
      next => cases hmatch
    next => cases hmatch

end

/-- Code generation preserves meaning. A machine for the generated code of a program
shows a behaviour exactly if evaluating the program on the state of that machine does:
the same value or the same kind of failure, the same output, the same memory and the same
counters of calls and stack. -/
theorem Source.Program.tree_behaves_iff_evaluate {p : Source.Program} {layout : Layout}
    {laid : Supply} {t : TreeForm} (hlayout : Layout.build .empty p = .ok (layout, laid))
    (ht : p.generate layout laid = .ok t) {o : Options} {m : Machine}
    (hm : Machine.new t.program o = .ok m) (name : String) (arg : Word) (b : Behaviour) :
    m.Behaves name arg b ↔
      ∃ fuel, Behaviour.ofResult? (p.evaluate layout m.setup fuel name arg m.startState) =
        some b := by
  obtain ⟨hsetup, hstarted⟩ := Machine.new_eq_ok hm
  have hgenerated : p.Generated layout m.setup.program := by
    rw [hsetup]
    exact generated_of_build hlayout ht
  have hmatch := hgenerated.fullEvaluate_sim name arg m.startState.depth m.startState m.startState
    ⟨SameView.refl _, rfl, trivial⟩
  rw [Machine.behaves_iff hstarted, ← Behaviour.ofResult?_of_matches hmatch]
  exact (Behaviour.exists_iff_of_tends (p.tends_fullEvaluate layout m.setup name arg) _ b).symm

/-- Variables are found through the static links, across recursion, in the source and in
its code. -/
theorem Sample.nested_evaluates :
    ∃ layout laid t m b, Layout.build .empty nested = .ok (layout, laid) ∧
      nested.generate layout laid = .ok t ∧ Machine.new t.program ⟨160, 0, false⟩ = .ok m ∧
      b.ending = .returned 1 ∧
      (∃ fuel, Behaviour.ofResult? (nested.evaluate layout m.setup fuel entryName 1 m.startState) =
        some b) ∧ m.Behaves entryName 1 b := by
  have hrun : ((Layout.build .empty nested).toOption.bind fun l =>
      (nested.generate l.1 l.2).toOption.bind fun t =>
        (Machine.new t.program ⟨160, 0, false⟩).toOption.bind fun m =>
          (Behaviour.ofResult? (nested.evaluate l.1 m.setup 10 entryName 1 m.startState)).map
            (·.ending)) = some (.returned 1) := by
    decide +kernel
  obtain ⟨⟨layout, laid⟩, hlayout, hrun⟩ := Outcome.of_toOption_bind hrun
  obtain ⟨t, ht, hrun⟩ := Outcome.of_toOption_bind hrun
  obtain ⟨m, hm, hrun⟩ := Outcome.of_toOption_bind hrun
  obtain ⟨b, hb, hending⟩ := Option.map_eq_some_iff.1 hrun
  exact ⟨layout, laid, t, m, b, hlayout, ht, hm, hending, ⟨10, hb⟩,
    (Source.Program.tree_behaves_iff_evaluate hlayout ht hm entryName 1 b).2 ⟨10, hb⟩⟩

end TreeCode
