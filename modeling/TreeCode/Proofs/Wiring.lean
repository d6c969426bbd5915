/-
# Generated code is well wired

What lowering yields is complete and refers to nothing that is not there. Every function
with a body has a chunk of code, labels are placed once in the whole program, jumps stay
inside their block, names have data, and calls go to frames of the layout. A run can
therefore miss a label in two ways only: it is asked for a name that no function with a body
has, or it calls an external function that the machine does not provide.
-/

import TreeCode.Proofs.Compilation
import TreeCode.Proofs.Index
import TreeCode.Proofs.Layout.Origin
import TreeCode.Proofs.Lowering.Origin
import TreeCode.Proofs.Machine.Resolution

namespace TreeCode

open IR (Chunk Effect Expr Stmt)
open IR.Effect (jumps labels)

/-- Whether there is data under a label. -/
def HasData (chunks : List Chunk) (l : Label) : Prop :=
  ∃ size init, .data l size init ∈ chunks

/-- Whether a label is that of a function in the layout, with code if it has a body. -/
def HasFunction (layout : Layout) (chunks : List Chunk) (l : Label) : Prop :=
  ∃ g ∈ layout.frames, g.label = l ∧
    (g.isExternal = false → ∃ body, .code g.frame body ∈ chunks)

/-- Chunks for all functions of a layout that refer to nothing that is not there. Temps are
drawn from `first` on, up to `last`. -/
structure Wired (layout : Layout) (chunks : List Chunk) (first last : Nat) : Prop where
  /-- Every function with a body has code. -/
  functions : ∀ g ∈ layout.frames, g.isExternal = false → ∃ body, .code g.frame body ∈ chunks
  /-- A label that is placed or jumped to is placed once among all chunks. -/
  once : ∀ l, l ∈ labels (codeEffects chunks) ∨ l ∈ jumps (codeEffects chunks) →
    (labels (codeEffects chunks)).count l = 1
  /-- Jumps stay inside their block, names have data, and moves go to memory or to temps
  other than the frame pointer. -/
  bodies : ∀ frame body, .code frame body ∈ chunks →
    body.Sound (HasData chunks) last ∧ Block.Closed body.flatten
  calls : ∀ l hops, .call l hops ∈ codeEffects chunks → HasFunction layout chunks l
  /-- The temps that may occur are the two registers and those that were drawn. -/
  temps : ∀ t : Temp, t.Below last ↔
    t = Temp.fp ∨ t = Temp.rv ∨ ((first : Int) ≤ t.index ∧ t.index < last)

variable {layout : Layout} {chunks : List Chunk} {p : Program} {first last k : Nat} {f : Fault}
  {name : String} {arg : Word} {c : FaultCause}

/-- The effects of a chunk are among those of all code. -/
theorem mem_codeEffects {e : Effect} :
    e ∈ codeEffects chunks ↔ ∃ frame body, .code frame body ∈ chunks ∧ e ∈ body.effects := by
  constructor
  · intro h
    obtain ⟨c, hc, he⟩ := List.mem_flatMap.1 h
    cases c with
    | code frame body => exact ⟨frame, body, hc, he⟩
    | data l size init => cases he
  · rintro ⟨frame, body, hmem, he⟩
    exact List.mem_flatMap.2 ⟨_, hmem, he⟩

theorem IR.Effect.mem_jumps {es : List Effect} {l : Label} :
    l ∈ jumps es ↔ ∃ e ∈ es, l ∈ e.targets :=
  List.mem_flatMap

theorem Temp.below_iff (hk : firstFree ≤ k) (t : Temp) :
    t.Below k ↔ t = fp ∨ t = rv ∨ ((firstFree : Int) ≤ t.index ∧ t.index < k) := by
  obtain ⟨i⟩ := t
  simp only [Below, fp, rv, firstFree, mk.injEq] at hk ⊢
  omega

section

variable {p : Source.Program} {layout : Layout} {laid supply : Supply} {chunks : List Chunk}

variable (hlayout : Layout.build .empty p = .ok (layout, laid))
  (hlower : p.lower layout laid = .ok (chunks, supply))
include hlayout hlower

/-- A static place has data. -/
theorem hasData_of_global {x : Source.Symbol} {l : Label} {size : Word}
    (hx : layout.access? x = some (.global l size)) : HasData chunks l :=
  ⟨size, [], data_of_global hlayout hlower hx⟩

/-- A function with a body has code. -/
theorem exists_code {g : FrameRecord} (hmem : g ∈ layout.frames) (hbody : g.isExternal = false) :
    ∃ body, .code g.frame body ∈ chunks := by
  -- the frame belongs to a declared function, and that function has been lowered
  obtain ⟨i, hi⟩ := Array.getElem?_of_mem hmem
  obtain ⟨r, outer, hr, hdecl, hin⟩ :=
    (Layout.originates_of_build hlayout).frames i g.bare (by
      rw [LayoutState.getElem?_bare, hi]
      rfl)
  obtain ⟨j, f, hj, hf, -, hdescribes, -⟩ := hin
  cases hj
  rw [LayoutState.getElem?_bare, hi] at hf
  cases hf
  have hhas : Source.Declared.hasBody ⟨outer, .routine r⟩ = true := by
    have hsame : g.body = r.body := hdescribes.body
    rw [FrameRecord.isExternal, hsame] at hbody
    simpa [Source.Declared.hasBody] using hbody
  obtain ⟨c, hc, hcoded⟩ :=
    ((Lowers.of_program hlower).chunked []).emitted ⟨outer, .routine r⟩ hr hhas
  cases hcoded with
  | @intro _ x _ _ g' _ _ code hg' _ =>
    have hx : g.decl = x := hdecl
    have hid : g'.decl.id = g.decl.id := hx ▸ Layout.id_of_frameOf? hg'
    obtain rfl := List.inj_on_of_nodup_map (Layout.decls_nodup hlayout)
      (Array.mem_def.1 (Array.mem_of_find?_eq_some hg')) (Array.mem_def.1 hmem) hid
    exact ⟨code, hc⟩

theorem hasFunction_of_frameOf? {callee : Source.Symbol} {g : FrameRecord}
    (hg : layout.frameOf? callee = some g) : HasFunction layout chunks g.label :=
  have hmem := Array.mem_of_find?_eq_some hg
  ⟨g, hmem, rfl, exists_code hlayout hlower hmem⟩

/-- The supply has handed out the two registers and what lowering drew. -/
theorem firstFree_le_of_lower : Temp.firstFree ≤ supply.temps :=
  Nat.le_trans (Nat.le_of_eq (Layout.temps_of_build hlayout).symm)
    (Lowers.of_program hlower).grows.le

/-- The code that lowering yields is sound, with the data that it yields. -/
theorem soundChunks_of_lower : SoundChunks (HasData chunks) supply.temps chunks := by
  have hmakes := (Lowers.of_program hlower).sound (firstFree_le_of_lower hlayout hlower)
    fun x l size hx => hasData_of_global hlayout hlower hx
  obtain ⟨-, hsound⟩ := hmakes.sound (Nat.le_of_eq (Layout.temps_of_build hlayout).symm)
    ⟨Nat.le_refl _, fun l size init hmem => ⟨size, init, hmem⟩⟩
  exact hsound fun _ _ hmem => nomatch hmem

/-- What lowering yields is well wired. -/
theorem wired_of_lower : Wired layout chunks laid.temps supply.temps := by
  have hderived := Lowers.of_program hlower
  have hbodies := soundChunks_of_lower hlayout hlower
  have honce : ∀ l, (labels (codeEffects chunks)).count l ≤ 1 := by
    intro l
    have hle := hderived.grows.labels l
    have hone := supply.mark_le_one l
    rw [Effect.count_labels]
    simp only [LowerState.placed, codeEffects, List.flatMap_nil, List.count_nil] at hle ⊢
    omega
  refine ⟨fun g => exists_code hlayout hlower, fun l hl => ?_, fun frame body hmem => ?_,
    fun l hops hmem => ?_, fun t => ?_⟩
  · refine Nat.le_antisymm (honce l) (List.count_pos_iff.2 (hl.elim id fun hl => ?_))
    -- a jump leads to a label of the same body
    obtain ⟨e, he, hl⟩ := Effect.mem_jumps.1 hl
    obtain ⟨frame, body, hmem, he⟩ := mem_codeEffects.1 he
    have hbody := hbodies frame body hmem
    have hconfined := hbody.sound.confined.of_closed hbody.closed
    rcases hconfined.inside l (Effect.mem_jumps.2 ⟨e, he, hl⟩) with hl | hfalse
    · obtain ⟨e', he', hl⟩ := List.mem_filterMap.1 hl
      exact List.mem_filterMap.2 ⟨e', mem_codeEffects.2 ⟨frame, body, hmem, he'⟩, hl⟩
    · exact hfalse.elim
  · exact ⟨(hbodies frame body hmem).sound, (hbodies frame body hmem).closed⟩
  · obtain ⟨frame, body, hbody, hcall⟩ := mem_codeEffects.1 hmem
    rcases (hderived.chunked []).origin frame body hbody with hnone | ⟨d, -, hcoded⟩
    · cases hnone
    · cases hcoded with
      | intro _ hlowers =>
        obtain ⟨callee, args, g, -, hg, rfl, -⟩ := hlowers.calls l hops hcall
        exact hasFunction_of_frameOf? hlayout hlower hg
  · rw [Temp.below_iff (firstFree_le_of_lower hlayout hlower), Layout.temps_of_build hlayout]

end

/-- Chunks that can be indexed in linear form can be indexed as they are. -/
theorem Program.exists_ofChunks {n : Nat} (h : ofChunks (Chunk.canonicalAll chunks n).1 = .ok p) :
    ∃ tree, ofChunks chunks = .ok tree := by
  unfold ofChunks at h ⊢
  rw [Chunk.names_canonicalAll] at h
  split at h
  · cases h
  · exact ⟨_, rfl⟩

/-- The ways in which a run can miss a label: it is asked for a name that no function with a
body has, or it calls an external function that is not provided. -/
inductive Misses (layout : Layout) (name : String) : FaultCause → Prop
  | entry : (∀ g ∈ layout.frames, g.isExternal = false → g.label.name ≠ name) →
      Misses layout name (.noEntry name)
  | external {g : FrameRecord} : g ∈ layout.frames → g.isExternal = true →
      Builtin.ofName? g.label.name = none → Misses layout name (.noFunction g.label.name)

/-- Well-wired code refers to nothing that is not there. -/
theorem Wired.resolves (h : Wired layout chunks first last) {setup : Setup}
    (hindex : Program.ofChunks chunks = .ok setup.program) (name : String) :
    setup.Resolves (HasData chunks) last (HasFunction layout chunks)
      (fun c => c.kind = .unresolvedLabel → Misses layout name c) where
  others c hc hkind := absurd hkind hc
  names l hl := by
    obtain ⟨size, init, hmem⟩ := hl
    exact Program.exists_address hindex hmem
  absent l hl hnone hbuiltin _ := by
    obtain ⟨g, hg, rfl, hcode⟩ := hl
    cases hexternal : g.isExternal with
    | true => exact .external hg hexternal hbuiltin
    | false =>
      obtain ⟨body, hbody⟩ := hcode hexternal
      have hfound := Program.function?_of_code hindex hbody
      exact absurd (hnone.symm.trans hfound) nofun
  bodies f hf := by
    obtain ⟨body, hmem, hbody⟩ := Program.exists_code_of_mem_functions hindex hf
    obtain ⟨hsound, hclosed⟩ := h.bodies f.frame body hmem
    exact ⟨body, ⟨hsound, hclosed, fun l hops hcall =>
      h.calls l hops (mem_codeEffects.2 ⟨f.frame, body, hmem, hcall⟩)⟩, hbody⟩

/-- Well-wired code can be entered by the name of every function with a body. -/
theorem Wired.ne_of_lookup? (h : Wired layout chunks first last)
    (hindex : Program.ofChunks chunks = .ok p) (hnone : p.lookup? name = none) {g : FrameRecord}
    (hg : g ∈ layout.frames) (hbody : g.isExternal = false) : g.label.name ≠ name := by
  obtain ⟨body, hmem⟩ := h.functions g hg hbody
  have hf := List.mem_of_find?_eq_some (Program.function?_of_code hindex hmem)
  intro hname
  exact List.find?_eq_none.1 hnone _ hf (beq_iff_eq.2 hname)

/-- A machine for well-wired code misses a label in these ways only. -/
theorem Wired.misses_of_behaves (h : Wired layout chunks first last) {program : Program}
    (hindex : Program.ofChunks chunks = .ok program) {o : Options} {m : Machine}
    (hm : Machine.new program o = .ok m) {b : Behaviour} (hb : m.Behaves name arg b)
    (hending : b.ending = .faulted c) (hkind : c.kind = .unresolvedLabel)
    : Misses layout name c := by
  obtain ⟨hsetup, hstarted⟩ := Machine.new_eq_ok hm
  have hprogram : m.setup.program = program := congrArg Setup.program hsetup
  obtain ⟨fuel, hrun⟩ := hb
  rw [Machine.ofRun?_run hstarted] at hrun
  have hfaults := (h.resolves (hprogram ▸ hindex) name).enter
    (fun hnone _ => .entry fun g => h.ne_of_lookup? hindex (hprogram ▸ hnone)) fuel arg
  cases hresult : Machine.enter m.setup fuel name arg m.startState with
  | ok v s =>
    rw [hresult] at hrun
    cases hrun
    cases hending
  | error e s =>
    rw [hresult] at hrun
    cases e with
    | fault f =>
      cases hrun
      cases hending
      exact hfaults m.startState f s hresult hkind
    | defect d =>
      cases hrun
      cases hending
    | outOfFuel => cases hrun

/-- A run that ends in a fault shows it. -/
theorem Machine.behaves_of_fault {m m' : Machine} {fuel : Nat}
    (h : m.run fuel name arg = (.error (.stopped (.fault f)), m')) :
    ∃ b, m.Behaves name arg b ∧ b.ending = .faulted f.cause :=
  ⟨_, ⟨fuel, by rw [h]; rfl⟩, rfl⟩

/-- Generated code is closed and well wired, as soon as a program can be laid out and
lowered: every function with a body has code, and the code refers to nothing that is not
there. No run of it, as it is or in linear form, faults for want of a label, except if it is
asked for a name that no function with a body has, or calls an external function that the
machine does not provide. -/
theorem Source.Program.code_wired {p : Source.Program} {layout : Layout}
    {laid supply : Supply} {chunks : List Chunk}
    (hlayout : Layout.build .empty p = .ok (layout, laid))
    (hlower : p.lower layout laid = .ok (chunks, supply)) :
    Wired layout chunks laid.temps supply.temps ∧
      ∀ program, (Program.ofChunks chunks = .ok program ∨
          Program.ofChunks (Chunk.canonicalAll chunks supply.temps).1 = .ok program) →
        ∀ o m, Machine.new program o = .ok m →
          ∀ fuel name arg f m', m.run fuel name arg = (.error (.stopped (.fault f)), m') →
            f.kind = .unresolvedLabel → Misses layout name f.cause := by
  have hwired := wired_of_lower hlayout hlower
  refine ⟨hwired, fun program hprogram o m hm fuel name arg f m' hrun hkind => ?_⟩
  obtain ⟨b, hb, hending⟩ := Machine.behaves_of_fault hrun
  rcases hprogram with htree | hlinear
  · exact hwired.misses_of_behaves htree hm hb hending hkind
  · obtain ⟨tree, htree⟩ := TreeCode.Program.exists_ofChunks hlinear
    have hk := firstFree_le_of_lower hlayout hlower
    have hforms := TreeCode.Program.forms_of_canonicalAll htree hlinear
      (soundChunks_of_lower hlayout hlower) (Nat.le_refl _) fun l ⟨_, _, hmem⟩ =>
        TreeCode.Program.exists_address htree hmem
    have hnew := Machine.new_of_forms hforms o
    cases hm' : Machine.new tree o with
    | error e =>
      rw [hm', hm] at hnew
      cases hnew
    | ok m₀ =>
      have hb₀ := (Machine.behaves_of_forms hforms hk hm' hm name arg b).2 hb
      exact hwired.misses_of_behaves htree hm' hb₀ hending hkind

/-- The fault that a run ended in. -/
def RunError.fault? : Except RunError Word → Option Fault
  | .error (.stopped (.fault f)) => some f
  | _ => none

theorem RunError.of_fault? {r : Except RunError Word} (h : fault? r = some f) :
    r = .error (.stopped (.fault f)) := by
  unfold fault? at h
  split at h
  · cases h
    rfl
  · cases h

/-- A loop and a literal, before a call to a function that nobody provides. -/
def Sample.stranded : Source.Program :=
  let beep : Source.Symbol := ⟨2, "beep", .void⟩
  ofDefs [
    .funDecl beep [⟨3, "s", .string⟩] none,
    entry
      (.sequence [
        .whileLoop (.ident argument) (assign (.ident argument) (sub (.ident argument) (.number 1))),
        .call beep [.string [97]],
        .number 0])]

/-- The call faults in linear form, and it is the only thing that is missing. -/
theorem Sample.stranded_misses :
    ∃ layout laid chunks supply program m f m',
      Layout.build .empty stranded = .ok (layout, laid) ∧
      stranded.lower layout laid = .ok (chunks, supply) ∧
      Program.ofChunks (Chunk.canonicalAll chunks supply.temps).1 = .ok program ∧
      Machine.new program ⟨160, 0, false⟩ = .ok m ∧
      m.run 50 entryName 2 = (.error (.stopped (.fault f)), m') ∧
      f.cause = .noFunction "beep" ∧ Wired layout chunks laid.temps supply.temps ∧
      Misses layout entryName f.cause := by
  have hrun : ((Layout.build .empty stranded).toOption.bind fun l =>
      (stranded.lower l.1 l.2).toOption.bind fun c =>
        (Program.ofChunks (Chunk.canonicalAll c.1 c.2.temps).1).toOption.bind fun p =>
          (Machine.new p ⟨160, 0, false⟩).toOption.bind fun m =>
            (RunError.fault? (m.run 50 entryName 2).1).map (·.cause)) =
      some (.noFunction "beep") := by
    decide +kernel
  obtain ⟨⟨layout, laid⟩, hlayout, hrun⟩ := Outcome.of_toOption_bind hrun
  obtain ⟨⟨chunks, supply⟩, hlower, hrun⟩ := Outcome.of_toOption_bind hrun
  obtain ⟨program, hindex, hrun⟩ := Outcome.of_toOption_bind hrun
  obtain ⟨m, hm, hrun⟩ := Outcome.of_toOption_bind hrun
  obtain ⟨hwired, hmisses⟩ := Source.Program.code_wired hlayout hlower
  obtain ⟨f, hf, hcause⟩ := Option.map_eq_some_iff.1 hrun
  have hkind : f.kind = .unresolvedLabel := congrArg FaultCause.kind hcause
  have hfault : m.run 50 entryName 2 = (.error (.stopped (.fault f)), (m.run 50 entryName 2).2) :=
    Prod.ext (RunError.of_fault? hf) rfl
  exact ⟨layout, laid, chunks, supply, program, m, f, _, hlayout, hlower, hindex, hm, hfault,
    hcause, hwired, hmisses program (.inr hindex) _ m hm 50 entryName 2 f _ hfault hkind⟩

end TreeCode
