/-
# Tree code and linear code

Whatever compiles runs alike in both of its forms. `Compilation.Stages` takes a
compilation apart into its stages, and `Stages.forms` puts together what the stages are
known for: lowered code is sound, every name in it has data, and lifting sound code
keeps its behaviour.
-/

import TreeCode.Proofs.Layout.Globals
import TreeCode.Sample

namespace TreeCode

open IR (Chunk)

namespace Compilation

/-- How a compilation came about, with the supplies after the layout and after the
lowering. -/
structure Stages (p : Source.Program) (c : Compilation) (laid lowered : Supply) : Prop where
  layout : Layout.build .empty p = .ok (c.layout, laid)
  lower : p.lower c.layout laid = .ok (c.chunks, lowered)
  tree : Program.ofChunks c.chunks = .ok c.tree
  canonical : c.canonical = (Chunk.canonicalAll c.chunks lowered.temps).1
  linear : Program.ofChunks c.canonical = .ok c.linear

variable {p : Source.Program} {c : Compilation}

theorem stages_of_compileUnchecked (h : p.compileUnchecked = .ok c)
    : ∃ laid lowered, Stages p c laid lowered := by
  obtain ⟨⟨layout, laid⟩, hlayout, h⟩ := Outcome.of_bind h
  obtain ⟨code, hcode, h⟩ := Outcome.of_bind h
  obtain ⟨⟨canonical, linear⟩, hlinear, h⟩ := Outcome.of_bind h
  obtain ⟨⟨chunks, lowered⟩, hlower, hcode⟩ := Outcome.of_bind hcode
  obtain ⟨program, htree, hcode⟩ := Outcome.of_bind hcode
  cases hcode
  obtain ⟨linear', hindex, hlinear⟩ := Outcome.of_bind hlinear
  cases hlinear
  cases h
  exact ⟨laid, lowered, Outcome.of_mapError hlayout, Outcome.of_mapError hlower,
    Outcome.of_mapError htree, rfl, Outcome.of_mapError hindex⟩

theorem stages_of_compile (h : p.compile = .ok c) : ∃ laid lowered, Stages p c laid lowered := by
  obtain ⟨_, _, h⟩ := Outcome.of_bind h
  exact stages_of_compileUnchecked h

/-- Stages that succeed after the check of the entry make up a compilation. -/
theorem Stages.compile_eq_ok {laid lowered : Supply} (h : Stages p c laid lowered)
    {x : Source.Symbol} (hentry : p.checkEntry = .ok x) : p.compile = .ok c := by
  have hcode : p.generate c.layout laid = .ok ⟨c.chunks, c.tree, lowered⟩ := by
    rw [Source.Program.generate, h.lower]
    change ((Program.ofChunks c.chunks).mapError CompileError.index >>= _) = _
    rw [h.tree]
    rfl
  have hlinear : (⟨c.chunks, c.tree, lowered⟩ : TreeForm).linearize =
      .ok (c.canonical, c.linear) := by
    have hlinear := h.linear
    rw [h.canonical] at hlinear ⊢
    change ((Program.ofChunks _).mapError CompileError.index >>= _) = _
    rw [hlinear]
    rfl
  rw [Source.Program.compile, hentry]
  change p.compileUnchecked = .ok c
  rw [Source.Program.compileUnchecked, h.layout]
  change (p.generate c.layout laid >>= _) = _
  rw [hcode]
  change (TreeForm.linearize ⟨c.chunks, c.tree, lowered⟩ >>= _) = _
  rw [hlinear]
  rfl

end Compilation

variable {chunks : List Chunk} {l : Label} {size : Word} {init : List UInt8}

theorem Program.find?_dataFrom (offset : Word) (h : .data l size init ∈ chunks) :
    ∃ d, (dataFrom offset chunks).find? (fun d => d.label == l) = some d := by
  induction chunks generalizing offset with
  | nil => cases h
  | cons c rest ih =>
    cases h with
    | head => exact ⟨_, List.find?_cons_of_pos (beq_self_eq_true l)⟩
    | tail _ h =>
      cases c with
      | code frame body => exact ih offset h
      | data l' size' init' =>
        rw [dataFrom, List.find?_cons]
        split
        · exact ⟨_, rfl⟩
        · exact ih (offset + size') h

/-- Every data chunk has an address. -/
theorem Program.exists_address {p : Program} (h : ofChunks chunks = .ok p)
    (hmem : .data l size init ∈ chunks) : ∃ a, p.address? l = some a := by
  cases ofChunks_eq_ok h
  obtain ⟨d, hd⟩ := find?_dataFrom 0 hmem
  exact ⟨d.offset, congrArg (Option.map DataItem.offset) hd⟩

namespace Compilation.Stages

variable {p : Source.Program} {c : Compilation} {laid lowered : Supply}

/-- Every static place has an address. -/
theorem exists_address (h : Stages p c laid lowered) {x : Source.Symbol} {l : Label} {size : Word}
    (hx : c.layout.access? x = some (.global l size)) : ∃ a, c.tree.address? l = some a :=
  Program.exists_address h.tree (data_of_global h.layout h.lower hx)

/-- The linear code of a compilation is the linear form of its tree code. -/
theorem forms (h : Stages p c laid lowered) :
    c.tree.Forms (fun l => ∃ a, c.tree.address? l = some a) lowered.temps c.linear := by
  have hderived := Lowers.of_program h.lower
  have hfirst : Temp.firstFree ≤ laid.temps := Nat.le_of_eq (Layout.temps_of_build h.layout).symm
  have hmakes := hderived.sound (Nat.le_trans hfirst hderived.grows.le)
    fun x l size hx => h.exists_address hx
  obtain ⟨-, hsound⟩ := hmakes.sound hfirst
    ⟨Nat.le_refl _, fun l size init hmem => Program.exists_address h.tree hmem⟩
  exact Program.forms_of_canonicalAll h.tree (h.canonical ▸ h.linear)
    (hsound fun _ _ hmem => nomatch hmem) (Nat.le_refl _) fun _ hl => hl

end Compilation.Stages

/-- A program that compiles runs alike in both of its forms: the same machines can be
made, a run ends in one form if and only if it ends in the other, and then with the same
value or the same kind of failure, the same output, the same memory and the same
counters of calls and stack. -/
theorem Source.Program.tree_behaves_iff_linear {p : Source.Program} {c : Compilation}
    (h : p.compile = .ok c) (o : Options) :
    (∀ e, Machine.new c.tree o = .error e ↔ Machine.new c.linear o = .error e) ∧
      ∀ m m', Machine.new c.tree o = .ok m → Machine.new c.linear o = .ok m' →
        ∀ arg, (∀ b, m.Behaves entryName arg b ↔ m'.Behaves entryName arg b) ∧
          ∀ b b', m.Behaves entryName arg b → m'.Behaves entryName arg b' → b = b' := by
  obtain ⟨laid, lowered, hstages⟩ := Compilation.stages_of_compile h
  have hforms := hstages.forms
  refine ⟨fun e => ?_, fun m m' hm hm' arg => ?_⟩
  · rw [Machine.new_of_forms hforms]
    cases Machine.new c.tree o with
    | error e' => rfl
    | ok m => exact ⟨nofun, nofun⟩
  · have hk : 2 ≤ lowered.temps := by
      have hle := (Lowers.of_program hstages.lower).grows.le
      exact Nat.le_trans (Nat.le_of_eq (Layout.temps_of_build hstages.layout).symm) hle
    have hiff := Machine.behaves_of_forms hforms hk hm hm' entryName arg
    refine ⟨hiff, fun b b' hb hb' => ?_⟩
    exact Machine.Behaves.unique (Machine.new_eq_ok hm).2 hb ((hiff b').2 hb')

/-- Arguments are evaluated from left to right in both forms. -/
theorem Sample.order_behaves_alike :
    ∃ c m m' b, order.compile = .ok c ∧ Machine.new c.tree ⟨160, 0, false⟩ = .ok m ∧
      Machine.new c.linear ⟨160, 0, false⟩ = .ok m' ∧ b.ending = .returned 1212 ∧
      m.Behaves entryName 0 b ∧ m'.Behaves entryName 0 b := by
  have hrun : (order.compile.toOption.bind fun c =>
      (Machine.new c.tree ⟨160, 0, false⟩).toOption.bind fun m =>
        (Behaviour.ofRun? (m.run 100 entryName 0)).map (·.ending)) = some (.returned 1212) := by
    decide +kernel
  obtain ⟨c, hc, hrun⟩ := Outcome.of_toOption_bind hrun
  obtain ⟨m, hm, hrun⟩ := Outcome.of_toOption_bind hrun
  obtain ⟨b, hb, hending⟩ := Option.map_eq_some_iff.1 hrun
  obtain ⟨hnew, halike⟩ := Source.Program.tree_behaves_iff_linear hc ⟨160, 0, false⟩
  cases hm' : Machine.new c.linear ⟨160, 0, false⟩ with
  | error e => exact absurd (hm.symm.trans ((hnew e).2 hm')) nofun
  | ok m' =>
    have hbehaves : m.Behaves entryName 0 b := ⟨100, hb⟩
    exact ⟨c, m, m', b, hc, hm, hm', hending, hbehaves, ((halike m m' hm hm' 0).1 b).1 hbehaves⟩

end TreeCode
