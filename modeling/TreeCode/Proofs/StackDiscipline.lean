/-
# Stack discipline

On return from a call the machine finds the caller's frame through memory: the frame
pointer is read back from the frame that is left, and the stack pointer is computed from
its size. A program can overwrite the saved frame pointer. As long as it does not, calls
nest: the live frames fill the top of memory without gaps, and a call that returns leaves
the registers as they were and the frames of its callers alone.
-/

import TreeCode.Compilation
import TreeCode.Proofs.Machine.Discipline
import TreeCode.Proofs.Outcome
import TreeCode.Sample

namespace TreeCode

/-- The convention that moves spare the saved frame pointers, and nothing else. -/
def Convention.spared (setup : Setup) : Convention setup where
  guarded f := [f.linkOffset]
  holds _ _ := True
  policy _ := ⟨fun p => ∃ c, p = .const c, fun _ _ => True, fun _ _ => True⟩
  asked live addr := ∀ a ∈ live, Word.Apart addr a.saved
  stored _ _ _ _ := True
  linkOffset_mem _ := List.mem_singleton_self _
  inside _ hfits _ ho := List.mem_singleton.1 ho ▸ hfits.saved
  isAddress := by
    rintro f _ ⟨c, rfl⟩
    rfl
  congr _ h := h
  steady := by
    rintro m m' a rest _ - - ⟨c, rfl⟩
    rfl
  called _ _ _ _ _ _ _ _ _ _ _ := trivial
  spares _ _ _ _ hasked _ :=
    ⟨fun b hb _ ho => List.mem_singleton.1 ho ▸ hasked b hb, trivial⟩

/-- The frames on the stack are in order: they lie one below the other from the end of
memory down to the registers, have no byte in common and stay clear of the data. -/
structure InOrder (setup : Setup) (live : List Live) (s : State) : Prop where
  innermost : ∃ a rest, live = a :: rest ∧ s.fp = a.base ∧ s.sp = a.base
  depth : s.depth = live.length
  adjacent : Adjacent setup.program.dataSize setup.memorySize live
  disjoint : live.Pairwise fun a b => a.top ≤ b.base.toInt
  inside : ∀ a ∈ live,
    setup.program.dataSize.toInt ≤ a.base.toInt ∧ a.top ≤ setup.memorySize.toInt

theorem Stacked.inOrder {setup : Setup} {live : List Live} {s : State} (hlive : live ≠ [])
    (h : Stacked setup live s) : InOrder setup live s where
  innermost := by
    cases live with
    | nil => exact absurd rfl hlive
    | cons a rest => exact ⟨a, rest, rfl, h.fp, h.sp⟩
  depth := h.depth
  adjacent := h.adjacent
  disjoint := h.adjacent.pairwise
  inside a ha := by
    obtain ⟨-, hdata, -, htop⟩ := h.adjacent.inside.2 a ha
    exact ⟨hdata, htop⟩

/-- A move that overwrites no saved frame pointer. -/
def Event.SparesSaved : Event → Prop
  | .store live _ _ addr _ => ∀ a ∈ live, Word.Apart addr a.saved
  | _ => True

instance (e : Event) : Decidable e.SparesSaved :=
  match e with
  | .store live _ _ addr _ => inferInstanceAs (Decidable (∀ a ∈ live, Word.Apart addr a.saved))
  | .moment .. => .isTrue trivial
  | .returned .. => .isTrue trivial

theorem Convention.spared_asked {setup : Setup} {e : Event} (h : e.SparesSaved) :
    (Convention.spared setup).Asked e := by
  cases e with
  | store _ _ _ _ _ => exact h
  | moment _ _ | returned _ _ _ => trivial

/-- Calls nest. In a run of a program whose frames have room for what a call writes into
them, and that overwrites no saved frame pointer, the frames are in order at every moment,
and a call that returns restores the frame pointer, the stack pointer, the depth and the
place of the caller. What has changed by then at or above the caller's stack pointer are
words that moves wrote, and nothing else. -/
theorem Machine.calls_restore {p : Program} {o : Options} {m : Machine}
    (hm : Machine.new p o = .ok m) (hfits : ∀ f ∈ p.functions, f.frame.Fits) (fuel : Nat)
    (name : String) (arg : Word) (hspares : ∀ e ∈ m.log fuel name arg, e.SparesSaved) :
    (Watched.enter m.setup fuel name arg).run = Machine.enter m.setup fuel name arg ∧
      (∀ live s, .moment live s ∈ m.log fuel name arg → InOrder m.setup live s) ∧
      ∀ before after stores, .returned before after stores ∈ m.log fuel name arg →
        after.fp = before.fp ∧ after.sp = before.sp ∧ after.depth = before.depth ∧
          after.location = before.location ∧
          ∀ i : Nat, before.sp.toInt ≤ (i : Int) →
            after.memory.byte i = (before.memory.writeAll stores).byte i ∧
              (after.memory.byte i ≠ before.memory.byte i →
                ∃ w ∈ stores, w.1.toInt ≤ (i : Int) ∧ (i : Int) < w.1.toInt + Word.byteSize) := by
  obtain ⟨hroomy, hstart⟩ := Machine.stacked_of_new hm
  have hprogram : m.setup.program = p := congrArg Setup.program (Machine.new_eq_ok hm).1
  have hgoverns : (Convention.spared m.setup).Governs := by
    intro f hf
    refine ⟨hfits f (hprogram ▸ hf), _, _, IR.Stmt.flowsAll_of_admits f.body.toList ∅ ?_⟩
    exact ⟨fun c => ⟨c, rfl⟩, fun _ => trivial, fun _ _ _ _ _ => trivial⟩
  have hlog := Convention.promised_of_log hgoverns hroomy hstart trivial
    (fun _ _ _ _ _ _ _ => trivial) fun e he => Convention.spared_asked (hspares e he)
  refine ⟨Watched.run_enter m.setup fuel name arg, ?_, ?_⟩
  · intro live s hmoment
    obtain ⟨hlive, hstacked, -⟩ := hlog _ hmoment
    exact hstacked.inOrder hlive
  · intro before after stores hreturned
    have hrestored : Restored before after stores := hlog _ hreturned
    refine ⟨hrestored.fp, hrestored.sp, hrestored.depth, hrestored.location, ?_⟩
    intro i hi
    exact ⟨hrestored.kept.byte i hi, hrestored.kept.exists_store hi⟩

/-- How many frames are live at a moment. -/
def Event.liveCount : Event → Nat
  | .moment live _ => live.length
  | _ => 0

/-- Calls nest five deep, across recursion and into functions of functions, and the saved
frame pointers are spared, so every call restores its caller. -/
theorem Sample.nested_calls_restore :
    ∃ c m, nested.compile = .ok c ∧ Machine.new c.linear ⟨240, 0, false⟩ = .ok m ∧
      (∀ f ∈ c.linear.functions, f.frame.Fits) ∧
      (∀ e ∈ m.log 40 entryName 1, e.SparesSaved) ∧
      (∃ e ∈ m.log 40 entryName 1, e.liveCount = 5) ∧
      (∀ live s, .moment live s ∈ m.log 40 entryName 1 → InOrder m.setup live s) ∧
      ∀ before after stores, .returned before after stores ∈ m.log 40 entryName 1 →
        after.fp = before.fp ∧ after.sp = before.sp := by
  have hrun : (nested.compile.toOption.bind fun c =>
      (Machine.new c.linear ⟨240, 0, false⟩).toOption.map fun m =>
        decide ((∀ f ∈ c.linear.functions, f.frame.Fits) ∧
          (∀ e ∈ m.log 40 entryName 1, e.SparesSaved) ∧
          ∃ e ∈ m.log 40 entryName 1, e.liveCount = 5)) = some true := by
    decide +kernel
  obtain ⟨c, hc, hrun⟩ := Outcome.of_toOption_bind hrun
  obtain ⟨m, hm, hrun⟩ := Outcome.of_toOption_map hrun
  obtain ⟨hfits, hspares, hdeep⟩ := of_decide_eq_true hrun
  obtain ⟨-, horder, hrestored⟩ := Machine.calls_restore hm hfits 40 entryName 1 hspares
  refine ⟨c, m, hc, hm, hfits, hspares, hdeep, horder, fun before after stores hmem => ?_⟩
  obtain ⟨hfp, hsp, -⟩ := hrestored before after stores hmem
  exact ⟨hfp, hsp⟩

end TreeCode
