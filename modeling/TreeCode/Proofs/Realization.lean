/-
# Functions of the machine

Every function that the machine finds in a compiled program runs the code of a function
that the program declares, as it was lowered or in linear form. `Realizes` puts together
what is known of the two: the declaration and its scope, the frame in the layout, the
derivation of the code, and the form of the code.
-/

import TreeCode.Proofs.Links
import TreeCode.Proofs.Wiring

namespace TreeCode

open IR (Chunk Stmt)
open Source (Node Routine)

/-- A function of the machine runs the code of a function that is declared inside some
others. -/
structure Realizes (p : Source.Program) (layout : Layout) (N : Label → Prop) (k : Nat)
    (f : Function) (outer : List Routine) (r : Routine) (g : FrameRecord) (body : Node)
    (code : Stmt) : Prop where
  assigned : Assigned p layout outer r g
  defined : r.body = some body
  frame : f.frame = g.frame
  lowers : ∃ s s', LowersBody p.types layout ⟨r.decl, body, 0⟩ g s s' code
  sound : code.SoundBody N k
  form : f.body = .ofStmt code ∨ ∃ n, k ≤ n ∧ f.body = Block.ofList (code.lift n).1.flatten

/-- The code of a function in linear form was made from a chunk. -/
theorem Program.exists_code_of_canonicalAll {chunks : List Chunk} {n : Nat} {f : Function}
    (hf : f ∈ functionsOf (Chunk.canonicalAll chunks n).1) :
    ∃ body m, n ≤ m ∧ .code f.frame body ∈ chunks ∧
      f.body = Block.ofList (body.lift m).1.flatten := by
  induction chunks generalizing n with
  | nil => cases hf
  | cons c rest ih =>
    cases c with
    | data l size init =>
      obtain ⟨body, m, hm, hmem, hbody⟩ := ih hf
      exact ⟨body, m, hm, List.mem_cons_of_mem _ hmem, hbody⟩
    | code frame body =>
      rcases List.mem_cons.1 hf with rfl | hf
      · refine ⟨body, n, Nat.le_refl n, List.mem_cons_self, ?_⟩
        exact congrArg List.toArray (Stmt.flattenAll_flatten (body.lift n).1)
      · obtain ⟨body', m, hm, hmem, hbody⟩ := ih hf
        have hle := (Stmt.refresh_lift body n).le
        exact ⟨body', m, Nat.le_trans hle hm, List.mem_cons_of_mem _ hmem, hbody⟩

/-- The functions of a compiled program realize declared ones, in both forms. -/
theorem Source.Program.exists_realized {p : Source.Program} {c : Compilation}
    (h : p.compile = .ok c) {program : TreeCode.Program}
    (hprogram : program = c.tree ∨ program = c.linear) :
    ∃ N k, ∀ f ∈ program.functions, ∃ outer r g body code,
      Realizes p c.layout N k f outer r g body code := by
  obtain ⟨laid, lowered, hstages⟩ := Compilation.stages_of_compile h
  have hsound := soundChunks_of_lower hstages.layout hstages.lower
  refine ⟨HasData c.chunks, lowered.temps, fun f hf => ?_⟩
  have hcode : ∃ code, .code f.frame code ∈ c.chunks ∧ (f.body = .ofStmt code ∨
      ∃ n, lowered.temps ≤ n ∧ f.body = Block.ofList (code.lift n).1.flatten) := by
    rcases hprogram with rfl | rfl
    · obtain ⟨code, hmem, hbody⟩ := TreeCode.Program.exists_code_of_mem_functions hstages.tree hf
      exact ⟨code, hmem, .inl hbody⟩
    · have hindex := hstages.linear
      rw [hstages.canonical] at hindex
      rw [TreeCode.Program.ofChunks_eq_ok hindex] at hf
      obtain ⟨code, n, hn, hmem, hbody⟩ := TreeCode.Program.exists_code_of_canonicalAll hf
      exact ⟨code, hmem, .inr ⟨n, hn, hbody⟩⟩
  obtain ⟨code, hmem, hform⟩ := hcode
  rcases ((Lowers.of_program hstages.lower).chunked []).origin f.frame code hmem with
    hnone | ⟨d, hd, hcoded⟩
  · cases hnone
  · generalize hframe : f.frame = frame at hcoded
    cases hcoded with
    | @intro outer x params body g s s' _ hg hlowers =>
      exact ⟨outer, _, g, body, code, ⟨hd, hg⟩, rfl, hframe, ⟨s, s', hlowers⟩,
        hsound f.frame code hmem, hform⟩

namespace Realizes

variable {p : Source.Program} {layout : Layout} {N : Label → Prop} {k : Nat} {f : Function}
  {outer : List Routine} {r : Routine} {g : FrameRecord} {body : Node} {code : Stmt}

/-- The calls in either form of the code belong to calls in the body of the function. -/
theorem calls (h : Realizes p layout N k f outer r g body code) :
    CallsFrom layout g body.own (Stmt.effectsAll f.body.toList) := by
  obtain ⟨s, s', hlowers⟩ := h.lowers
  refine hlowers.calls.weaken fun l first hmem => ?_
  rcases h.form with hbody | ⟨n, -, hbody⟩
  · rw [hbody] at hmem
    exact Stmt.effectsAll_flatten code ▸ hmem
  · rw [hbody] at hmem
    -- lifting draws temps and changes nothing else
    have hlifted : .call l first ∈ (code.lift n).1.effects := Stmt.effectsAll_flatten _ ▸ hmem
    have hkept := (Stmt.refresh_lift code n).kept n (Nat.le_refl n)
    have hold : .call l first ∈ (code.lift n).1.effects.filter (IR.Effect.isOld n) :=
      List.mem_filter.2 ⟨hlifted, rfl⟩
    exact (List.mem_filter.1 (hkept ▸ hold)).1

/-- A function calls what it can see, over as many links as there are functions that the
callee is not inside. -/
theorem visits (h : Realizes p layout N k f outer r g body code) (hscoped : p.WellScoped)
    {l : Label} {first : Option Word} (hcall : .call l first ∈ Stmt.effectsAll f.body.toList) :
    ∃ around q g', Assigned p layout around q g' ∧ l = g'.label ∧ around <:+ r :: outer ∧
      first = some (Int64.ofInt (hopCount g g')) := by
  obtain ⟨callee, args, g', hmem, hg', hl, hfirst⟩ := h.calls l first hcall
  obtain ⟨around, q, hq, rfl, haround⟩ :=
    hscoped.callee_visible h.assigned.declared h.defined hmem
  exact ⟨around, q, g', ⟨hq, hg'⟩, hl, haround, hfirst⟩

end Realizes

end TreeCode
