/-
# The entry of a program

The check of the entry looks at declarations, and the machine looks up a name. Both find
the same function. Functions on top level are the first to be given labels, so the plain
name is left to the one function that bears it there; a function inside another one has a
dot in its name, and everything else is named later.
-/

import TreeCode.Proofs.Machine.Calls
import TreeCode.Proofs.Realization

namespace TreeCode

open IR (Chunk Stmt)
open Source (Node Symbol)

/-- Whether a definition is a function that bears the entry name. -/
def Source.Node.isEntry : Node → Bool
  | .funDecl x _ _ => x.name == entryName
  | _ => false

/-- Of the definitions on top level, exactly one is a function that bears the entry name; it
has a body and one parameter, an integer. -/
structure Source.Program.EnteredThrough (p : Source.Program) (x param : Symbol) (body : Node) :
    Prop where
  only : p.defs.filter Node.isEntry = [.funDecl x [param] (some body)]
  integer : param.ty = .integer

/-- An entry function as it is declared. -/
def EntryFunction.declaration (f : EntryFunction) : Node :=
  .funDecl f.decl f.params f.body

namespace Source.Program

theorem map_entries (p : Source.Program) :
    p.entries.map (·.declaration) = p.defs.filter Node.isEntry := by
  unfold entries
  induction p.defs with
  | nil => rfl
  | cons n ns ih =>
    cases n with
    | funDecl x params body =>
      rw [List.filterMap_cons, List.filter_cons]
      dsimp only
      by_cases hx : x.name = entryName
      · rw [if_pos hx, Node.isEntry, if_pos (beq_iff_eq.2 hx)]
        exact congrArg (Node.funDecl x params body :: ·) ih
      · rw [if_neg hx, Node.isEntry, if_neg (by simpa using hx)]
        exact ih
    | _ => exact ih

/-- The check of the entry accepts exactly the programs that can be entered. -/
theorem checkEntry_eq_ok_iff {p : Source.Program} {x : Symbol} :
    p.checkEntry = .ok x ↔ ∃ param body, p.EnteredThrough x param body := by
  have hentries := p.map_entries
  unfold checkEntry
  constructor
  · intro h
    split at h
    · cases h
    next f hf =>
      rw [hf] at hentries
      obtain ⟨decl, params, body⟩ := f
      cases body with
      | none => cases h
      | some body =>
        dsimp only at h
        split at h
        · cases h
        split at h
        next param =>
          split at h
          next hty =>
            cases h
            exact ⟨param, body, hentries.symm, hty⟩
          next => cases h
        next => cases h
    next => cases h
  · rintro ⟨param, body, honly, hty⟩
    obtain ⟨f, hf, hdecl⟩ := List.map_eq_singleton_iff.1 (hentries.trans honly)
    obtain ⟨decl, params, _⟩ := f
    cases hdecl
    rw [hf]
    dsimp only
    rw [if_neg (by simp), hty]

end Source.Program

namespace Lays

/-- The one function on top level that bears the entry name has it as its label. -/
theorem entry_label {defs : List Node} {x : Symbol} {params : List Symbol} {body : Option Node}
    (honly : defs.filter Node.isEntry = [.funDecl x params body]) {s s' : LayoutState}
    (h : Lays (.headers none defs) s s') (hfree : entryName ∉ s.supply.names) :
    ∃ f ∈ s'.bare, f.decl = x ∧ f.params = params ∧ f.body = body ∧
      f.label.name = entryName := by
  induction defs generalizing s with
  | nil => cases honly
  | cons n ns ih =>
    cases h with
    | @header _ y ps b _ _ _ hnew hrest =>
      by_cases hy : y.name = entryName
      · have hpos : (Node.funDecl y ps b).isEntry = true := beq_iff_eq.2 hy
        rw [List.filter_cons_of_pos hpos] at honly
        obtain ⟨heq, -⟩ := List.cons.inj honly
        cases heq
        refine ⟨s.record none x params body, hrest.bare_prefix.subset ?_, rfl, rfl, rfl, ?_⟩
        · rw [LayoutState.bare_withFrame]
          exact List.mem_append_right _ (List.mem_singleton.2 rfl)
        · have hlabel := Supply.named_of_notMem (hy.symm ▸ hfree)
          exact (congrArg Label.name hlabel).trans hy
      · rw [List.filter_cons_of_neg (by simpa [Node.isEntry] using hy)] at honly
        exact ih honly hrest
          (Supply.notMem_named hfree (Ne.symm hy) (by decide))
    | noFunction hn hrest =>
      have hskip : n.isEntry = false := by
        cases n with
        | funDecl _ _ _ => cases hn
        | _ => rfl
      rw [List.filter_cons_of_neg (by simp [hskip])] at honly
      exact ih honly hrest hfree

end Lays

/-- The code of a function, from its body: the effect of the body, or its value in the
register for it. -/
def Source.Node.lowerBody (types : TypeTable) (layout : Layout) (x : Symbol) (g : FrameRecord)
    (body : Node) : Lower Stmt :=
  if x.ty.isVoid then (body.lower types layout g).effect
  else return .move (.temp Temp.rv) (← (body.lower types layout g).value)

section

variable {types : TypeTable} {layout : Layout} {s s' : LowerState} {u : Unit}

variable {y : Symbol} {params : List Symbol} {ns : List Node} {body : Node}

theorem lowerDefs_of_variable (h : Node.lowerDefs types layout (.varDecl y :: ns) s = .ok (u, s')) :
    ∃ t, Node.lowerDefs types layout ns t = .ok (u, s') := by
  rw [Node.lowerDefs] at h
  cases hy : layout.access? y with
  | none =>
    simp only [hy] at h
    cases h
  | some a =>
    cases a with
    | global l size =>
      simp only [hy] at h
      obtain ⟨_, t, -, hrest⟩ := Outcome.of_bindState h
      exact ⟨t, hrest⟩
    | localSlot _ _ _ | paramSlot _ _ _ =>
      simp only [hy] at h
      exact ⟨s, h⟩

theorem lowerDefs_of_function
    (h : Node.lowerDefs types layout (.funDecl y params (some body) :: ns) s = .ok (u, s')) :
    ∃ g code supply chunks, layout.frameOf? y = some g ∧
      body.lowerBody types layout y g ⟨s.supply, []⟩ = .ok (code, ⟨supply, chunks⟩) ∧
      Node.lowerDefs types layout ns ⟨supply, s.chunks ++ .code g.frame code :: chunks⟩ =
        .ok (u, s') := by
  rw [Node.lowerDefs] at h
  cases hg : layout.frameOf? y with
  | none =>
    simp only [hg] at h
    cases h
  | some g =>
    simp only [hg] at h
    obtain ⟨_, t, hfun, hrest⟩ := Outcome.of_bindState h
    obtain ⟨code, supply, chunks, hcode, rfl⟩ := Lower.function_eq_ok hfun
    exact ⟨g, code, supply, chunks, rfl, hcode, hrest⟩

/-- A function that is listed among some definitions has a chunk with its code. -/
theorem exists_code_of_lowerDefs {defs : List Node} {x : Symbol}
    (hmem : .funDecl x params (some body) ∈ defs)
    (h : Node.lowerDefs types layout defs s = .ok (u, s')) :
    ∃ g code t t', layout.frameOf? x = some g ∧
      body.lowerBody types layout x g t = .ok (code, t') ∧ .code g.frame code ∈ s'.chunks := by
  induction defs generalizing s with
  | nil => cases hmem
  | cons n ns ih =>
    cases hn : n.isDefinition with
    | false =>
      rw [lowerDefs_of_not_definition hn] at h
      cases hmem with
      | head => cases hn
      | tail _ hmem => exact ih hmem h
    | true =>
      cases n with
      | varDecl y =>
        obtain ⟨t, hrest⟩ := lowerDefs_of_variable h
        cases hmem with
        | tail _ hmem => exact ih hmem hrest
      | funDecl y ps b =>
        cases b with
        | none => cases hn
        | some b =>
          obtain ⟨g, code, supply, chunks, hg, hcode, hrest⟩ := lowerDefs_of_function h
          cases hmem with
          | tail _ hmem => exact ih hmem hrest
          | head =>
            have hgrows := (Lowers.of_definitions (fun _ _ body _ g => derived g body) hrest).grows
            refine ⟨g, code, _, _, hg, hcode, hgrows.chunks.subset ?_⟩
            exact List.mem_append_right _ List.mem_cons_self
      | _ => cases hn

end

/-- A chunk of code has a linear form among the linear chunks. -/
theorem IR.Chunk.exists_mem_canonicalAll {chunks : List Chunk} {frame : Frame} {body : Stmt}
    (h : .code frame body ∈ chunks) (n : Nat) :
    ∃ m, .code frame (.seq (body.canonical m).1) ∈ (Chunk.canonicalAll chunks n).1 := by
  induction chunks generalizing n with
  | nil => cases h
  | cons c rest ih =>
    cases h with
    | head => exact ⟨n, List.mem_cons_self⟩
    | tail _ h =>
      cases c with
      | data l size init =>
        obtain ⟨m, hm⟩ := ih h n
        exact ⟨m, List.mem_cons_of_mem _ hm⟩
      | code frame' body' =>
        obtain ⟨m, hm⟩ := ih h (body'.canonical n).2
        exact ⟨m, List.mem_cons_of_mem _ hm⟩

/-- What the entry name leads to in the two forms of a program: the code of a function, which
was lowered from its body, in its frame, which has one parameter. -/
structure Compilation.Enters (c : Compilation) (types : TypeTable) (x param : Symbol)
    (body : Node) (g : FrameRecord) (code : Stmt) : Prop where
  frameOf : c.layout.frameOf? x = some g
  decl : g.decl = x
  params : g.params = [param]
  arity : g.frame.params.length = 1
  lowered : ∃ s s', body.lowerBody types c.layout x g s = .ok (code, s')
  tree : c.tree.lookup? entryName = some ⟨g.frame, .ofStmt code⟩
  linear : ∃ n, c.linear.lookup? entryName = some ⟨g.frame, .ofStmt (.seq (code.canonical n).1)⟩

namespace Source.Program

/-- The entry name leads to the function that the check accepted. -/
theorem enters_of_compile {p : Source.Program} {c : Compilation} {x param : Symbol} {body : Node}
    (hentry : p.EnteredThrough x param body) (h : p.compile = .ok c) :
    ∃ g code, c.Enters p.types x param body g code := by
  obtain ⟨laid, lowered, hstages⟩ := Compilation.stages_of_compile h
  have hlisted : .funDecl x [param] (some body) ∈ p.defs :=
    List.mem_of_mem_filter (hentry.only ▸ List.mem_singleton.2 rfl)
  -- the frame
  obtain ⟨s, hheaders, hdefs⟩ := Lays.of_build hstages.layout
  obtain ⟨f, hf, hdecl, hparams, -, hlabel⟩ :=
    hheaders.entry_label hentry.only (List.not_mem_nil)
  obtain ⟨g, hg, rfl⟩ := Layout.exists_frameOf? hstages.layout (hdefs.bare_prefix.subset hf)
  have hdecl : g.decl = x := hdecl
  have hparams : g.params = [param] := hparams
  have hlabel : g.frame.label.name = entryName := hlabel
  have hg : c.layout.frameOf? x = some g := hdecl ▸ hg
  -- the code
  obtain ⟨⟨_, t⟩, hdefs', hlower⟩ := Outcome.of_bind hstages.lower
  have hchunks : t.chunks = c.chunks := congrArg Prod.fst (Except.ok.inj hlower)
  obtain ⟨g', code, t, t', hg', hcode, hmem⟩ := exists_code_of_lowerDefs hlisted hdefs'
  rw [hchunks] at hmem
  cases hg.symm.trans hg'
  obtain ⟨n, hn⟩ := Chunk.exists_mem_canonicalAll hmem lowered.temps
  refine ⟨g, code, hg, hdecl, hparams, ?_, ⟨t, t', hcode⟩, ?_, n, ?_⟩
  · simp [FrameRecord.frame, hparams]
  · rw [← hlabel]
    exact Program.lookup?_of_code hstages.tree hmem
  · rw [← hlabel]
    exact Program.lookup?_of_code hstages.linear (hstages.canonical ▸ hn)

end Source.Program

namespace Machine

/-- A run that stops early does so where it enters the function it was asked for. -/
theorem enter_of_run {m m' : Machine} (hstarted : m.state.started = false) {fuel : Nat}
    {name : String} {arg : Word} {e : Stop} (h : m.run fuel name arg = (.error (.stopped e), m')) :
    enter m.setup fuel name arg m.startState = .error e m'.state := by
  unfold run at h
  rw [hstarted, if_neg Bool.false_ne_true] at h
  dsimp only at h
  split at h
  · cases h
  · cases h
    assumption

/-- A run that starts with a function of one parameter does not miss it, and meets no defect
before it is entered. -/
theorem run_of_lookup {p : Program} {o : Options} {m : Machine} (hm : new p o = .ok m)
    {name : String} {f : Function} (hf : p.lookup? name = some f)
    (harity : f.frame.params.length = 1) (fuel : Nat) (arg : Word) :
    (∀ e m', m.run fuel name arg = (.error (.stopped (.fault e)), m') →
      ∀ n, e.cause ≠ .noEntry n) ∧
    ∀ d m', m.run fuel name arg = (.error (.stopped (.defect d)), m') →
      0 < m'.state.stats.calls := by
  obtain ⟨hsetup, hstarted⟩ := new_eq_ok hm
  have henter : enter m.setup fuel name arg =
      Exec.invoke m.setup (fun b => Exec.block m.setup fuel b 0) f 0 [arg] := by
    unfold enter
    rw [show m.setup.program = p from congrArg Setup.program hsetup, hf]
  have hinside : ∀ b, Exec.Inside (Exec.block m.setup fuel b 0) :=
    fun b => .block m.setup fuel b 0
  refine ⟨fun e m' h => ?_, fun d m' h => ?_⟩
  · have hsince := Exec.Inside.invoke m.setup hinside f 0 [arg] m.startState
    rw [← henter, enter_of_run hstarted h] at hsince
    cases hsince with
    | fault _ hcause => exact hcause
  · have hargs : [arg].length = f.frame.params.length := harity.symm
    have hlt := Exec.Admitted.invoke m.setup hinside hargs 0 m.startState d m'.state
    exact Nat.zero_lt_of_lt (hlt (henter ▸ enter_of_run hstarted h))

end Machine

/-- The checked entry is the one that runs. The check accepts a program if and only if it can
be entered; the entry name then leads to the code of that declaration in both forms, and a
run of either form neither misses its entry nor meets a defect before it is entered, whatever
else bears the name. -/
theorem Source.Program.checked_entry_runs (p : Source.Program) :
    (∀ x, p.checkEntry = .ok x ↔ ∃ param body, p.EnteredThrough x param body) ∧
      ∀ c, p.compile = .ok c → ∃ x param body g code, p.checkEntry = .ok x ∧
        p.EnteredThrough x param body ∧ c.Enters p.types x param body g code ∧
        ∀ program, program = c.tree ∨ program = c.linear → ∀ o m, Machine.new program o = .ok m →
          ∀ fuel arg, (∀ f m', m.run fuel entryName arg = (.error (.stopped (.fault f)), m') →
              ∀ name, f.cause ≠ .noEntry name) ∧
            ∀ d m', m.run fuel entryName arg = (.error (.stopped (.defect d)), m') →
              0 < m'.state.stats.calls := by
  refine ⟨fun x => checkEntry_eq_ok_iff, fun c hc => ?_⟩
  obtain ⟨x, hx, -⟩ := Outcome.of_bind hc
  have hx := Outcome.of_mapError hx
  obtain ⟨param, body, hentry⟩ := checkEntry_eq_ok_iff.1 hx
  obtain ⟨g, code, henters⟩ := enters_of_compile hentry hc
  refine ⟨x, param, body, g, code, hx, hentry, henters, fun program hprogram o m hm fuel arg => ?_⟩
  obtain ⟨n, hlinear⟩ := henters.linear
  rcases hprogram with rfl | rfl
  · exact Machine.run_of_lookup hm henters.tree henters.arity fuel arg
  · exact Machine.run_of_lookup hm hlinear henters.arity fuel arg

/-- A variable, the entry and a function inside it, all of one name. -/
def Sample.namesakes : Source.Program :=
  let total := integer 2 "_main"
  let inner := integer 3 "_main"
  let x := integer 4 "x"
  ofDefs [
    .varDecl total,
    entry
      (.within (.call inner [.ident argument])
        [function inner [x] (assign (.ident total) (add (.ident x) (.number 1)))])]

/-- The entry is found among its namesakes. -/
theorem Sample.namesakes_entered :
    ∃ c m m' x param body g code, namesakes.compile = .ok c ∧
      Machine.new c.linear ⟨160, 0, false⟩ = .ok m ∧ m.run 20 entryName 6 = (.ok 7, m') ∧
      namesakes.checkEntry = .ok x ∧ x.id = 1 ∧ namesakes.EnteredThrough x param body ∧
      c.Enters namesakes.types x param body g code ∧
      ∀ fuel arg f m', m.run fuel entryName arg = (.error (.stopped (.fault f)), m') →
        ∀ name, f.cause ≠ .noEntry name := by
  have hrun : (namesakes.compile.toOption.bind fun c =>
      (Machine.new c.linear ⟨160, 0, false⟩).toOption.bind fun m =>
        (m.run 20 entryName 6).1.toOption) = some 7 := by
    decide +kernel
  have hid : namesakes.checkEntry.toOption.map (·.id) = some 1 := by decide +kernel
  obtain ⟨c, hc, hrun⟩ := Outcome.of_toOption_bind hrun
  obtain ⟨m, hm, hrun⟩ := Outcome.of_toOption_bind hrun
  obtain ⟨x, param, body, g, code, hx, hentry, henters, hruns⟩ :=
    (Source.Program.checked_entry_runs namesakes).2 c hc
  rw [hx] at hid
  exact ⟨c, m, _, x, param, body, g, code, hc, hm, Prod.ext (Outcome.of_toOption hrun) rfl, hx,
    Option.some.inj hid, hentry, henters,
    fun fuel arg => (hruns c.linear (.inr rfl) _ m hm fuel arg).1⟩

end TreeCode
