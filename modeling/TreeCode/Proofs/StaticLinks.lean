/-
# Static links of a compiled program

In a well-scoped program, the code of a function finds the variables of the functions
around it by following static links, and passes on as many links as its callees need. As
long as moves overwrite neither static links nor saved frame pointers, the links are right
at every moment of a run: they lead through the innermost frames of the functions around
the running one.
-/

import TreeCode.Proofs.Layout.Room
import TreeCode.Proofs.Realization
import TreeCode.Proofs.StackDiscipline

namespace TreeCode

open IR (Expr Stmt)
open Source (Item Node Routine Symbol)

section Convention

variable {p : Source.Program} {layout : Layout} {supply laid : Supply} {setup : Setup}

/-- Every function of a program has the frame of a declared one, whose words do not
overlap. -/
def Framed (p : Source.Program) (layout : Layout) (program : Program) : Prop :=
  ∀ f ∈ program.functions, ∃ outer r g body, Assigned p layout outer r g ∧
    r.body = some body ∧ f.frame = g.frame ∧ g.frame.Spaced

/-- The convention that moves spare static links and saved frame pointers, and that calls
follow the right number of links. -/
def Convention.linked (hbuild : Layout.build supply p = .ok (layout, laid))
    (hscoped : p.WellScoped) (hroomy : setup.Roomy) (hframed : Framed p layout setup.program) :
    Convention setup where
  guarded f := [0, f.linkOffset]
  holds := Linked p layout
  policy frame := ⟨fun e => ∃ c, e = .const c, fun _ _ => True, fun l ps =>
    ∃ hops, ps.head?.join = some (.const hops) ∧ Visits p layout frame l hops⟩
  asked live addr := ∀ a ∈ live, Word.Apart addr a.base ∧ Word.Apart addr a.saved
  stored _ _ _ _ := True
  linkOffset_mem _ := List.mem_cons_of_mem _ (List.mem_singleton_self _)
  inside f hfits offset ho := by
    apply hfits
    simp only [List.mem_cons, List.not_mem_nil, or_false] at ho ⊢
    exact ho.imp_right .inl
  isAddress := by
    rintro f _ ⟨c, rfl⟩
    rfl
  congr hagree h := h.congr fun a ha => by
    simpa using hagree a ha 0 List.mem_cons_self
  steady := by
    rintro m m' a rest _ - - ⟨c, rfl⟩
    rfl
  called := by
    rintro s s' a rest l ps f hops w args hs hlinked ⟨hops', hhead, hvisits⟩ hf hps hfollow
    intro base m hargs hagree hfilled
    obtain ⟨outer, r, g, body, hr, hbody, hframe, hspaced⟩ :=
      hframed f (List.mem_of_find?_eq_some hf)
    have hl : f.frame.label = l := by
      have hfound := List.find?_some hf
      exact beq_iff_eq.1 hfound
    have hhops : hops = hops' := by
      cases hps with
      | cons hfirst _ => exact hfirst _ hhead
    refine hlinked.entered (b := ⟨f.frame, base⟩) hbuild hscoped hroomy hs (hhops ▸ hvisits)
      hfollow hr hbody hframe hl (fun c hc => ?_) (hfilled (hframe ▸ hspaced)).link
    simpa using hagree c hc 0 List.mem_cons_self
  spares _ _ _ _ hasked _ := by
    refine ⟨fun b hb offset ho => ?_, trivial⟩
    obtain ⟨hbase, hsaved⟩ := hasked b hb
    rcases List.mem_cons.1 ho with rfl | ho
    · rwa [Int64.add_zero]
    · exact List.mem_singleton.1 ho ▸ hsaved

/-- A function on top level may be entered without a static link. -/
theorem Convention.linked_enterable (hbuild : Layout.build supply p = .ok (layout, laid))
    (hscoped : p.WellScoped) (hroomy : setup.Roomy) (hframed : Framed p layout setup.program)
    {f : Function} (hf : f ∈ setup.program.functions) (hlevel : f.frame.level = 1)
    (args : List Word) (m : Memory) :
    Convention.Enterable (linked hbuild hscoped hroomy hframed).guarded
      (linked hbuild hscoped hroomy hframed).holds [] f 0 args m := by
  intro base m' hargs _ hfilled
  obtain ⟨outer, r, g, body, hr, hbody, hframe, hspaced⟩ := hframed f hf
  have hdepth := (hr.describes hbuild hscoped).level
  rw [hframe] at hlevel
  have houter : outer = [] := by
    change (g.level : Int) = 1 at hlevel
    exact List.length_eq_zero_iff.1 (by omega)
  subst houter
  refine ⟨[], r, g, body, hr, hbody, hframe,
    ⟨_, Layout.activation?_cons_self hr.found hframe, rfl⟩, ?_⟩
  exact (hfilled (hframe ▸ hspaced)).link

end Convention

/-- Where a variable is, if its place belongs to a frame that is live. -/
inductive Access.LiesIn (a : Live) (m : Memory) : Access → Word → Prop
  | localSlot {i : Nat} {offset size : Word} :
      LiesIn a m (.localSlot i offset size) (a.base + offset)
  | paramSlot {i : Nat} {offset : Word} : LiesIn a m (.paramSlot i offset false) (a.base + offset)
  | reference {i : Nat} {offset : Word} :
      LiesIn a m (.paramSlot i offset true) (m.readWord (a.base + offset))

/-- At a moment, the static links from the running frame lead to the innermost frames of
the functions around, and the code of the running function finds its variables there. -/
structure Anchored (p : Source.Program) (layout : Layout) (setup : Setup) (live : List Live)
    (s : State) (outer : List Routine) (r : Routine) (g : FrameRecord) (body : Node) : Prop where
  running : ∃ a rest, live = a :: rest ∧ a.frame = g.frame ∧ s.fp = a.base
  /-- As many links as the levels differ by lead to the innermost frame of the function
  around that has the level. -/
  ancestors : ∀ level, 1 ≤ level → level ≤ g.level → ∃ q h a,
    (r :: outer)[g.level - level]? = some q ∧ layout.frameOf? q.decl = some h ∧
      h.level = level ∧ layout.activation? live q.decl = some a ∧
      Exec.followLinks (g.level - level) s.fp s = .ok a.base s
  outermost : Exec.followLinks g.level s.fp s = .ok 0 s
  /-- The code for the address of a variable that is not static finds it in the innermost
  frame of the function that declares it. -/
  addresses : ∀ x e s₀ s₁, .ident x ∈ body.own →
    ((Node.ident x).lower p.types layout g).address s₀ = .ok (e, s₁) →
    (∃ l size, layout.access? x = some (.global l size)) ∨
    ∃ q around item a access w, ⟨q :: around, item⟩ ∈ p.declares ∧ item.decl = x ∧
      q :: around <:+ r :: outer ∧ layout.activation? live q.decl = some a ∧
      layout.access? x = some access ∧ access.LiesIn a s.memory w ∧
      ∀ run, Exec.eval setup run e s = .ok w s

section Moments

variable {p : Source.Program} {layout : Layout} {supply laid : Supply} {setup : Setup}
  {live : List Live} {s : State} {outer : List Routine} {r : Routine} {g : FrameRecord}
  {body : Node}

variable (hbuild : Layout.build supply p = .ok (layout, laid)) (hscoped : p.WellScoped)
include hbuild hscoped

/-- The functions around a function have the levels below its own. -/
theorem Assigned.ancestor (hr : Assigned p layout outer r g) {level : Nat} (hlow : 1 ≤ level)
    (hhigh : level ≤ g.level) : ∃ front q around, front ++ q :: around = r :: outer ∧
      front.length = g.level - level ∧ around.length + 1 = level := by
  have hdepth := (hr.describes hbuild hscoped).level
  have hlt : g.level - level < (r :: outer).length := by
    rw [List.length_cons]
    omega
  refine ⟨(r :: outer).take (g.level - level), (r :: outer)[g.level - level],
    (r :: outer).drop (g.level - level + 1), ?_, ?_, ?_⟩
  · rw [List.getElem_cons_drop, List.take_append_drop]
  · rw [List.length_take]
    omega
  · rw [List.length_drop, List.length_cons]
    omega

/-- The links of a frame lead to the functions around. -/
theorem Reaches.ancestors (hr : Assigned p layout outer r g)
    (hload : ∀ a ∈ live, s.memory.holdsWord a.base = true)
    (hreaches : Reaches layout s.memory live (r :: outer) s.fp) {level : Nat} (hlow : 1 ≤ level)
    (hhigh : level ≤ g.level) :
    ∃ q h a, (r :: outer)[g.level - level]? = some q ∧ layout.frameOf? q.decl = some h ∧
      h.level = level ∧ layout.activation? live q.decl = some a ∧
      Exec.followLinks (g.level - level) s.fp s = .ok a.base s := by
  obtain ⟨front, q, around, hfront, hlength, hlevel⟩ := hr.ancestor hbuild hscoped hlow hhigh
  rw [← hfront] at hreaches
  obtain ⟨w, hfollow, ⟨a, ha, rfl⟩, -⟩ := hreaches.followLinks hload
  obtain ⟨-, h, hh, -⟩ := Layout.activation?_eq_some ha
  have hq : Assigned p layout around q h := ⟨hr.nested q around ⟨front, hfront⟩, hh⟩
  refine ⟨q, h, a, ?_, hh, ?_, ha, hlength ▸ hfollow⟩
  · rw [← hfront, ← hlength, List.getElem?_append_right (Nat.le_refl _), Nat.sub_self]
    rfl
  · rw [(hq.describes hbuild hscoped).level, hlevel]

theorem Reaches.outermost (hr : Assigned p layout outer r g)
    (hload : ∀ a ∈ live, s.memory.holdsWord a.base = true)
    (hreaches : Reaches layout s.memory live (r :: outer) s.fp) :
    Exec.followLinks g.level s.fp s = .ok 0 s := by
  rw [← List.append_nil (r :: outer)] at hreaches
  obtain ⟨w, hfollow, rfl⟩ := hreaches.followLinks hload
  rw [(hr.describes hbuild hscoped).level]
  exact hfollow

/-- The code for the address of a variable finds it. -/
theorem Reaches.addresses (hroomy : setup.Roomy) (hs : Stacked setup live s)
    (hr : Assigned p layout outer r g) (hbody : r.body = some body)
    (hreaches : Reaches layout s.memory live (r :: outer) s.fp) {x : Symbol} {e : Expr}
    {s₀ s₁ : LowerState} (hx : .ident x ∈ body.own)
    (he : ((Node.ident x).lower p.types layout g).address s₀ = .ok (e, s₁)) :
    (∃ l size, layout.access? x = some (.global l size)) ∨
    ∃ q around item a access w, ⟨q :: around, item⟩ ∈ p.declares ∧ item.decl = x ∧
      q :: around <:+ r :: outer ∧ layout.activation? live q.decl = some a ∧
      layout.access? x = some access ∧ access.LiesIn a s.memory w ∧
      ∀ run, Exec.eval setup run e s = .ok w s := by
  obtain ⟨⟨inside, item⟩, hd, -, rfl, hsuffix⟩ := hscoped.ident_visible hr.declared hbody hx
  have hload := hs.holdsWord_base hroomy
  -- a slot is found in the frame of the function that declares the variable
  have hslot : ∀ {q around i}, ⟨q :: around, item⟩ ∈ p.declares → q :: around <:+ r :: outer →
      Encloses (LayoutState.bare ⟨layout, laid⟩) (q :: around) (some i) →
      ∃ a h, Assigned p layout around q h ∧ layout.activation? live q.decl = some a ∧
        a ∈ live ∧ a.frame = h.frame ∧
        ∀ run offset, Exec.eval setup run (slotAddress layout g i offset) s =
          .ok (a.base + offset) s := by
    intro q around i hd hsuffix hin
    obtain ⟨h, hq, hi⟩ := Assigned.of_encloses hbuild hin
      (p.nested _ hd q around (List.suffix_refl _))
    obtain ⟨a, ha, heval⟩ :=
      hreaches.eval_slotAddress hbuild hscoped hr hq hsuffix hi hload
    obtain ⟨hmem, h', hh', hframe⟩ := Layout.activation?_eq_some ha
    cases hq.found.symm.trans hh'
    exact ⟨a, h, hq, ha, hmem, hframe, heval⟩
  have hlowers := (show Derived p.types layout _ _ from Derived.ident item.decl).address he
  cases hlowers with
  | global haccess => exact .inl ⟨_, _, haccess⟩
  | localSlot haccess _ =>
    cases Layout.placed_of_once hbuild hscoped.once hd haccess with
    | @localSlot q around x i before hin _ =>
      obtain ⟨a, h, -, ha, -, -, heval⟩ := hslot hd hsuffix hin
      exact .inr ⟨q, around, _, a, _, _, hd, rfl, hsuffix, ha, haccess, .localSlot,
        fun run => heval run _⟩
  | paramSlot haccess _ =>
    generalize hflag : false = byRef at haccess
    cases Layout.placed_of_once hbuild hscoped.once hd haccess with
    | @paramSlot q around x i k hin _ =>
      obtain ⟨a, h, -, ha, -, -, heval⟩ := hslot hd hsuffix hin
      refine .inr ⟨q, around, _, a, _, _, hd, rfl, hsuffix, ha, haccess, hflag ▸ .paramSlot,
        fun run => heval run _⟩
  | reference haccess _ =>
    generalize hflag : true = byRef at haccess
    cases Layout.placed_of_once hbuild hscoped.once hd haccess with
    | @paramSlot q around x i k hin hk =>
      obtain ⟨a, h, hq, ha, hmem, hframe, heval⟩ := hslot hd hsuffix hin
      refine .inr ⟨q, around, _, a, _, _, hd, rfl, hsuffix, ha, haccess, hflag ▸ .reference,
        fun run => (Exec.bind_of_ok (heval run _)).trans (if_pos ?_)⟩
      have hk : k < h.params.length := by
        rw [(hq.describes hbuild hscoped).params]
        exact (List.getElem?_eq_some_iff.1 hk).1
      refine hs.holdsWord hroomy hmem ((hs.adjacent.inside.2 a hmem).1 _ ?_)
      rw [hframe]
      exact List.mem_cons_of_mem _ (List.mem_cons_of_mem _
        (List.mem_map.2 ⟨k, List.mem_range.2 hk, rfl⟩))

end Moments

/-- A move that overwrites no static link and no saved frame pointer. -/
def Event.SparesLinks : Event → Prop
  | .store live _ _ addr _ => ∀ a ∈ live, Word.Apart addr a.base ∧ Word.Apart addr a.saved
  | _ => True

instance (e : Event) : Decidable e.SparesLinks :=
  match e with
  | .store live _ _ addr _ =>
    inferInstanceAs (Decidable (∀ a ∈ live, Word.Apart addr a.base ∧ Word.Apart addr a.saved))
  | .moment .. => .isTrue trivial
  | .returned .. => .isTrue trivial

variable {p : Source.Program} {c : Compilation} {layout : Layout} {supply laid : Supply}
  {program : TreeCode.Program} {setup : Setup}

section

variable (hbuild : Layout.build supply p = .ok (layout, laid)) (hscoped : p.WellScoped)
  (hroomy : setup.Roomy) (hframed : Framed p layout setup.program)
include hbuild hscoped hroomy hframed

theorem Convention.linked_asked {e : Event} (h : e.SparesLinks) :
    (linked hbuild hscoped hroomy hframed).Asked e := by
  cases e with
  | store _ _ _ _ _ => exact h
  | moment _ _ | returned _ _ _ => trivial

/-- Compiled code calls functions over the right number of links. -/
theorem Convention.linked_governs (hfits : ∀ f ∈ setup.program.functions, f.frame.Fits)
    {N : Label → Prop} {k : Nat} (hrealized : ∀ f ∈ setup.program.functions, ∃ outer r g body code,
      Realizes p layout N k f outer r g body code) :
    (linked hbuild hscoped hroomy hframed).Governs := by
  intro f hf
  obtain ⟨outer, r, g, body, code, hrealizes⟩ := hrealized f hf
  refine ⟨hfits f hf, _, _, Stmt.flowsAll_of_admits f.body.toList ∅ ?_⟩
  refine ⟨fun c => ⟨c, rfl⟩, fun _ => trivial, fun l first hcall ps hps => ?_⟩
  obtain ⟨around, q, h, hq, hl, haround, rfl⟩ := hrealizes.visits hscoped hcall
  exact ⟨_, hps, outer, r, g, around, q, h, hrealizes.assigned, hrealizes.frame, hq, hl,
    haround, rfl⟩

end

/-- A program is entered through a function on top level. -/
theorem Source.Program.level_of_entry (h : p.compile = .ok c)
    (hprogram : program = c.tree ∨ program = c.linear) {f : TreeCode.Function}
    (hf : program.lookup? entryName = some f) : f.frame.level = 1 := by
  obtain ⟨laid, lowered, hstages⟩ := Compilation.stages_of_compile h
  obtain ⟨N, k, hrealized⟩ := p.exists_realized h hprogram
  obtain ⟨outer, r, g, body, code, hrealizes⟩ := hrealized f (List.mem_of_find?_eq_some hf)
  have hname := List.find?_some hf
  rw [hrealizes.frame] at hname ⊢
  have hlevel := Layout.level_of_label hstages.layout hrealizes.assigned.mem
    (beq_iff_eq.1 hname ▸ by decide)
  exact congrArg Int.ofNat hlevel

/-- The functions of a compiled program have the frames of the layout. -/
theorem Source.Program.framed (h : p.compile = .ok c) (hsized : p.Sized)
    (hprogram : program = c.tree ∨ program = c.linear) : Framed p c.layout program ∧
      ∀ f ∈ program.functions, f.frame.Fits := by
  obtain ⟨laid, lowered, hstages⟩ := Compilation.stages_of_compile h
  obtain ⟨N, k, hrealized⟩ := p.exists_realized h hprogram
  have hmeasures : ∀ g ∈ c.layout.frames, ∃ total, g.Measures total := by
    intro g hg
    obtain ⟨i, hi⟩ := Array.getElem?_of_mem hg
    exact ⟨_, Layout.measures_of_build hstages.layout hsized hi⟩
  constructor
  all_goals
    intro f hf
    obtain ⟨outer, r, g, body, code, hrealizes⟩ := hrealized f hf
    obtain ⟨total, hg⟩ := hmeasures g hrealizes.assigned.mem
  · exact ⟨outer, r, g, body, hrealizes.assigned, hrealizes.defined, hrealizes.frame, hg.spaced⟩
  · exact hrealizes.frame ▸ hg.fits

/-- Static links are right. In a run of a well-scoped program, in either form, that starts
on top level and overwrites no static link and no saved frame pointer, the links from the
running frame lead at every moment to the innermost frames of the functions around, and
the code for addresses finds the variables there. Calls follow no negative number of
links. -/
theorem Source.Program.links_reach_ancestors {p : Source.Program} {c : Compilation}
    (hc : p.compile = .ok c) (hscoped : p.WellScoped) (hsized : p.Sized)
    {program : TreeCode.Program} (hprogram : program = c.tree ∨ program = c.linear)
    {o : Options} {m : Machine} (hm : Machine.new program o = .ok m) (fuel : Nat)
    (name : String) (arg : Word)
    (hname : name = entryName ∨ ∀ f, program.lookup? name = some f → f.frame.level = 1)
    (hspares : ∀ e ∈ m.log fuel name arg, e.SparesLinks) :
    (Watched.enter m.setup fuel name arg).run = Machine.enter m.setup fuel name arg ∧
      (∀ live s, .moment live s ∈ m.log fuel name arg → ∃ outer r g body,
        ⟨outer, .routine r⟩ ∈ p.declares ∧ c.layout.frameOf? r.decl = some g ∧
          r.body = some body ∧ Anchored p c.layout m.setup live s outer r g body) ∧
      ∀ f ∈ program.functions, ∀ l first, .call l first ∈ Stmt.effectsAll f.body.toList →
        ∃ g ∈ c.layout.frames, ∃ h ∈ c.layout.frames, f.frame = g.frame ∧ l = h.label ∧
          first = some (Int64.ofInt (hopCount g h)) ∧ 0 ≤ hopCount g h := by
  obtain ⟨laid, lowered, hstages⟩ := Compilation.stages_of_compile hc
  obtain ⟨N, k, hrealized⟩ := p.exists_realized hc hprogram
  obtain ⟨hframed, hfits⟩ := p.framed hc hsized hprogram
  obtain ⟨hroomy, hstart⟩ := Machine.stacked_of_new hm
  have hsetup : m.setup.program = program := congrArg Setup.program (Machine.new_eq_ok hm).1
  have hlevel : ∀ f, program.lookup? name = some f → f.frame.level = 1 := by
    rcases hname with rfl | hname
    · exact fun f hf => p.level_of_entry hc hprogram hf
    · exact hname
  subst hsetup
  have hlog := Convention.promised_of_log
    (Convention.linked_governs hstages.layout hscoped hroomy hframed hfits hrealized) hroomy
    hstart trivial (fun f hf => Convention.linked_enterable hstages.layout hscoped hroomy hframed
      (List.mem_of_find?_eq_some hf) (hlevel f hf) [arg] _)
    fun e he => Convention.linked_asked hstages.layout hscoped hroomy hframed (hspares e he)
  refine ⟨Watched.run_enter m.setup fuel name arg, fun live s hmoment => ?_,
    fun f hf l first hcall => ?_⟩
  · obtain ⟨hlive, hs, hlinked⟩ := hlog _ hmoment
    obtain ⟨a, rest, rfl⟩ := List.exists_cons_of_ne_nil hlive
    obtain ⟨outer, r, g, body, hr, hbody, hframe, hreaches⟩ := hlinked
    have hfp : s.fp = a.base := hs.fp
    have hload := hs.holdsWord_base hroomy
    rw [← hfp] at hreaches
    exact ⟨outer, r, g, body, hr.declared, hr.found, hbody, ⟨a, rest, rfl, hframe, hfp⟩,
      fun level hlow hhigh => hreaches.ancestors hstages.layout hscoped hr hload hlow hhigh,
      hreaches.outermost hstages.layout hscoped hr hload,
      fun x e s₀ s₁ hx he => hreaches.addresses hstages.layout hscoped hroomy hs hr hbody hx he⟩
  · obtain ⟨outer, r, g, body, code, hrealizes⟩ := hrealized f hf
    obtain ⟨around, q, h, hq, hl, ⟨front, hfront⟩, hfirst⟩ := hrealizes.visits hscoped hcall
    refine ⟨g, hrealizes.assigned.mem, h, hq.mem, hrealizes.frame, hl, hfirst, ?_⟩
    rw [hopCount_eq hstages.layout hscoped hrealizes.assigned hq hfront]
    exact Int.natCast_nonneg _

/-- The level of the running function at a moment. -/
def Event.runningLevel : Event → Int
  | .moment (a :: _) _ => a.frame.level
  | _ => 0

/-- A function of a function of a recursive function runs while two frames of the latter
are live, and its links lead to the innermost of them. -/
theorem Sample.nested_links_reach_ancestors :
    ∃ c m, nested.compile = .ok c ∧ nested.WellScoped ∧ nested.Sized ∧
      Machine.new c.linear ⟨240, 0, false⟩ = .ok m ∧
      (∀ e ∈ m.log 40 entryName 1, e.SparesLinks) ∧
      (∃ e ∈ m.log 40 entryName 1, e.liveCount = 5 ∧ e.runningLevel = 3) ∧
      (∀ live s, .moment live s ∈ m.log 40 entryName 1 → ∃ outer r g body,
        Anchored nested c.layout m.setup live s outer r g body) ∧
      ∀ f ∈ c.linear.functions, ∀ l first, .call l first ∈ Stmt.effectsAll f.body.toList →
        ∃ g h, first = some (Int64.ofInt (hopCount g h)) ∧ 0 ≤ hopCount g h := by
  have hscoped : nested.WellScoped := by decide +kernel
  have hsized : nested.Sized := by decide +kernel
  have hrun : (nested.compile.toOption.bind fun c =>
      (Machine.new c.linear ⟨240, 0, false⟩).toOption.map fun m =>
        decide ((∀ e ∈ m.log 40 entryName 1, e.SparesLinks) ∧
          ∃ e ∈ m.log 40 entryName 1, e.liveCount = 5 ∧ e.runningLevel = 3)) = some true := by
    decide +kernel
  obtain ⟨c, hc, hrun⟩ := Outcome.of_toOption_bind hrun
  obtain ⟨m, hm, hrun⟩ := Outcome.of_toOption_map hrun
  obtain ⟨hspares, hdeep⟩ := of_decide_eq_true hrun
  obtain ⟨-, hanchored, hhops⟩ := Source.Program.links_reach_ancestors hc hscoped hsized
    (.inr rfl) hm 40 entryName 1 (.inl rfl) hspares
  refine ⟨c, m, hc, hscoped, hsized, hm, hspares, hdeep, fun live s hmoment => ?_,
    fun f hf l first hcall => ?_⟩
  · obtain ⟨outer, r, g, body, -, -, -, h⟩ := hanchored live s hmoment
    exact ⟨outer, r, g, body, h⟩
  · obtain ⟨g, -, h, -, -, -, hfirst, hnonneg⟩ := hhops f hf l first hcall
    exact ⟨g, h, hfirst, hnonneg⟩

end TreeCode
