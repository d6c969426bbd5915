/-
# Isolation of variables

In a well-scoped program without indices and pointers, whose types and sizes are right, a
move writes one word: the variable, the parameter or the field that its assignment in the
running function denotes. It touches no other variable, no literal, no parameter that holds
an address, no static link and no saved frame pointer.

The convention behind this is that static links are right and that parameters which hold an
address hold that of a component of a variable. Moves keep it because regions do not
overlap, and calls keep it because they pass on addresses of components.
-/

import TreeCode.Proofs.Entry
import TreeCode.Proofs.Isolation.Code

namespace TreeCode

open IR (Expr Policy Stmt)
open Source (Declared Node Routine Symbol)

/-- A word belongs to the region of a variable and to no other region. -/
structure Region.Exclusive (p : Source.Program) (layout : Layout) (program : Program)
    (live : List Live) (region : Region) (addr : Word) : Prop where
  isVariable : region.IsVariable program
  inside : ∃ span, region.Spans p layout program live span ∧ span.start ≤ addr.toInt ∧
    addr.toInt + Word.byteSize ≤ span.stop
  apart : ∀ other span, other.Spans p layout program live span → other ≠ region →
    Stretch.Apart ⟨addr.toInt, Word.byteSize⟩ span

/-- The word at an address is what the assignment denotes that a move was lowered from. It is
an assignment of the running function. -/
def Targets (p : Source.Program) (layout : Layout) (program : Program) (m : Memory)
    (live : List Live) (code : Stmt) (region : Region) (addr : Word) : Prop :=
  ∃ a rest outer r g body n target move, live = a :: rest ∧
    a.frame.BelongsTo p layout outer r g body ∧ n ∈ body.own ∧
    StoreOf p.types layout g n move ∧ move.Becomes code ∧ n.target? = some target ∧
    (target.ty p.types).isWord = true ∧ Denotes p layout program live m target region addr

/-- The word at an address is what the assignment of a move denotes, and nothing else. -/
def Writes (p : Source.Program) (layout : Layout) (program : Program) (m : Memory)
    (live : List Live) (code : Stmt) (addr : Word) : Prop :=
  ∃ region, Targets p layout program m live code region addr ∧
    region.Exclusive p layout program live addr

section Convention

variable {p : Source.Program} {layout : Layout} {laid : Supply} {setup : Setup}
  {live rest : List Live} {a b : Live} {s : State} {m m' : Memory}

variable {f : Function} {outer : List Routine} {region : Region} {n : Node} {g : FrameRecord}
  {r : Routine} {offset : Word} {e : Expr} {addr : Word} {ps : List (Option Expr)} {k : Nat}
  {w hops : Word} {args : List Word}

/-- A component that is a word belongs to its region only. -/
theorem Component.exclusive (harranged : Arranged p layout laid setup.program)
    (hroomy : setup.Roomy) (hadj : Adjacent setup.program.dataSize setup.memorySize live)
    {span : Stretch} {t : Ty} (hspans : region.Spans p layout setup.program live span)
    (h : Component p layout setup.program region t w) (ht : t.isWord = true) :
    region.Exclusive p layout setup.program live w := by
  obtain ⟨-, hlow, hhigh⟩ := h.inside harranged hroomy hadj hspans
  have hsize : t.size.toInt = Word.byteSize := by
    rw [Ty.size_of_isWord ht]
    rfl
  rw [hsize] at hhigh
  refine ⟨h.isVariable harranged hspans, ⟨span, hspans, hlow, hhigh⟩, ?_⟩
  intro other span' hother hne
  have hapart := hspans.apart harranged hadj hother hne.symm
  simp only [Stretch.Apart, Stretch.stop] at hapart hhigh ⊢
  omega

/-- The words that the convention guards: the static link, the saved frame pointer and the
parameters that hold an address. -/
def Layout.guarded (layout : Layout) (f : Frame) : List Word :=
  0 :: f.linkOffset :: layout.references f

/-- What is guarded lies inside the frame. -/
theorem Layout.holds_guarded {f : Frame} (hfits : f.Fits) (ho : offset ∈ layout.guarded f)
    : f.Holds offset := by
  apply hfits
  rcases List.mem_cons.1 ho with rfl | ho
  · exact List.mem_cons_self
  rcases List.mem_cons.1 ho with rfl | ho
  · exact List.mem_cons_of_mem _ List.mem_cons_self
  · obtain ⟨g, -, rfl, k, x, hk, -, rfl⟩ := Layout.mem_references.1 ho
    refine List.mem_cons_of_mem _ (List.mem_cons_of_mem _ (List.mem_map.2 ⟨k, ?_, rfl⟩))
    exact List.mem_range.2 (List.getElem?_eq_some_iff.1 hk).1

theorem Live.Agree.links (h : Live.Agree layout.guarded live m m') :
    ∀ b ∈ live, m'.readWord b.base = m.readWord b.base := by
  intro b hb
  simpa using h b hb 0 List.mem_cons_self

theorem Live.Agree.references (h : Live.Agree layout.guarded live m m') :
    ∀ b ∈ live, ∀ offset ∈ layout.references b.frame,
      m'.readWord (b.base + offset) = m.readWord (b.base + offset) :=
  fun b hb offset ho => h b hb offset (List.mem_cons_of_mem _ (List.mem_cons_of_mem _ ho))

/-- What is guarded are parts of the frame that do not belong to a variable. -/
theorem Arranged.guarded_spans (h : Arranged p layout laid setup.program) (hb : b ∈ live)
    (hg : g ∈ layout.frames) (hframe : b.frame = g.frame) (ho : offset ∈ layout.guarded b.frame) :
    ∃ part, ¬ (Region.part b part).IsVariable setup.program ∧
      (Region.part b part).Spans p layout setup.program live
        ⟨b.base.toInt + offset.toInt, Word.byteSize⟩ := by
  rcases List.mem_cons.1 ho with rfl | ho
  · exact ⟨.link, id, .part hb hg hframe List.mem_cons_self rfl⟩
  rcases List.mem_cons.1 ho with rfl | ho
  · have hs : Part.saved.stretch? layout g =
        some ⟨b.frame.linkOffset.toInt, Word.byteSize⟩ := by
      rw [hframe]
      rfl
    exact ⟨.saved, id, .part hb hg hframe (List.mem_cons_of_mem _ List.mem_cons_self) hs⟩
  · obtain ⟨g', hg', hframe', k, x, hk, hx, rfl⟩ := Layout.mem_references.1 ho
    obtain rfl := Layout.eq_of_label h.build hg hg'
      (congrArg (fun f : Frame => f.label.name) (hframe.symm.trans hframe'.symm))
    obtain ⟨i, hi⟩ := Array.getElem?_of_mem hg
    have haccess := Layout.param_access h.build h.wellScoped.once hi hk
    have hs : (Part.param x).stretch? layout g =
        some ⟨(FrameRecord.paramOffset k).toInt, Word.byteSize⟩ := by
      simp [Part.stretch?, haccess, (Layout.routine_of_frame h.build hi).1]
    refine ⟨.param x, ?_, .part hb hg hframe ?_ hs⟩
    · simp [Region.IsVariable, hx]
    · simp [FrameRecord.parts, List.mem_of_getElem? hk]

/-- A word that belongs to a variable is apart from what is guarded. -/
theorem Region.Exclusive.spares (harranged : Arranged p layout laid setup.program)
    (hroomy : setup.Roomy) (hadj : Adjacent setup.program.dataSize setup.memorySize live)
    (hrefs : Referring p layout setup.program m live)
    (h : region.Exclusive p layout setup.program live addr) (hb : b ∈ live)
    (ho : offset ∈ layout.guarded b.frame) : Word.Apart addr (b.base + offset) := by
  obtain ⟨g, hg, hframe⟩ := hrefs.framed b hb
  obtain ⟨part, hpart, hspans⟩ := harranged.guarded_spans hb hg hframe ho
  have hapart := h.apart _ _ hspans fun heq => hpart (heq ▸ h.isVariable)
  obtain ⟨hfits, hdata, -, htop⟩ := hadj.inside.2 b hb
  have hbase := Int.le_trans hroomy.data_nonneg hdata
  rw [Word.Apart, Live.toInt_add hroomy hbase htop (Layout.holds_guarded hfits ho)]
  exact hapart

/-- The address of a node of the running function is that of what the node denotes. -/
theorem Locates.exists_denotes (harranged : Arranged p layout laid setup.program)
    (hlinked : Linked p layout m (a :: rest))
    (hrefs : Referring p layout setup.program m (a :: rest)) (h : Locates p layout a.frame n e)
    (hty : n.ty p.types ≠ .absent) :
    ∃ region, Denotes p layout setup.program (a :: rest) m n region
      (e.place setup.program a.base m) := by
  obtain ⟨outer, r, g, body, hr, hbody, hframe, hreaches⟩ := hlinked
  obtain ⟨outer', r', g', body', hbelongs, hn, he⟩ := h
  obtain ⟨rfl, rfl, rfl, rfl⟩ :=
    hbelongs.unique harranged.build harranged.wellScoped ⟨hr, hbody, hframe⟩
  exact TreeCode.exists_denotes harranged hr hbody hreaches hrefs hn hty he

/-- The address of a node of the running function stays the same as long as what is guarded
does. -/
theorem Locates.place_congr {program : Program}
    (hbuild : Layout.build .empty p = .ok (layout, laid)) (hscoped : p.WellScoped)
    (hlinked : Linked p layout m (a :: rest)) (hagree : Live.Agree layout.guarded (a :: rest) m m')
    (h : Locates p layout a.frame n e) : e.place program a.base m' = e.place program a.base m := by
  obtain ⟨outer, r, g, body, hr, hbody, hframe, hreaches⟩ := hlinked
  obtain ⟨outer', r', g', body', hbelongs, hn, he⟩ := h
  obtain ⟨rfl, rfl, rfl, rfl⟩ := hbelongs.unique hbuild hscoped ⟨hr, hbody, hframe⟩
  exact hreaches.place_congr hbuild hscoped hr hbody hagree.links hagree.references hn he

section

variable (harranged : Arranged p layout laid setup.program)
  (hlinked : Linked p layout m (a :: rest)) (hrefs : Referring p layout setup.program m (a :: rest))
  (hr : Assigned p layout outer r g)
include harranged hlinked hrefs hr

/-- What a call passes for an aggregate is the address of a component of a variable. -/
theorem Referring.passed (hsite : (Policy.direct p layout a.frame).site g.label ps)
    (hps : List.Forall₂ (Expr.StandsFor setup.program a.base m) ps (hops :: args)) {x : Symbol}
    (hk : r.params[k]? = some x) (hx : x.ty.isAggregate = true) (hw : args[k]? = some w) :
    ∃ region span, region.Spans p layout setup.program (a :: rest) span ∧
      Component p layout setup.program region x.ty w := by
  obtain ⟨_, qs, rfl, -, hknown⟩ := hsite
  cases hps with
  | cons _ hps =>
    obtain ⟨hlength, hzip⟩ := List.forall₂_iff_zip.1 hps
    have hlt : k < qs.length := hlength ▸ (List.getElem?_eq_some_iff.1 hw).1
    have hq : qs[k]? = some qs[k] := List.getElem?_eq_getElem hlt
    -- the argument is the address of what a node of the caller denotes
    obtain ⟨n, e, he, hlocates, hty⟩ := hknown outer r g hr rfl k x _ hk hx hq
    have hplace : w = e.place setup.program a.base m :=
      hzip (List.mem_of_getElem? (List.getElem?_zip_eq_some.2 ⟨hq, hw⟩)) e he
    obtain ⟨region, hden⟩ := hlocates.exists_denotes harranged hlinked hrefs
      (hty ▸ Ty.ne_absent_of_isAggregate hx)
    obtain ⟨span, hspans⟩ := hden.exists_span harranged
    rw [hplace, ← hty]
    exact ⟨region, span, hspans, hden.component⟩

/-- A function that is called as the policy asks has parameters which refer to components of
variables. -/
theorem Referring.entered (hframe : f.frame = g.frame)
    (hsite : (Policy.direct p layout a.frame).site f.frame.label ps)
    (hps : List.Forall₂ (Expr.StandsFor setup.program a.base m) ps (hops :: args))
    (hargs : args.length = f.frame.params.length) {base link : Word}
    (hagree : Live.Agree layout.guarded (a :: rest) m m')
    (hfilled : Live.Filled ⟨f.frame, base⟩ m' link args) :
    Referring p layout setup.program m' (⟨f.frame, base⟩ :: a :: rest) := by
  refine (hrefs.congr hagree.references).push ⟨g, hr.mem, hframe⟩ fun h hh hframe' k x hk hx => ?_
  obtain rfl := Layout.eq_of_label harranged.build hr.mem hh
    (congrArg (fun f : Frame => f.label.name) (hframe.symm.trans hframe'))
  have hslot : f.frame.params[k]? = some (FrameRecord.paramOffset k) := by
    rw [hframe]
    simp [FrameRecord.frame, (List.getElem?_eq_some_iff.1 hk).1]
  have hlt : k < args.length := hargs ▸ (List.getElem?_eq_some_iff.1 hslot).1
  have harg : args[k]? = some args[k] := List.getElem?_eq_getElem hlt
  have hread : m'.readWord (base + FrameRecord.paramOffset k) = args[k] :=
    hfilled.params (FrameRecord.paramOffset k, args[k])
      (List.mem_of_getElem? (List.getElem?_zip_eq_some.2 ⟨hslot, harg⟩))
  rw [(hr.describes harranged.build harranged.wellScoped).params] at hk
  rw [hframe] at hsite
  rw [hread]
  exact hrefs.passed harranged hlinked hr hsite hps hk hx harg

end

/-- A move writes to what its assignment denotes and nowhere else. -/
theorem Linked.writes (harranged : Arranged p layout laid setup.program) (hroomy : setup.Roomy)
    (hadj : Adjacent setup.program.dataSize setup.memorySize (a :: rest))
    (hlinked : Linked p layout m (a :: rest))
    (hrefs : Referring p layout setup.program m (a :: rest)) {code : Stmt} {e : Option Expr}
    (hstore : (Policy.direct p layout a.frame).store code e)
    (haddr : Expr.StandsFor setup.program a.base m e addr) :
    Writes p layout setup.program m (a :: rest) code addr := by
  obtain ⟨e, rfl, outer, r, g, body, n, target, move, hbelongs, hn, hmove, hcode, htarget, hword,
    hown, he⟩ := hstore
  obtain rfl := haddr e rfl
  have hlocates : Locates p layout a.frame target e :=
    ⟨outer, r, g, body, hbelongs, hown, he⟩
  obtain ⟨region, hden⟩ := hlocates.exists_denotes harranged hlinked hrefs
    (Ty.ne_absent_of_isWord hword)
  obtain ⟨span, hspans⟩ := hden.exists_span harranged
  exact ⟨region, ⟨a, rest, outer, r, g, body, n, target, move, rfl, hbelongs, hn, hmove, hcode,
    htarget, hword, hden⟩,
    hden.component.exclusive harranged hroomy hadj hspans hword⟩

/-- The convention that static links are right and that parameters which hold an address refer
to components of variables. -/
def Convention.isolated (harranged : Arranged p layout laid setup.program)
    (hroomy : setup.Roomy) (hframed : Framed p layout setup.program) : Convention setup where
  guarded := layout.guarded
  holds m live := Linked p layout m live ∧ Referring p layout setup.program m live
  policy := Policy.direct p layout
  asked _ _ := True
  stored := Writes p layout setup.program
  linkOffset_mem _ := List.mem_cons_of_mem _ List.mem_cons_self
  inside _ hfits _ ho := Layout.holds_guarded hfits ho
  isAddress h := Policy.isAddress_of_direct h
  congr hagree h := ⟨h.1.congr hagree.links, h.2.congr hagree.references⟩
  steady := by
    rintro m m' a rest e ⟨hlinked, -⟩ hagree (⟨c, rfl⟩ | ⟨n, hlocates⟩)
    · rfl
    · exact hlocates.place_congr harranged.build harranged.wellScoped hlinked hagree
  called := by
    intro s s' a rest l ps f hops w args hs hholds hsite hf hps hfollow base m hargs hagree hfilled
    obtain ⟨outer, r, g, body, hr, hbody, hframe, hspaced⟩ :=
      hframed f (List.mem_of_find?_eq_some hf)
    obtain rfl : f.frame.label = l := by
      have hfound := List.find?_some hf
      exact beq_iff_eq.1 hfound
    constructor
    · obtain ⟨hops', qs, rfl, hvisits, -⟩ := hsite
      have hlinks : Live.Agree (fun f => [0, f.linkOffset]) (a :: rest) s.memory m :=
        fun b hb offset ho => hagree b hb offset (List.mem_append_left (layout.references _) ho)
      exact (linked harranged.build harranged.wellScoped hroomy hframed).called hs hholds.1
        ⟨hops', rfl, hvisits⟩ hf hps hfollow base m hargs hlinks hfilled
    · exact hholds.2.entered harranged hholds.1 hr hframe hsite hps hargs hagree
        (hfilled (hframe ▸ hspaced))
  spares := by
    intro s a rest code e addr hs hholds hstore haddr _ _
    have hwrites := hholds.1.writes harranged hroomy hs.adjacent hholds.2 hstore haddr
    refine ⟨fun b hb offset ho => ?_, hwrites⟩
    obtain ⟨region, -, hexclusive⟩ := hwrites
    exact hexclusive.spares harranged hroomy hs.adjacent hholds.2 hb ho

variable (harranged : Arranged p layout laid setup.program) (hroomy : setup.Roomy)
  (hframed : Framed p layout setup.program)
include harranged hroomy hframed

/-- A function on top level without aggregates among its parameters may be entered without a
static link. -/
theorem Convention.isolated_enterable (hf : f ∈ setup.program.functions)
    (hlevel : f.frame.level = 1)
    (hscalar : ∀ g ∈ layout.frames, f.frame = g.frame → ∀ x ∈ g.params, x.ty.isAggregate = false)
    (args : List Word) (m : Memory) :
    Convention.Enterable (isolated harranged hroomy hframed).guarded
      (isolated harranged hroomy hframed).holds [] f 0 args m := by
  intro base m' hargs _ hfilled
  obtain ⟨outer, r, g, body, hr, -, hframe, -⟩ := hframed f hf
  constructor
  · exact linked_enterable harranged.build harranged.wellScoped hroomy hframed hf hlevel args m
      base m' hargs (fun _ hb => absurd hb List.not_mem_nil) hfilled
  · refine (Referring.nil m').push ⟨g, hr.mem, hframe⟩ fun h hh hframe' k x hk hx => ?_
    rw [hscalar h hh hframe' x (List.mem_of_getElem? hk)] at hx
    cases hx

/-- The code of a compiled program follows the convention, in both forms. -/
theorem Convention.isolated_governs (hfits : ∀ f ∈ setup.program.functions, f.frame.Fits)
    (hdirect : p.Direct) (htyped : p.WellTyped) {N : Label → Prop}
    (hrealized : ∀ f ∈ setup.program.functions, ∃ outer r g body code,
      Realizes p layout N k f outer r g body code) :
    (isolated harranged hroomy hframed).Governs := by
  intro f hf
  obtain ⟨outer, r, g, body, code, hrealizes⟩ := hrealized f hf
  obtain ⟨s, s', hlowers⟩ := hrealizes.lowers
  have hown := Source.Program.own_subset hrealizes.assigned.declared hrealizes.defined
  have hobeys : IR.Obeys (.direct p layout f.frame) (.stmt code) :=
    hlowers.obeys harranged.build harranged.wellScoped
      ⟨hrealizes.assigned, hrealizes.defined, hrealizes.frame⟩ (fun n hn => hdirect n (hown hn))
      fun n hn => htyped n (hown hn)
  have haddress : ∀ e, (Policy.direct p layout f.frame).address e → e.isAddress = true :=
    fun _ he => Policy.isAddress_of_direct he
  refine ⟨hfits f hf, ?_⟩
  rcases hrealizes.form with hbody | ⟨n, hn, hbody⟩
  · rw [hbody]
    exact ⟨_, ∅, Stmt.Flows.flatten (hobeys.flows haddress ∅)⟩
  · rw [hbody]
    obtain ⟨T, hflows⟩ := hobeys.flows_lift haddress hrealizes.sound.sound hrealizes.sound.closed
      hrealizes.sound.nodup hn
    exact ⟨T, ∅, hflows⟩

end Convention

variable {p : Source.Program} {layout : Layout} {program : Program} {addr : Word}

/-- A machine starts with the data of its program in memory. -/
theorem Machine.exists_image {o : Options} {m : Machine} (h : Machine.new program o = .ok m)
    : ∃ image, program.image? = some image := by
  unfold Machine.new at h
  dsimp only at h
  split at h
  · cases h
  split at h
  · cases h
  split at h
  · cases h
  next image himage => exact ⟨image, himage⟩

namespace Source.Program

variable {p : Source.Program} {c : Compilation} {program : TreeCode.Program}

/-- A compiled program whose sizes do not wrap around is arranged in memory as its layout
says. -/
theorem arranged (hc : p.compile = .ok c) (hscoped : p.WellScoped) (hsized : p.Sized)
    (hmeasured : p.Measured) (hprogram : program = c.tree ∨ program = c.linear)
    {image : Array UInt8} (himage : program.image? = some image) :
    ∃ laid, Arranged p c.layout laid program := by
  obtain ⟨laid, lowered, hstages⟩ := Compilation.stages_of_compile hc
  -- both forms have the same data
  have hdata : program.DataInOrder ∧ program.data = TreeCode.Program.dataFrom 0 c.chunks := by
    rcases hprogram with rfl | rfl
    · exact ⟨TreeCode.Program.dataInOrder hstages.tree himage,
        congrArg TreeCode.Program.data (TreeCode.Program.ofChunks_eq_ok hstages.tree)⟩
    · refine ⟨TreeCode.Program.dataInOrder hstages.linear himage, ?_⟩
      have heq := congrArg TreeCode.Program.data (TreeCode.Program.ofChunks_eq_ok hstages.linear)
      rw [heq, hstages.canonical]
      exact TreeCode.Program.dataFrom_canonicalAll c.chunks _ 0
  refine ⟨laid, hstages.layout, hscoped, hsized, hmeasured, hdata.1, fun x l size hx => ?_⟩
  rw [hdata.2]
  exact TreeCode.Program.mem_dataFrom c.chunks 0 (data_of_global hstages.layout hstages.lower hx)

/-- The function that a program is entered through has no aggregates among its parameters. -/
theorem scalar_of_entry (hc : p.compile = .ok c) (hprogram : program = c.tree ∨ program = c.linear)
    {f : TreeCode.Function} (hf : program.lookup? entryName = some f) :
    ∀ g ∈ c.layout.frames, f.frame = g.frame → ∀ x ∈ g.params, x.ty.isAggregate = false := by
  obtain ⟨x, hx, -⟩ := Outcome.of_bind hc
  obtain ⟨param, body, hentry⟩ := checkEntry_eq_ok_iff.1 (Outcome.of_mapError hx)
  obtain ⟨g, code, henters⟩ := enters_of_compile hentry hc
  obtain ⟨laid, lowered, hstages⟩ := Compilation.stages_of_compile hc
  have hframe : f.frame = g.frame := by
    obtain ⟨n, hlinear⟩ := henters.linear
    rcases hprogram with rfl | rfl
    · cases hf.symm.trans henters.tree
      rfl
    · cases hf.symm.trans hlinear
      rfl
  intro h hh hframe' y hy
  obtain rfl := Layout.eq_of_label hstages.layout hh (Array.mem_of_find?_eq_some henters.frameOf)
    (congrArg (fun f : Frame => f.label.name) (hframe'.symm.trans hframe))
  rw [henters.params, List.mem_singleton] at hy
  rw [hy, hentry.integer]
  rfl

end Source.Program

/-- Records, one inside the other, that are passed on by address: a static one and one of the
entry function. A function inside another one reaches the record that the latter was
given. -/
def Sample.relay : Source.Program :=
  let pair := Ty.record "pair" [("c", .integer), ("d", .integer)]
  let nest := Ty.record "nest" [("a", .integer), ("b", pair)]
  let f := integer 2 "f"
  let q : Symbol := ⟨3, "q", nest⟩
  let g := integer 4 "g"
  let r : Symbol := ⟨5, "r", pair⟩
  let h := integer 6 "h"
  let k := integer 7 "k"
  let u : Symbol := ⟨8, "u", nest⟩
  let v : Symbol := ⟨9, "v", nest⟩
  let j := integer 10 "j"
  ofDefs [
    .varDecl u,
    function g [r] (assign (.member (.ident r) "d") (.number 7)),
    function f [q]
      (.within (add (.call h [.number 5]) (.call g [.member (.ident q) "b"]))
        [function h [k] (assign (.member (.ident q) "a") (.ident k))]),
    entry
      (.within
        (.sequence [
          .string [104, 105],
          .forLoop (.ident j) (.number 0) (.number 1) (.number 1) (.call f [.ident v]),
          .call f [.ident u],
          .member (.member (.ident v) "b") "d"])
        [.varDecl v, .varDecl j])]

/-- Whether a part of a live frame takes all bytes of the word at an address. -/
def Live.covers (a : Live) (layout : Layout) (g : FrameRecord) (addr : Word) (part : Part) : Bool :=
  match part.stretch? layout g with
  | some s => decide (a.base.toInt + s.start ≤ addr.toInt ∧
      addr.toInt + Word.byteSize ≤ a.base.toInt + s.stop)
  | none => false

/-- A move that writes to two variables of the running function at once. -/
def Event.WritesTwice (layout : Layout) (ds : List Declared) : Event → Prop
  | .store (a :: _) _ _ addr _ => ∃ g ∈ layout.frames.toList, a.frame = g.frame ∧
      ∃ x ∈ localsOf ds g.decl.id, ∃ y ∈ localsOf ds g.decl.id, x ≠ y ∧
        a.covers layout g addr (.var x) = true ∧ a.covers layout g addr (.var y) = true
  | _ => False

instance (layout : Layout) (ds : List Declared) (e : Event) :
    Decidable (e.WritesTwice layout ds) :=
  match e with
  | .store (_ :: _) _ _ _ _ => inferInstanceAs (Decidable (∃ g ∈ _, _))
  | .store [] _ _ _ _ => .isFalse id
  | .moment .. => .isFalse id
  | .returned .. => .isFalse id

theorem Live.spans_of_covers {a : Live} {rest : List Live} {g : FrameRecord} {x : Symbol}
    (hg : g ∈ layout.frames) (hframe : a.frame = g.frame) (hx : x ∈ localsOf p.declares g.decl.id)
    (h : a.covers layout g addr (.var x) = true) :
    ∃ span, (Region.part a (.var x)).Spans p layout program (a :: rest) span ∧
      ¬ Stretch.Apart ⟨addr.toInt, Word.byteSize⟩ span := by
  unfold covers at h
  split at h
  next s hs =>
    refine ⟨_, .part List.mem_cons_self hg hframe (by simp [FrameRecord.parts, hx]) hs, ?_⟩
    rw [decide_eq_true_eq] at h
    simp only [Stretch.Apart, Stretch.stop, Word.byteSize] at h ⊢
    omega
  next => cases h

/-- What is written to two variables is not written to one of them only. -/
theorem Event.WritesTwice.not_writes {live : List Live} {s : State} {code : Stmt} {value : Word}
    (h : (Event.store live s code addr value).WritesTwice layout p.declares) :
    ¬ Writes p layout program s.memory live code addr := by
  cases live with
  | nil => exact h.elim
  | cons a rest =>
    obtain ⟨g, hg, hframe, x, hx, y, hy, hne, hcovers, hcovers'⟩ := h
    rintro ⟨region, -, hexclusive⟩
    have hg := Array.mem_toList_iff.1 hg
    obtain ⟨span, hspans, hshared⟩ := Live.spans_of_covers hg hframe hx hcovers
    obtain ⟨span', hspans', hshared'⟩ := Live.spans_of_covers hg hframe hy hcovers'
    by_cases hregion : Region.part a (.var x) = region
    · subst hregion
      refine hshared' (hexclusive.apart _ _ hspans' fun heq => hne ?_)
      injection heq with _ hvar
      injection hvar with hvar
      exact hvar.symm
    · exact hshared (hexclusive.apart _ _ hspans hregion)

/-- Four variables that fill the address space, and one more that gets the place of the
first. -/
def Sample.overgrown : Source.Program :=
  let quarter := Ty.array 576460752303423488 .integer
  let x1 : Symbol :=
    ⟨2, "x1", .record "" [("a", .integer), ("b", .array 576460752303423487 .integer)]⟩
  let x2 : Symbol := ⟨3, "x2", quarter⟩
  let x3 : Symbol := ⟨4, "x3", quarter⟩
  let x4 : Symbol := ⟨5, "x4", quarter⟩
  let y := integer 6 "y"
  ofDefs [
    entry
      (.within
        (.sequence [
          assign (.ident y) (.number 1),
          assign (.member (.ident x1) "a") (.number 5),
          .ident y])
        [.varDecl x1, .varDecl x2, .varDecl x3, .varDecl x4, .varDecl y])]

end TreeCode
