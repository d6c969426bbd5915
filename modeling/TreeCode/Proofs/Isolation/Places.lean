/-
# The places that nodes denote

Without indices and pointers, the address of a node is fixed by the layout: it is that of
static data, or of a slot in a frame that static links lead to, or it is read from the slot
of a parameter, and fields lie at fixed offsets. `Node.address?` is this address, as code.

`Denotes` says what a node stands for while some frames are live: a component of a variable.
Parameters that hold an address are as good as variables if the address is that of a
component of a variable, which is what `Referring` says of the live frames.
-/

import TreeCode.Proofs.Isolation.Regions
import TreeCode.Proofs.Lowering.Forward
import TreeCode.Proofs.StaticLinks

namespace TreeCode

open IR (Expr)
open Source (Declared Item Node Routine Symbol)

/-- The code for the address of a variable or parameter, in the function of a frame. -/
def Access.address (layout : Layout) (g : FrameRecord) : Access → Expr
  | global l _ => .name l
  | localSlot i offset _ => slotAddress layout g i offset
  | paramSlot i offset false => slotAddress layout g i offset
  | paramSlot i offset true => .mem (slotAddress layout g i offset)

namespace Source

namespace Node

/-- Whether the place of a node is found by an index or a pointer. -/
def isIndirect : Node → Bool
  | binary .index _ _ => true
  | unary .deref _ => true
  | _ => false

/-- The node that a node assigns to. -/
def target? : Node → Option Node
  | binary .assign target _ => some target
  | forLoop counter _ _ _ _ => some counter
  | _ => none

/-- The nodes that a node passes to a declared function, with the parameters that they are
passed for. -/
def passed (ds : List Declared) : Node → List (Symbol × Node)
  | call callee args => ds.flatMap fun d =>
    match d.item with
    | .routine r => if r.decl = callee then r.params.zip args else []
    | _ => []
  | _ => []

/-- What a node assigns to is a word, and what it passes to functions has the types of their
parameters. -/
def WellTyped (types : TypeTable) (ds : List Declared) (n : Node) : Prop :=
  (∀ target ∈ n.target?, (target.ty types).isWord = true) ∧
    ∀ a ∈ n.passed ds, a.2.ty types = a.1.ty

instance (types : TypeTable) (ds : List Declared) (n : Node) : Decidable (n.WellTyped types ds) :=
  inferInstanceAs (Decidable (_ ∧ _))

/-- The code for the address of a node, in the function of a frame. -/
def address? (types : TypeTable) (layout : Layout) (g : FrameRecord) : Node → Option Expr
  | ident x => (layout.access? x).map (·.address layout g)
  | member operand field =>
    (operand.address? types layout g).map (atOffset · (operand.fieldOffset types field))
  | within body _ => body.address? types layout g
  | _ => none

theorem mem_passed {ds : List Declared} {outer : List Routine} {r : Routine}
    (hr : ⟨outer, .routine r⟩ ∈ ds) {args : List Node} {a : Symbol × Node}
    (ha : a ∈ r.params.zip args) : a ∈ (call r.decl args).passed ds := by
  rw [passed, List.mem_flatMap]
  exact ⟨_, hr, by simpa using ha⟩

end Node

namespace Program

/-- No place in a program is found by an index or a pointer. -/
def Direct (p : Program) : Prop :=
  ∀ n ∈ Node.preorderAll p.defs, n.isIndirect = false

instance (p : Program) : Decidable p.Direct :=
  inferInstanceAs (Decidable (∀ n ∈ _, _))

/-- Assignments are to words, and arguments have the types of parameters. -/
def WellTyped (p : Program) : Prop :=
  ∀ n ∈ Node.preorderAll p.defs, n.WellTyped p.types p.declares

instance (p : Program) : Decidable p.WellTyped :=
  inferInstanceAs (Decidable (∀ n ∈ _, _))

/-- The sizes of the types of variables and parameters, and of all types in them, are not
negative and computed without wrapping around. -/
def Measured (p : Program) : Prop :=
  ∀ d ∈ p.declares, d.item.isPlaced = true → d.item.decl.ty.isMeasured = true

instance (p : Program) : Decidable p.Measured :=
  inferInstanceAs (Decidable (∀ d ∈ _, _))

end Program

end Source

section Code

variable {n : Node} {e : Expr}

theorem isAddress_atOffset (h : e.isAddress = true) (offset : Word) :
    (atOffset e offset).isAddress = true := by
  unfold atOffset
  split
  · exact h
  · simp [Expr.isAddress, h]

theorem isAddress_linkChain (n : Nat) (h : e.isAddress = true) :
    (linkChain n e).isAddress = true := by
  induction n generalizing e with
  | zero => exact h
  | succ n ih => exact ih (e := .mem e) h

theorem isAddress_slotAddress (layout : Layout) (g : FrameRecord) (i : Nat) (offset : Word) :
    (slotAddress layout g i offset).isAddress = true :=
  isAddress_atOffset (isAddress_linkChain _ rfl) offset

variable {types : TypeTable} {layout : Layout} {g : FrameRecord}

theorem Access.isAddress_address (a : Access) : (a.address layout g).isAddress = true := by
  match a with
  | global _ _ => rfl
  | localSlot i offset _ | paramSlot i offset false | paramSlot i offset true =>
    exact isAddress_slotAddress layout g i offset

theorem Source.Node.isAddress_of_address? (h : n.address? types layout g = some e)
    : e.isAddress = true := by
  fun_induction Node.address? types layout g n generalizing e with
  | case1 x =>
    obtain ⟨a, -, rfl⟩ := Option.map_eq_some_iff.1 h
    exact a.isAddress_address
  | case2 operand field ih =>
    obtain ⟨a, ha, rfl⟩ := Option.map_eq_some_iff.1 h
    exact isAddress_atOffset (ih ha) _
  | case3 body defs ih => exact ih h
  | case4 => cases h

/-- Without indices and pointers, lowering yields the address of a node. -/
theorem Lowers.address?_eq {s s' : LowerState}
    (h : Lowers types layout (.address g n) s (.expr e) s') (hn : ∀ k ∈ n.own, k.isIndirect = false)
    : n.address? types layout g = some e := by
  generalize hr : Reading.address g n = r at h
  generalize ho : Lowered.expr e = o at h
  induction h generalizing n e with
  | global haccess | localSlot haccess _ | paramSlot haccess _ | reference haccess _ =>
    cases hr
    cases ho
    rw [Node.address?, haccess]
    rfl
  | member _ ih =>
    cases hr
    cases ho
    rw [Node.address?, ih (fun k hk => hn k (Node.own_subset (by simp) hk))
      rfl rfl]
    rfl
  | index _ _ | deref _ =>
    cases hr
    cases hn _ (Node.mem_own_self _)
  | withinAddress _ _ _ ih =>
    cases hr
    cases ho
    rw [Node.address?]
    exact ih (fun k hk => hn k (Node.own_subset (by simp) hk)) rfl rfl
  | _ => cases hr

end Code

section Denoting

variable (p : Source.Program) (layout : Layout) (program : Program)

/-- What a node stands for while some frames are live: a component of a variable, with its
region and its address. The innermost frame of the function that declares a variable or a
parameter counts. -/
inductive Denotes (live : List Live) (m : Memory) : Node → Region → Word → Prop
  | static {x : Symbol} {l : Label} {size w : Word} : ⟨[], .var x⟩ ∈ p.declares →
      layout.access? x = some (.global l size) → program.address? l = some w →
      Denotes live m (.ident x) (.data l) w
  | localVar {q : Routine} {around : List Routine} {x : Symbol} {i : Nat} {offset size : Word}
      {b : Live} : ⟨q :: around, .var x⟩ ∈ p.declares →
      layout.access? x = some (.localSlot i offset size) →
      layout.activation? live q.decl = some b →
      Denotes live m (.ident x) (.part b (.var x)) (b.base + offset)
  | valueParam {q : Routine} {around : List Routine} {x : Symbol} {i : Nat} {offset : Word}
      {b : Live} : ⟨q :: around, .param x⟩ ∈ p.declares →
      layout.access? x = some (.paramSlot i offset false) →
      layout.activation? live q.decl = some b →
      Denotes live m (.ident x) (.part b (.param x)) (b.base + offset)
  /-- The slot of the parameter holds the address of a component. -/
  | reference {q : Routine} {around : List Routine} {x : Symbol} {i : Nat} {offset : Word}
      {b : Live} {region : Region} {span : Stretch} : ⟨q :: around, .param x⟩ ∈ p.declares →
      layout.access? x = some (.paramSlot i offset true) →
      layout.activation? live q.decl = some b → region.Spans p layout program live span →
      Component p layout program region x.ty (m.readWord (b.base + offset)) →
      Denotes live m (.ident x) region (m.readWord (b.base + offset))
  | field {operand : Node} {name : String} {region : Region} {w offset : Word} {u : Ty} :
      Denotes live m operand region w → (operand.ty p.types).field? name = some (offset, u) →
      Denotes live m (.member operand name) region (w + offset)
  | within {body : Node} {defs : List Node} {region : Region} {w : Word} :
      Denotes live m body region w → Denotes live m (.within body defs) region w

/-- The live frames are those of declared functions, and parameters that hold an address hold
that of a component of a variable. -/
structure Referring (m : Memory) (live : List Live) : Prop where
  framed : ∀ b ∈ live, ∃ g ∈ layout.frames, b.frame = g.frame
  references : ∀ b ∈ live, ∀ g ∈ layout.frames, b.frame = g.frame → ∀ k x,
    g.params[k]? = some x → x.ty.isAggregate = true → ∃ region span,
      region.Spans p layout program live span ∧
        Component p layout program region x.ty (m.readWord (b.base + FrameRecord.paramOffset k))

end Denoting

/-- The offsets of the parameters of a frame that hold an address. -/
def FrameRecord.references (g : FrameRecord) : List Word :=
  (g.params.zipIdx.filter (·.1.ty.isAggregate)).map fun x => paramOffset x.2

/-- The offsets of the parameters that hold an address, in the frames of a shape. -/
def Layout.references (layout : Layout) (f : Frame) : List Word :=
  (layout.frames.toList.filter (·.frame == f)).flatMap FrameRecord.references

theorem Layout.mem_references {layout : Layout} {f : Frame} {offset : Word} :
    offset ∈ layout.references f ↔ ∃ g ∈ layout.frames, g.frame = f ∧ ∃ k x,
      g.params[k]? = some x ∧ x.ty.isAggregate = true ∧ FrameRecord.paramOffset k = offset := by
  simp only [references, FrameRecord.references, List.mem_flatMap, List.mem_filter, List.mem_map,
    Array.mem_toList_iff, beq_iff_eq, Prod.exists, List.mem_zipIdx_iff_getElem?, and_assoc]
  refine exists_congr fun g => and_congr_right fun _ => and_congr_right fun _ => ?_
  exact exists_comm

section Referring

variable {p : Source.Program} {layout : Layout} {laid : Supply} {setup : Setup}
  {live : List Live} {m m' : Memory}

namespace Referring

theorem nil (m : Memory) : Referring p layout setup.program m [] :=
  ⟨fun _ hb => absurd hb List.not_mem_nil, fun _ hb => absurd hb List.not_mem_nil⟩

/-- Only the parameters that hold an address matter. -/
theorem congr (h : Referring p layout setup.program m live)
    (hm : ∀ b ∈ live, ∀ offset ∈ layout.references b.frame,
      m'.readWord (b.base + offset) = m.readWord (b.base + offset)) :
    Referring p layout setup.program m' live where
  framed := h.framed
  references b hb g hg hframe k x hk hx := by
    rw [hm b hb _ (Layout.mem_references.2 ⟨g, hg, hframe.symm, k, x, hk, hx, rfl⟩)]
    exact h.references b hb g hg hframe k x hk hx

/-- A new frame whose parameters hold addresses of components of variables. -/
theorem push (h : Referring p layout setup.program m live) {a : Live}
    (hframed : ∃ g ∈ layout.frames, a.frame = g.frame)
    (ha : ∀ g ∈ layout.frames, a.frame = g.frame → ∀ k x, g.params[k]? = some x →
      x.ty.isAggregate = true → ∃ region span, region.Spans p layout setup.program live span ∧
        Component p layout setup.program region x.ty
          (m.readWord (a.base + FrameRecord.paramOffset k))) :
    Referring p layout setup.program m (a :: live) where
  framed b hb := by
    rcases List.mem_cons.1 hb with rfl | hb
    · exact hframed
    · exact h.framed b hb
  references b hb g hg hframe k x hk hx := by
    have hold : ∃ region span, region.Spans p layout setup.program live span ∧
        Component p layout setup.program region x.ty
          (m.readWord (b.base + FrameRecord.paramOffset k)) := by
      rcases List.mem_cons.1 hb with rfl | hb
      · exact ha g hg hframe k x hk hx
      · exact h.references b hb g hg hframe k x hk hx
    obtain ⟨region, span, hspans, hcomponent⟩ := hold
    exact ⟨region, span, hspans.mono (List.subset_cons_self _ _), hcomponent⟩

end Referring

variable {program : Program} {outer around : List Routine} {r : Routine} {fp : Word} {q : Routine}
  {g : FrameRecord} {body : Node} {item : Item} {e : Expr} {i : Nat} {n : Node}

/-- The live frame that variables of a function are looked for in is a frame of the
function. -/
theorem Assigned.of_activation? {b : Live} (hd : ⟨q :: around, item⟩ ∈ p.declares)
    (hb : layout.activation? live q.decl = some b) :
    b ∈ live ∧ ∃ g, Assigned p layout around q g ∧ b.frame = g.frame := by
  obtain ⟨hmem, g, hg, hframe⟩ := Layout.activation?_eq_some hb
  exact ⟨hmem, g, ⟨p.nested _ hd q around (List.suffix_refl _), hg⟩, hframe⟩

/-- The parts of live frames span some bytes. -/
theorem Arranged.exists_span (h : Arranged p layout laid setup.program) {b : Live} {part : Part}
    (hb : b ∈ live) (hg : g ∈ layout.frames) (hframe : b.frame = g.frame)
    (hpart : part ∈ g.parts p.declares) :
    ∃ span, (Region.part b part).Spans p layout setup.program live span := by
  obtain ⟨i, hi⟩ := Array.getElem?_of_mem hg
  obtain ⟨s, hs, -⟩ := Layout.parts_inside h.build h.wellScoped.once h.sized hi part hpart
  exact ⟨_, .part hb hg hframe hpart hs⟩

namespace Denotes

variable {n : Node} {region : Region} {w : Word}

theorem component (h : Denotes p layout setup.program live m n region w) :
    Component p layout setup.program region (n.ty p.types) w := by
  induction h with
  | static hx haccess haddress => exact .static hx haccess haddress
  | localVar _ haccess _ => exact .localVar haccess
  | valueParam _ haccess _ => exact .valueParam haccess
  | reference _ _ _ _ hcomponent => exact hcomponent
  | field _ hfield ih =>
    rw [Node.ty, hfield]
    exact .field ih hfield
  | within _ ih => exact ih

/-- What a node denotes is in the static data or in a live frame. -/
theorem exists_span (harranged : Arranged p layout laid setup.program)
    (h : Denotes p layout setup.program live m n region w) :
    ∃ span, region.Spans p layout setup.program live span := by
  induction h with
  | @static x l size w _ haccess _ =>
    obtain ⟨d, hd, rfl, -⟩ := harranged.statics x l size haccess
    exact ⟨_, .data hd⟩
  | @localVar q around x _ _ _ b hd _ hb =>
    obtain ⟨hmem, g, hq, hframe⟩ := Assigned.of_activation? hd hb
    have hx : x ∈ localsOf p.declares g.decl.id := by
      refine List.mem_filterMap.2 ⟨_, hd, ?_⟩
      rw [Declared.local?, if_pos (Layout.id_of_frameOf? hq.found).symm]
    exact harranged.exists_span hmem hq.mem hframe (by simp [FrameRecord.parts, hx])
  | @valueParam q around x _ _ b hd haccess hb =>
    obtain ⟨hmem, g, hq, hframe⟩ := Assigned.of_activation? hd hb
    have hx : x ∈ g.params := by
      generalize false = byRef at haccess
      cases Layout.placed_of_once harranged.build harranged.wellScoped.once hd haccess with
      | paramSlot _ hk =>
        rw [(hq.describes harranged.build harranged.wellScoped).params]
        exact List.mem_of_getElem? hk
    exact harranged.exists_span hmem hq.mem hframe (by simp [FrameRecord.parts, hx])
  | reference _ _ _ hspans _ => exact ⟨_, hspans⟩
  | field _ _ ih | within _ ih => exact ih

end Denotes

@[simp]
theorem place_atOffset (program : Program) (fp : Word) (m : Memory) (e : Expr) (offset : Word) :
    (atOffset e offset).place program fp m = e.place program fp m + offset := by
  unfold atOffset
  split
  next h => rw [h, Int64.add_zero]
  next => rfl

/-- Following static links leads to the frame of one of the functions around. -/
theorem Reaches.place_linkChain {front : List Routine}
    (h : Reaches layout m live (front ++ q :: around) (e.place program fp m)) :
    ∃ b, layout.activation? live q.decl = some b ∧
      (linkChain front.length e).place program fp m = b.base := by
  induction front generalizing e with
  | nil =>
    obtain ⟨⟨b, hb, hbase⟩, -⟩ := h
    exact ⟨b, hb, hbase.symm⟩
  | cons r front ih => exact ih (e := .mem e) h.2

section

variable (hbuild : Layout.build .empty p = .ok (layout, laid)) (hscoped : p.WellScoped)
  (hr : Assigned p layout outer r g)
include hbuild hscoped hr

/-- The address of a slot is that of the slot in the innermost frame of its function. -/
theorem Reaches.place_slotAddress {h : FrameRecord} (hq : Assigned p layout around q h)
    (haround : q :: around <:+ r :: outer) (hi : layout.frames[i]? = some h)
    (hreaches : Reaches layout m live (r :: outer) fp) :
    ∃ b, layout.activation? live q.decl = some b ∧ ∀ offset,
      (slotAddress layout g i offset).place program fp m = b.base + offset := by
  obtain ⟨front, hfront⟩ := haround
  have hchain : Reaches layout m live (front ++ q :: around)
      ((Expr.temp Temp.fp).place program fp m) := hfront.symm ▸ hreaches
  obtain ⟨b, hb, hplace⟩ := hchain.place_linkChain
  refine ⟨b, hb, fun offset => ?_⟩
  rw [slotAddress, hr.level_sub_frameLevel hbuild hscoped hq hfront hi, place_atOffset, hplace]

/-- A slot for a declaration that a function can see is found in the innermost frame of the
function that declares it. -/
theorem Reaches.place_declared (hd : ⟨q :: around, item⟩ ∈ p.declares)
    (hsuffix : q :: around <:+ r :: outer)
    (hin : Encloses (LayoutState.bare ⟨layout, laid⟩) (q :: around) (some i))
    (hreaches : Reaches layout m live (r :: outer) fp) :
    ∃ b, layout.activation? live q.decl = some b ∧ ∀ offset,
      (slotAddress layout g i offset).place program fp m = b.base + offset := by
  obtain ⟨h, hq, hi⟩ := Assigned.of_encloses hbuild hin
    (p.nested _ hd q around (List.suffix_refl _))
  exact hreaches.place_slotAddress hbuild hscoped hr hq hsuffix hi

end

section

variable (harranged : Arranged p layout laid setup.program) (hr : Assigned p layout outer r g)
  (hbody : r.body = some body) (hreaches : Reaches layout m live (r :: outer) fp)
  (hrefs : Referring p layout setup.program m live)
include harranged hr hbody hreaches hrefs

/-- The address of a variable that a function uses is that of what the variable denotes. -/
theorem exists_denotes_ident {x : Symbol} {access : Access} (hx : .ident x ∈ body.own)
    (haccess : layout.access? x = some access) :
    ∃ region, Denotes p layout setup.program live m (.ident x) region
      ((access.address layout g).place setup.program fp m) := by
  have hbuild := harranged.build
  have hscoped := harranged.wellScoped
  obtain ⟨⟨inside, item⟩, hd, -, rfl, hsuffix⟩ := hscoped.ident_visible hr.declared hbody hx
  cases Layout.placed_of_once hbuild hscoped.once hd haccess with
  | @global x l =>
    obtain ⟨d, hdata, rfl, -⟩ := harranged.statics x l _ haccess
    have haddress : setup.program.address? d.label = some d.offset := by
      rw [Program.address?, find?_of_nodup harranged.data.labels hdata]
      rfl
    refine ⟨_, .static hd haccess ?_⟩
    rw [Access.address, Expr.place, haddress]
    rfl
  | @localSlot q around x i before hin _ =>
    obtain ⟨b, hb, hplace⟩ := hreaches.place_declared hbuild hscoped hr hd hsuffix hin
    rw [Access.address, hplace]
    exact ⟨_, .localVar hd haccess hb⟩
  | @paramSlot q around x i k hin hk =>
    obtain ⟨b, hb, hplace⟩ := hreaches.place_declared hbuild hscoped hr hd hsuffix hin
    cases hflag : x.ty.isAggregate with
    | false =>
      rw [hflag] at haccess
      rw [Access.address, hplace]
      exact ⟨_, .valueParam hd haccess hb⟩
    | true =>
      rw [hflag] at haccess
      obtain ⟨hmem, h, hq, hframe⟩ := Assigned.of_activation? hd hb
      rw [← (hq.describes hbuild hscoped).params] at hk
      obtain ⟨region, span, hspans, hcomponent⟩ :=
        hrefs.references b hmem h hq.mem hframe k x hk hflag
      rw [Access.address, Expr.place, hplace]
      exact ⟨region, .reference hd haccess hb hspans hcomponent⟩

/-- The address of a node is that of what the node denotes, unless the node has no type. -/
theorem exists_denotes (hn : n.own ⊆ body.own) (hty : n.ty p.types ≠ .absent)
    (he : n.address? p.types layout g = some e) :
    ∃ region, Denotes p layout setup.program live m n region (e.place setup.program fp m) := by
  fun_induction Node.address? p.types layout g n generalizing e with
  | case1 x =>
    obtain ⟨access, haccess, rfl⟩ := Option.map_eq_some_iff.1 he
    exact exists_denotes_ident harranged hr hbody hreaches hrefs (hn (Node.mem_own_self _))
      haccess
  | case2 operand name ih =>
    obtain ⟨a, ha, rfl⟩ := Option.map_eq_some_iff.1 he
    rw [Node.ty] at hty
    cases hfield : (operand.ty p.types).field? name with
    | none => simp [hfield] at hty
    | some entry =>
      obtain ⟨offset, u⟩ := entry
      have hop : operand.ty p.types ≠ .absent := by
        intro habsent
        rw [habsent] at hfield
        cases hfield
      obtain ⟨region, hden⟩ :=
        ih (List.Subset.trans (Node.own_subset (by simp)) hn) hop ha
      refine ⟨region, ?_⟩
      rw [place_atOffset, Node.fieldOffset, hfield]
      exact .field hden hfield
  | case3 inner defs ih =>
    obtain ⟨region, hden⟩ :=
      ih (List.Subset.trans (Node.own_subset (by simp)) hn) hty he
    exact ⟨region, .within hden⟩
  | case4 => cases he

end

/-- Addresses stay the same as long as static links and the parameters that hold an address
do. -/
theorem Reaches.place_congr (hbuild : Layout.build .empty p = .ok (layout, laid))
    (hscoped : p.WellScoped) (hr : Assigned p layout outer r g) (hbody : r.body = some body)
    (hreaches : Reaches layout m live (r :: outer) fp)
    (hlinks : ∀ b ∈ live, m'.readWord b.base = m.readWord b.base)
    (hrefs : ∀ b ∈ live, ∀ offset ∈ layout.references b.frame,
      m'.readWord (b.base + offset) = m.readWord (b.base + offset)) (hn : n.own ⊆ body.own)
    (he : n.address? p.types layout g = some e) : e.place program fp m' = e.place program fp m := by
  have hreaches' := hreaches.congr hlinks
  fun_induction Node.address? p.types layout g n generalizing e with
  | case1 x =>
    obtain ⟨access, haccess, rfl⟩ := Option.map_eq_some_iff.1 he
    obtain ⟨⟨inside, item⟩, hd, -, rfl, hsuffix⟩ :=
      hscoped.ident_visible hr.declared hbody (hn (Node.mem_own_self _))
    -- a slot has one place, since the links lead to the same frame
    have hslot : ∀ {q around i}, ⟨q :: around, item⟩ ∈ p.declares →
        q :: around <:+ r :: outer →
        Encloses (LayoutState.bare ⟨layout, laid⟩) (q :: around) (some i) →
        ∃ b, layout.activation? live q.decl = some b ∧ ∀ offset,
          (slotAddress layout g i offset).place program fp m = b.base + offset ∧
            (slotAddress layout g i offset).place program fp m' = b.base + offset := by
      intro q around i hd hsuffix hin
      obtain ⟨b, hb, hplace⟩ := hreaches.place_declared hbuild hscoped hr hd hsuffix hin
      obtain ⟨b', hb', hplace'⟩ := hreaches'.place_declared hbuild hscoped hr hd hsuffix hin
      cases hb.symm.trans hb'
      exact ⟨b, hb, fun offset => ⟨hplace offset, hplace' offset⟩⟩
    cases Layout.placed_of_once hbuild hscoped.once hd haccess with
    | global => rfl
    | @localSlot q around x i before hin _ =>
      obtain ⟨b, -, hplace⟩ := hslot hd hsuffix hin
      rw [Access.address, (hplace _).1, (hplace _).2]
    | @paramSlot q around x i k hin hk =>
      obtain ⟨b, hb, hplace⟩ := hslot hd hsuffix hin
      cases hflag : x.ty.isAggregate with
      | false => rw [Access.address, (hplace _).1, (hplace _).2]
      | true =>
        obtain ⟨hmem, h, hq, hframe⟩ := Assigned.of_activation? hd hb
        rw [← (hq.describes hbuild hscoped).params] at hk
        rw [Access.address, Expr.place, Expr.place, (hplace _).1, (hplace _).2]
        exact hrefs b hmem _
          (Layout.mem_references.2 ⟨h, hq.mem, hframe.symm, k, x, hk, hflag, rfl⟩)
  | case2 operand name ih =>
    obtain ⟨a, ha, rfl⟩ := Option.map_eq_some_iff.1 he
    rw [place_atOffset, place_atOffset, ih (List.Subset.trans (Node.own_subset (by simp)) hn) ha]
  | case3 inner defs ih =>
    exact ih (List.Subset.trans (Node.own_subset (by simp)) hn) he
  | case4 => cases he

end Referring

end TreeCode
