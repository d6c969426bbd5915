/-
# Names do not matter

A program under other names compiles if the program does, and both run alike: with the same
value or the same reason for an early end, the same output, the same memory and the same
counters. Names may collide with each other, with the labels that are generated, and with
names that tell namesakes apart.

Some names do matter to a run. It begins at the function with the entry name, and a function
on top level without a body may be one that the machine provides. A renaming keeps those
names, and a function with a body that takes one of them would stand in the way: which of two
namesakes comes first decides which one is found. Programs in which no such two functions
meet are `Apart`.
-/

import TreeCode.Proofs.Chunks
import TreeCode.Proofs.Entry
import TreeCode.Proofs.Names.Lowering
import TreeCode.Proofs.Names.Machine

namespace TreeCode

open IR (Chunk)
open Source (Node Routine Symbol)

namespace Source

/-- Whether a node is a function with a body. -/
def Node.isDefined : Node → Bool
  | .funDecl _ _ body => body.isSome
  | _ => false

/-- Whether a node is a function that is found by its name: it has no body, or it is the one
that a program is entered through. -/
def Node.isLinked : Node → Bool
  | .funDecl x _ body => body.isNone || x.name == entryName
  | _ => false

theorem Node.isLinked_of_name {x : Symbol} {params : List Symbol} {body : Option Node}
    (h : x.name = entryName) : (Node.funDecl x params body).isLinked := by
  simp [isLinked, h]

/-- The name of a function. -/
def Node.functionName? : Node → Option String
  | .funDecl x _ _ => some x.name
  | _ => none

/-- Two functions of one name, of which one has a body and the other is found by its name. -/
def Node.Clashes (m n : Node) : Prop :=
  m.functionName? = n.functionName? ∧
    (m.isDefined ∧ n.isLinked ∨ m.isLinked ∧ n.isDefined)

instance (m n : Node) : Decidable (m.Clashes n) :=
  inferInstanceAs (Decidable (_ ∧ _))

/-- No function on top level that is found by its name has a namesake with a body. -/
def Program.Apart (p : Program) : Prop :=
  p.defs.Pairwise fun m n => ¬m.Clashes n

instance (p : Program) : Decidable p.Apart :=
  inferInstanceAs (Decidable (List.Pairwise _ _))

end Source

/-- Whether a renaming keeps the names that functions on top level are found by. -/
def Renaming.Keeps (ρ : Renaming) (p : Source.Program) : Prop :=
  ∀ x params body, .funDecl x params body ∈ p.defs →
    (Node.funDecl x params body).isLinked → ρ.symbol x = x.name

namespace Supply

variable {s : Supply} {name n : String}

/-- A label for a declared name is that name, if it is free, or has a number. -/
theorem name_named_eq_iff (hplain : '#' ∉ n.toList) :
    (s.named name).1.name = n ↔ name = n ∧ n ∉ s.names := by
  constructor
  · rintro rfl
    refine ⟨?_, s.named_notMem name⟩
    unfold named at hplain ⊢
    split
    · rfl
    next heq => exact absurd (by simp [heq, numbered]) hplain
  · rintro ⟨rfl, hfree⟩
    rw [named_of_notMem hfree, Label.ofName_name]

theorem mem_names_named_iff (hplain : '#' ∉ n.toList) :
    n ∈ (s.named name).2.names ↔ name = n ∨ n ∈ s.names := by
  constructor
  · intro h
    by_contra hnot
    rw [not_or] at hnot
    exact notMem_named hnot.2 (Ne.symm hnot.1) hplain h
  · rintro (rfl | h)
    · by_cases hfree : name ∈ s.names
      · exact s.names_subset_named name hfree
      · have hmem := s.named_mem name
        rwa [named_of_notMem hfree, Label.ofName_name] at hmem
    · exact s.names_subset_named name h

end Supply

theorem Source.Node.isFunction_rename (ρ : Renaming) (n : Node) :
    (n.rename ρ).isFunction = n.isFunction := by
  cases n with
  | branch _ _ _ elseArm | funDecl _ _ elseArm => cases elseArm <;> rfl
  | _ => rfl

namespace Lays

theorem rest_of_noFunction {current : Option Nat} {n : Node} {ns : List Node}
    {s s' : LayoutState} (h : Lays (.headers current (n :: ns)) s s')
    (hn : n.isFunction = false) : Lays (.headers current ns) s s' := by
  cases h with
  | header _ _ => cases hn
  | noFunction _ h => exact h

/-- Which function on top level gets a plain name as its label does not depend on the other
names. -/
theorem plain_labels {ρ : Renaming} {n : String} (hplain : '#' ∉ n.toList) {defs : List Node}
    (hnames : ∀ x params body, .funDecl x params body ∈ defs → (ρ.symbol x = n ↔ x.name = n))
    {s s' t t' : LayoutState} (hs : Lays (.headers none defs) s s')
    (ht : Lays (.headers none (Node.renameAll ρ defs)) t t')
    (htaken : n ∈ t.supply.names ↔ n ∈ s.supply.names)
    (hbefore : List.Forall₂ (fun f g => g.label.name = n ↔ f.label.name = n) s.bare t.bare) :
    List.Forall₂ (fun f g => g.label.name = n ↔ f.label.name = n) s'.bare t'.bare := by
  induction defs generalizing s t with
  | nil =>
    cases hs
    cases ht
    exact hbefore
  | cons d ds ih =>
    have hrest : ∀ x params body, .funDecl x params body ∈ ds →
        (ρ.symbol x = n ↔ x.name = n) :=
      fun x params body hmem => hnames x params body (List.mem_cons_of_mem _ hmem)
    cases hs with
    | @header _ x params body _ _ _ _ hs =>
      have hx : ρ.symbol x = n ↔ x.name = n := hnames x params body List.mem_cons_self
      rw [Node.renameAll, Node.rename_funDecl] at ht
      cases ht with
      | noFunction hn _ => cases hn
      | header _ ht =>
        refine ih hrest hs ht ?_ ?_
        · exact (Supply.mem_names_named_iff hplain).trans
            ((or_congr hx htaken).trans (Supply.mem_names_named_iff hplain).symm)
        · rw [LayoutState.bare_withFrame, LayoutState.bare_withFrame]
          refine List.rel_append hbefore (.cons ?_ .nil)
          exact (Supply.name_named_eq_iff hplain).trans
            ((and_congr hx (not_congr htaken)).trans (Supply.name_named_eq_iff hplain).symm)
    | noFunction hn hs =>
      rw [Node.renameAll] at ht
      exact ih hrest hs (ht.rest_of_noFunction (Node.isFunction_rename ρ d ▸ hn)) htaken hbefore

end Lays

/-- The label of a function is its name, or can be told from every plain one. -/
def LayoutState.Spelled (s : LayoutState) : Prop :=
  ∀ f ∈ s.bare, f.label.name = f.decl.name ∨ '#' ∈ f.label.name.toList ∨
    '.' ∈ f.label.name.toList

variable {p : Source.Program} {s : LayoutState} {layout : Layout} {laid : Supply}

theorem LayoutState.Spelled.withFrame (h : s.Spelled) (current : Option Nat) (x : Symbol)
    (params : List Symbol) (body : Option Node) : (s.withFrame current x params body).Spelled := by
  intro f hf
  rw [bare_withFrame, List.mem_append, List.mem_singleton] at hf
  rcases hf with hf | rfl
  · exact h f hf
  · by_cases hplain : '#' ∈ (s.record current x params body).label.name.toList
    · exact .inr (.inl hplain)
    · have hname := ((Supply.name_named_eq_iff hplain).1 rfl).1
      simp only [record] at hname ⊢
      rw [← hname]
      cases s.outer current with
      | none => exact .inl rfl
      | some g => exact .inr (.inr (by simp [qualified]))

theorem Lays.spelled {g : Ground} {s' : LayoutState} (h : Lays g s s') (hs : s.Spelled) :
    s'.Spelled :=
  h.preserves (P := LayoutState.Spelled) (fun _ hs => hs.withFrame _ _ _ _) (fun hs => hs)
    (fun hf hs _ hmem => hs _ (LayoutState.bare_withLocal hf _ ▸ hmem)) (fun hs => hs)
    (fun hs _ hmem => hs _ (LayoutState.bare_withSealed _ _ ▸ hmem)) hs

theorem Layout.spelled_of_build (h : Layout.build .empty p = .ok (layout, laid))
    : LayoutState.Spelled ⟨layout, laid⟩ := by
  obtain ⟨s, hheaders, hdefs⟩ := Lays.of_build h
  exact hdefs.spelled (hheaders.spelled fun _ hf => by cases hf)

theorem Builtin.ofName?_of_mem {n : String} (h : '#' ∈ n.toList ∨ '.' ∈ n.toList) :
    Builtin.ofName? n = none := by
  unfold ofName?
  split
  · exact absurd h (by decide)
  · exact absurd h (by decide)
  · exact absurd h (by decide)
  · rfl

namespace Source

theorem Node.Clashes.symm {m n : Node} (h : m.Clashes n) : n.Clashes m :=
  ⟨h.1.symm, h.2.symm.imp And.symm And.symm⟩

namespace Program.Apart

variable {p : Program} {ρ : Renaming} {m n : Node}

/-- Different functions of a program do not clash, under their names or under new ones. -/
theorem not_clashes (h : p.Apart) (hm : m ∈ p.defs) (hn : n ∈ p.defs) (hne : m ≠ n) :
    ¬m.Clashes n := by
  have : Std.Symm fun m n : Node => ¬m.Clashes n := ⟨fun _ _ h hclash => h hclash.symm⟩
  exact List.Pairwise.forall h hm hn hne

theorem not_clashes_rename (h : (p.rename ρ).Apart) (hm : m ∈ p.defs) (hn : n ∈ p.defs)
    (hne : m ≠ n) : ¬(m.rename ρ).Clashes (n.rename ρ) := by
  have : Std.Symm fun m n : Node => ¬(m.rename ρ).Clashes (n.rename ρ) :=
    ⟨fun _ _ h hclash => h hclash.symm⟩
  have hpairs : (Node.renameAll ρ p.defs).Pairwise fun m n => ¬m.Clashes n := h
  rw [Node.renameAll_eq_map, List.pairwise_map] at hpairs
  exact List.Pairwise.forall hpairs hm hn hne

variable (hkeeps : ρ.Keeps p) (hp : p.Apart) (hq : (p.rename ρ).Apart)

include hkeeps hp hq

/-- The functions that bear the name of an external one are the same before and after. -/
theorem symbol_eq_iff {x : Symbol} {params : List Symbol} (hx : .funDecl x params none ∈ p.defs)
    (y : Symbol) (ps : List Symbol) (b : Option Node) (hy : .funDecl y ps b ∈ p.defs) :
    ρ.symbol y = x.name ↔ y.name = x.name := by
  cases b with
  | none => rw [hkeeps y ps none hy rfl]
  | some body =>
    have hne : Node.funDecl y ps (some body) ≠ .funDecl x params none := fun heq => by cases heq
    have hold := hp.not_clashes hy hx hne
    have hnew := hq.not_clashes_rename hy hx hne
    refine ⟨fun heq => ?_, fun heq => ?_⟩
    · exact absurd ⟨congrArg some (heq.trans (hkeeps x params none hx rfl).symm),
        .inl ⟨rfl, rfl⟩⟩ hnew
    · exact absurd ⟨congrArg some heq, .inl ⟨rfl, rfl⟩⟩ hold

end Program.Apart

end Source

namespace Layout

variable {p : Source.Program} {ρ : Renaming} {layout layout' : Layout} {laid laid' : Supply}
  {C : Draws} (hbuild : Layout.build .empty p = .ok (layout, laid))

include hbuild

/-- The frame of a function on top level is one of those that are laid out first. -/
theorem listed_of_level {i : Nat} {f : FrameRecord} {s : LayoutState}
    (hheaders : Lays (.headers none p.defs) ⟨.empty, .empty⟩ s)
    (hgrown : s.bare <+: LayoutState.bare ⟨layout, laid⟩)
    (hf : (LayoutState.bare ⟨layout, laid⟩)[i]? = some f) (hlevel : f.level = 1) :
    ∃ params, .funDecl f.decl params f.body ∈ p.defs ∧ s.bare[i]? = some f := by
  have horiginates := originates_of_build hbuild
  -- the function stands outside all others, so that it is listed
  obtain ⟨r, outer, hr, hdecl, j, g, hj, hg, -, hdescribes, -⟩ := horiginates.frames i f hf
  cases hj
  cases hf.symm.trans hg
  have houter : outer = [] := List.length_eq_zero_iff.1 (by have := hdescribes.level; omega)
  subst houter
  have hlisted : .funDecl r.decl r.params r.body ∈ p.defs := Node.listed_of_declaresIn hr
  -- and it was given a frame with the others, which is the only one it has
  have hnowhere : Encloses (LayoutState.bare ⟨.empty, .empty⟩) [] none := rfl
  obtain ⟨k, l, h, hl, hh, -, hdescribes', -⟩ :=
    (hheaders.framed_of_headers hnowhere).2 r.decl r.params r.body hlisted
  cases hl
  obtain ⟨rest, hrest⟩ := hgrown
  have hk : k < s.bare.length := List.getElem?_eq_some_iff.1 hh |>.1
  have hhlater : (LayoutState.bare ⟨layout, laid⟩)[k]? = some h := by
    rw [← hrest, List.getElem?_append_left hk, hh]
  have hsame : i = k := by
    refine (List.getElem?_inj ?_ horiginates.distinct).1 ?_
    · rw [List.length_map]
      exact (List.getElem?_eq_some_iff.1 hf).1
    · rw [List.getElem?_map, List.getElem?_map, hf, hhlater]
      exact congrArg some (congrArg Symbol.id (hdescribes.decl.trans hdescribes'.decl.symm))
  subst hsame
  cases hf.symm.trans hhlater
  exact ⟨r.params, hdescribes.decl ▸ hdescribes.body ▸ hlisted, hh⟩

variable (hbuild' : Layout.build .empty (p.rename ρ) = .ok (layout', laid'))
  (hlayout : LayoutState.Alike ρ C ⟨layout, laid⟩ ⟨layout', laid'⟩)
  (hkeeps : ρ.Keeps p) (hp : p.Apart) (hq : (p.rename ρ).Apart)

include hbuild' hlayout hkeeps hp hq

/-- External functions that belong together are built in alike. -/
theorem ofName?_eq_of_external {f g : FrameRecord}
    (hfg : (f, g) ∈ (LayoutState.bare ⟨layout, laid⟩).zip (LayoutState.bare ⟨layout', laid'⟩))
    (hexternal : f.isExternal) : Builtin.ofName? g.label.name = Builtin.ofName? f.label.name := by
  obtain ⟨i, hi⟩ := List.getElem?_of_mem hfg
  obtain ⟨hf, hg⟩ := List.getElem?_zip_eq_some.1 hi
  dsimp only at hf hg
  -- the two frames are alike
  have hframes := hlayout.layout.getElem? i
  have hf' := hf
  have hg' := hg
  rw [LayoutState.getElem?_bare, Option.map_eq_some_iff] at hf' hg'
  obtain ⟨f, hf', rfl⟩ := hf'
  obtain ⟨g, hg', rfl⟩ := hg'
  have halike : f.Alike ρ C g := by
    dsimp only at hframes hf' hg'
    rw [hf', hg'] at hframes
    cases hframes with
    | some h => exact h
  have hsf := spelled_of_build hbuild f.bare (List.mem_of_getElem? hf)
  have hsg := spelled_of_build hbuild' g.bare (List.mem_of_getElem? hg)
  by_cases hlevel : f.level = 1
  · obtain ⟨s, hs, hsdefs⟩ := Lays.of_build hbuild
    obtain ⟨t, ht, htdefs⟩ := Lays.of_build hbuild'
    obtain ⟨params, hlisted, hsi⟩ :=
      listed_of_level hbuild hs hsdefs.bare_prefix hf hlevel
    obtain ⟨_, -, hti⟩ :=
      listed_of_level hbuild' ht htdefs.bare_prefix hg (halike.level.trans hlevel)
    have hbody : f.bare.body = none := Option.isNone_iff_eq_none.1 hexternal
    rw [hbody] at hlisted
    have hname : g.decl.name = f.decl.name :=
      (congrArg Symbol.name halike.decl).trans (hkeeps f.decl params none hlisted rfl)
    by_cases hplain : '#' ∈ f.decl.name.toList
    · have hmarked : ∀ {l : String}, l = f.decl.name ∨ '#' ∈ l.toList ∨ '.' ∈ l.toList →
          Builtin.ofName? l = none := by
        rintro l (rfl | h)
        · exact Builtin.ofName?_of_mem (.inl hplain)
        · exact Builtin.ofName?_of_mem h
      rw [hmarked hsf, hmarked (hname ▸ hsg)]
    · -- the name goes to the first function that asks for it, which is the same on both sides
      have hlabels := forall₂_getElem? (hs.plain_labels hplain
        (hp.symbol_eq_iff hkeeps hq hlisted) ht Iff.rfl .nil) i
      rw [hsi, hti] at hlabels
      obtain ⟨hiff⟩ := hlabels
      by_cases hlabel : f.bare.label.name = f.decl.name
      · rw [hiff.2 hlabel, hlabel]
      · rw [Builtin.ofName?_of_mem (hsf.resolve_left hlabel), Builtin.ofName?_of_mem
          (hsg.resolve_left fun h => hlabel (hiff.1 (h.trans hname)))]
  · -- inside another function both labels have a dot
    have hdots : '.' ∈ f.label.name.toList ∧ '.' ∈ g.label.name.toList := by
      refine ⟨?_, ?_⟩ <;> by_contra hdot <;> refine hlevel ?_
      · exact level_of_label hbuild (Array.mem_of_getElem? hf') hdot
      · exact halike.level ▸ level_of_label hbuild' (Array.mem_of_getElem? hg') hdot
    exact (Builtin.ofName?_of_mem (.inr hdots.2)).trans
      (Builtin.ofName?_of_mem (.inr hdots.1)).symm

end Layout

theorem IR.Chunk.names_nodup_of_alike {D : Draws} (hdistinct : D.Distinct) {cs ds : List Chunk}
    (h : List.Forall₂ (Chunk.Alike D) cs ds) (hnodup : (cs.map (·.label.name)).Nodup) :
    (ds.map (·.label.name)).Nodup := by
  induction h with
  | nil => exact List.nodup_nil
  | @cons c d cs ds hcd hrest ih =>
    obtain ⟨hc, hcs⟩ := List.nodup_cons.1 hnodup
    refine List.nodup_cons.2 ⟨fun hmem => hc ?_, ih hcs⟩
    obtain ⟨d', hd', hname⟩ := List.mem_map.1 hmem
    obtain ⟨i, hi⟩ := List.getElem?_of_mem hd'
    have hpair := forall₂_getElem? hrest i
    rw [hi] at hpair
    generalize hci : cs[i]? = c' at hpair
    cases hpair with
    | @some c' _ hcd' =>
      obtain ⟨u, hu⟩ := hcd.label
      obtain ⟨v, hv⟩ := hcd'.label
      have hlabel := congrArg Draw.left (hdistinct.eq_of_right hv hu hname)
      exact List.mem_map.2 ⟨c', List.mem_of_getElem? hci, congrArg Label.name hlabel⟩

namespace Program

variable {D : Draws} {p q : Program}

/-- Programs of chunks that are alike, if the same of their labels are built in. -/
theorem alike_of_chunks (hdistinct : D.Distinct) {cs ds : List Chunk}
    (h : List.Forall₂ (Chunk.Alike D) cs ds) (hp : ofChunks cs = .ok p) (hq : ofChunks ds = .ok q)
    (hbuiltin : ∀ l m, ⟨.code, l, m⟩ ∈ D → p.function? l = none →
      Builtin.ofName? m.name = Builtin.ofName? l.name) : p.Alike D q := by
  cases ofChunks_eq_ok hp
  cases ofChunks_eq_ok hq
  exact ⟨hdistinct, alike_functionsOf h, alike_dataFrom h 0, dataSizeOf_alike h, hbuiltin⟩

/-- A name that two labels drawn together have in common is found on both sides. -/
theorem Alike.lookup? (h : p.Alike D q) {u : Use} {l m : Label} (hlm : ⟨u, l, m⟩ ∈ D)
    (hname : m.name = l.name) :
    Option.Rel (Function.Alike D) (p.lookup? l.name) (q.lookup? l.name) := by
  refine forall₂_find? h.functions fun f g hfg => ?_
  rw [Bool.eq_iff_iff, beq_iff_eq, beq_iff_eq]
  constructor
  · intro heq
    cases h.distinct.eq_of_right hfg.frame.label hlm (heq.trans hname.symm)
    rfl
  · intro heq
    cases h.distinct.eq_of_left hfg.frame.label hlm heq
    exact hname

end Program

/-- The entry of a program is its entry under other names. -/
theorem Source.Program.EnteredThrough.rename {ρ : Renaming} {x param : Symbol} {body : Node}
    (h : p.EnteredThrough x param body) (hkeeps : ρ.Keeps p) (hq : (p.rename ρ).Apart) :
    (p.rename ρ).EnteredThrough (x.rename ρ) (param.rename ρ) (body.rename ρ) := by
  have hmem : .funDecl x [param] (some body) ∈ p.defs.filter Node.isEntry :=
    h.only ▸ List.mem_singleton.2 rfl
  obtain ⟨hlisted, hname⟩ := List.mem_filter.1 hmem
  have hx : ρ.symbol x = entryName :=
    (hkeeps x [param] (some body) hlisted (Node.isLinked_of_name (beq_iff_eq.1 hname))).trans
      (beq_iff_eq.1 hname)
  have hsame : ∀ n ∈ p.defs, (n.rename ρ).isEntry = n.isEntry := by
    intro n hn
    cases n with
    | branch _ _ _ elseArm => cases elseArm <;> rfl
    | funDecl y ps b =>
      rw [Node.rename_funDecl, Bool.eq_iff_iff]
      change (ρ.symbol y == entryName) = true ↔ (y.name == entryName) = true
      rw [beq_iff_eq, beq_iff_eq]
      by_cases hlinked : (Node.funDecl y ps b).isLinked
      · rw [hkeeps y ps b hn hlinked]
      · -- a function that is not found by its name does not take that of the entry
        have hne : y.name ≠ entryName := fun heq => hlinked (Node.isLinked_of_name heq)
        refine ⟨fun heq => ?_, fun heq => absurd heq hne⟩
        have hclash := hq.not_clashes_rename hn hlisted fun heq => by
          cases heq
          exact hne (beq_iff_eq.1 hname)
        rw [Node.rename_funDecl, Node.rename_funDecl] at hclash
        refine absurd ⟨congrArg some (heq.trans hx.symm), .inl ⟨?_, ?_⟩⟩ hclash
        · cases b with
          | none => exact absurd rfl hlinked
          | some b => rfl
        · exact Node.isLinked_of_name hx
    | _ => rfl
  have hfilter : p.defs.filter (Node.isEntry ∘ fun n => n.rename ρ) = p.defs.filter Node.isEntry :=
    List.filter_congr hsame
  refine ⟨?_, congrArg (Ty.rename ρ) h.integer⟩
  change (Node.renameAll ρ p.defs).filter Node.isEntry = _
  rw [Node.renameAll_eq_map, List.filter_map, hfilter, h.only]
  rfl

/-- There is code under the label of a function with a body. -/
theorem Source.Program.exists_code_of_bare {supply : Supply} {chunks : List Chunk}
    (hbuild : Layout.build .empty p = .ok (layout, laid))
    (hlower : p.lower layout laid = .ok (chunks, supply)) {f : FrameRecord}
    (hf : f ∈ LayoutState.bare ⟨layout, laid⟩) (hbody : f.isExternal = false) :
    ∃ frame body, .code frame body ∈ chunks ∧ frame.label = f.label := by
  obtain ⟨g, hg, rfl⟩ := Layout.exists_frameOf? hbuild hf
  obtain ⟨h, hmem, hlabel, hcode⟩ := hasFunction_of_frameOf? hbuild hlower hg
  have hdecl := Layout.frame_eq_of_label hbuild hmem (Array.mem_of_find?_eq_some hg)
    (by rw [hlabel])
  obtain ⟨h', hh', hbare⟩ := Layout.exists_frameOf? hbuild
    (List.mem_map.2 ⟨h, Array.mem_def.1 hmem, rfl⟩ : h.bare ∈ LayoutState.bare ⟨layout, laid⟩)
  have hsame : h' = g := Option.some.inj
    (hh'.symm.trans ((congrArg layout.frameOf? hdecl).trans hg))
  subst hsame
  obtain ⟨body, hbody⟩ := hcode ((congrArg FrameRecord.isExternal hbare).symm.trans hbody)
  exact ⟨h.frame, body, hbody, hlabel⟩

/-- Compilations of a program under two sets of names, with the labels that were drawn for the
layout and in all. -/
structure Compilation.Alike (ρ : Renaming) (p : Source.Program) (C D : Draws)
    (laid laid' lowered lowered' : Supply) (c d : Compilation) : Prop where
  left : Stages p c laid lowered
  right : Stages (p.rename ρ) d laid' lowered'
  layout : LayoutState.Alike ρ C ⟨c.layout, laid⟩ ⟨d.layout, laid'⟩
  drawn : C ⊆ D
  code : LowerState.Alike C D ⟨lowered, c.chunks⟩ ⟨lowered', d.chunks⟩

namespace Compilation

variable {p : Source.Program} {ρ : Renaming} {c d : Compilation} {C D : Draws}
  {laid laid' lowered lowered' : Supply}

/-- Whatever the new names are, all stages succeed again. -/
theorem exists_alike (h : Stages p c laid lowered) (ρ : Renaming) :
    ∃ C D laid' lowered' d, Alike ρ p C D laid laid' lowered lowered' c d := by
  obtain ⟨layout', laid', C, hbuild, hlayout⟩ := Layout.alike_of_build h.layout ρ
  obtain ⟨chunks', lowered', D, hlower, hsub, hcode⟩ :=
    Source.Program.alike_of_lower hlayout h.lower
  have hdistinct := hcode.supply.distinct
  have hnames := Chunk.names_nodup_of_alike hdistinct hcode.chunks (Program.names_nodup h.tree)
  obtain ⟨tree', htree⟩ := Program.exists_ofChunks_of_nodup hnames
  obtain ⟨linear', hlinear⟩ := Program.exists_ofChunks_of_nodup
    ((Chunk.names_canonicalAll chunks' lowered'.temps).symm ▸ hnames)
  exact ⟨C, D, laid', lowered', ⟨layout', chunks', _, tree', linear'⟩, h,
    ⟨hbuild, hlower, htree, rfl, hlinear⟩, hlayout, hsub, hcode⟩

namespace Alike

variable (h : Alike ρ p C D laid laid' lowered lowered' c d)

include h

theorem canonical : List.Forall₂ (Chunk.Alike D) c.canonical d.canonical := by
  rw [h.left.canonical, h.right.canonical, h.code.supply.temps]
  exact (Chunk.alike_canonicalAll h.code.chunks lowered.temps).1

section

variable (hkeeps : ρ.Keeps p) (hp : p.Apart) (hq : (p.rename ρ).Apart)
include hkeeps hp hq

/-- Labels of code drawn together lead to the same built-in function or to none, if there is
no code under them. -/
theorem ofName?_eq {l m : Label} (hlm : ⟨.code, l, m⟩ ∈ D)
    (hcode : ∀ frame body, .code frame body ∈ c.chunks → frame.label ≠ l) :
    Builtin.ofName? m.name = Builtin.ofName? l.name := by
  obtain ⟨f, g, hfg, rfl, rfl⟩ := h.layout.codes l m (h.code.codes l m hlm)
  refine Layout.ofName?_eq_of_external h.left.layout h.right.layout h.layout hkeeps hp hq hfg ?_
  by_contra hbody
  obtain ⟨frame, body, hmem, hlabel⟩ := Source.Program.exists_code_of_bare h.left.layout
    h.left.lower (List.of_mem_zip hfg).1 (Bool.eq_false_iff.2 hbody)
  exact hcode frame body hmem hlabel

theorem tree : c.tree.Alike D d.tree := by
  refine Program.alike_of_chunks h.code.supply.distinct h.code.chunks h.left.tree h.right.tree
    fun l m hlm hnone => h.ofName?_eq hkeeps hp hq hlm ?_
  rintro frame body hmem rfl
  cases hnone.symm.trans (Program.function?_of_code h.left.tree hmem)

theorem linear : c.linear.Alike D d.linear := by
  refine Program.alike_of_chunks h.code.supply.distinct h.canonical h.left.linear h.right.linear
    fun l m hlm hnone => h.ofName?_eq hkeeps hp hq hlm ?_
  rintro frame body hmem rfl
  obtain ⟨n, hmem⟩ := Chunk.exists_mem_canonicalAll hmem lowered.temps
  rw [← h.left.canonical] at hmem
  cases hnone.symm.trans (Program.function?_of_code h.left.linear hmem)

end

/-- The labels of the entries were drawn together. -/
theorem entry {x param param' : Symbol} {body body' : Node} {g g' : FrameRecord}
    {code code' : IR.Stmt} (hg : c.Enters p.types x param body g code)
    (hg' : d.Enters (p.rename ρ).types (x.rename ρ) param' body' g' code') :
    ⟨.code, g.label, g'.label⟩ ∈ D ∧ g.label.name = entryName ∧ g'.label.name = entryName := by
  have hframe := h.layout.layout.frameOf? x
  dsimp only at hframe
  rw [hg.frameOf, hg'.frameOf] at hframe
  obtain ⟨halike⟩ := hframe
  have hname := List.find?_some hg.tree
  have hname' := List.find?_some hg'.tree
  exact ⟨h.drawn halike.label, beq_iff_eq.1 hname, beq_iff_eq.1 hname'⟩

end Alike

end Compilation

/-- Names do not matter: under a renaming that keeps the names which functions are found by, a
program that compiles compiles again, and both forms of it run as before, for all limits and
arguments. -/
theorem Source.Program.runsAlike_rename {p : Source.Program} {c : Compilation} {ρ : Renaming}
    (hc : p.compile = .ok c) (hkeeps : ρ.Keeps p) (hp : p.Apart) (hq : (p.rename ρ).Apart) :
    ∃ d, (p.rename ρ).compile = .ok d ∧ c.tree.RunsAlike d.tree ∧ c.linear.RunsAlike d.linear := by
  obtain ⟨laid, lowered, hstages⟩ := Compilation.stages_of_compile hc
  obtain ⟨C, D, laid', lowered', d, halike⟩ := Compilation.exists_alike hstages ρ
  -- the program can be entered as before
  obtain ⟨x, hx, -⟩ := Outcome.of_bind hc
  obtain ⟨param, body, hentry⟩ := checkEntry_eq_ok_iff.1 (Outcome.of_mapError hx)
  have hentry' := hentry.rename hkeeps hq
  have hd := halike.right.compile_eq_ok (checkEntry_eq_ok_iff.2 ⟨_, _, hentry'⟩)
  obtain ⟨g, code, henters⟩ := enters_of_compile hentry hc
  obtain ⟨g', code', henters'⟩ := enters_of_compile hentry' hd
  obtain ⟨hdrawn, hname, hname'⟩ := halike.entry henters henters'
  have htree := halike.tree hkeeps hp hq
  have hlinear := halike.linear hkeeps hp hq
  exact ⟨d, hd, htree.runsAlike (hname ▸ htree.lookup? hdrawn (hname'.trans hname.symm)),
    hlinear.runsAlike (hname ▸ hlinear.lookup? hdrawn (hname'.trans hname.symm))⟩

namespace Sample

/-- A record that is reached by a pointer to a declared type, a function inside another one,
a literal and two built-in functions. -/
def report : Source.Program :=
  let pair := Ty.record "pair" [("left", .integer), ("right", .integer)]
  let putStr : Symbol := ⟨2, "put_str", .void⟩
  let putInt : Symbol := ⟨3, "put_int", .void⟩
  let text : Symbol := ⟨4, "text", .string⟩
  let v := integer 5 "v"
  let total : Symbol := ⟨6, "total", pair⟩
  let link : Symbol := ⟨7, "link", .pointer (.ref "pair")⟩
  let twice := integer 8 "twice"
  let n := integer 9 "n"
  let step := integer 10 "step"
  let right := Node.member (.unary .deref (.ident link)) "right"
  { types := [("pair", pair)]
    defs := [
      .typeDecl ⟨11, "pair", pair⟩,
      .funDecl putStr [text] none,
      .varDecl total,
      .varDecl link,
      function twice [n]
        (.within (.sequence [.call step [], .call step [], right])
          [function step [] (assign right (add right (.ident n)))]),
      .funDecl putInt [v] none,
      entry
        (.sequence [
          assign (.ident link) (.unary .addr (.ident total)),
          .call putStr [.string [104, 105]],
          .call putInt [.call twice [.ident argument]],
          .member (.ident total) "right"])] }

/-- One name for everything but the entry and the built-in functions, which is also the one
that the first literal would have. -/
def crowd : Renaming where
  symbol x := if x.id ∈ [1, 2, 3] then x.name else "S0"
  record _ := "S0"
  type id := "S0" ++ id
  injective _ _ h := (String.append_right_inj "S0").1 h

theorem keeps_crowd : crowd.Keeps report := by
  intro x params body hmem hlinked
  simp only [report, function, entry, List.mem_cons, List.not_mem_nil, or_false, reduceCtorEq,
    Node.funDecl.injEq, false_or] at hmem
  rcases hmem with ⟨rfl, -⟩ | ⟨rfl, -, rfl⟩ | ⟨rfl, -⟩ | ⟨rfl, -⟩
  · rfl
  · cases hlinked
  · rfl
  · rfl

/-- A program in which almost everything has the same name runs like one in which nothing
has. -/
theorem report_crowded : ∃ c d m m',
    report.compile = .ok c ∧ (report.rename crowd).compile = .ok d ∧
      d.chunks.map (·.label.name) = ["S0#1", "S0#2", "S0", "S0.S0", "_main", "S1"] ∧
      Machine.new d.linear ⟨200, 0, false⟩ = .ok m ∧ m.run 40 entryName 3 = (.ok 6, m') ∧
      m'.state.output = #[104, 105, 54] ∧
      c.tree.RunsAlike d.tree ∧ c.linear.RunsAlike d.linear := by
  have hcompile : report.compile.toOption.isSome = true := by decide +kernel
  have hrun : ((report.rename crowd).compile.toOption.bind fun d =>
      (Machine.new d.linear ⟨200, 0, false⟩).toOption.bind fun m =>
        let r := m.run 40 entryName 3
        r.1.toOption.map fun v => (d.chunks.map (·.label.name), v, r.2.state.output)) =
      some (["S0#1", "S0#2", "S0", "S0.S0", "_main", "S1"], 6, #[104, 105, 54]) := by
    decide +kernel
  obtain ⟨c, hc⟩ := Option.isSome_iff_exists.1 hcompile
  have hc := Outcome.of_toOption hc
  obtain ⟨d, hd, htree, hlinear⟩ := Source.Program.runsAlike_rename hc keeps_crowd
    (by decide +kernel) (by decide +kernel)
  rw [hd] at hrun
  obtain ⟨d', hd', hrun⟩ := Outcome.of_toOption_bind hrun
  cases hd'
  obtain ⟨m, hm, hrun⟩ := Outcome.of_toOption_bind hrun
  obtain ⟨v, hv, hrun⟩ := Outcome.of_toOption_map hrun
  obtain ⟨hnames, hrun⟩ := Prod.mk.inj hrun
  obtain ⟨rfl, houtput⟩ := Prod.mk.inj hrun
  exact ⟨c, d, m, _, hc, hd, hnames, hm, Prod.ext hv rfl, houtput, htree, hlinear⟩

end Sample

end TreeCode
