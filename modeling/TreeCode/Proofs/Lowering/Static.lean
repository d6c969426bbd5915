/-
# Lowered code is sound

Lowered code places every label once, keeps the jumps of every block inside that block,
and assigns only to temps it has drawn itself. `Lowers.grows` says what a derivation
takes from the supply, and `Lowers.sound` that the code and the chunks it makes are
sound.
-/

import TreeCode.Proofs.Linear
import TreeCode.Proofs.Lowering.Derivation
import TreeCode.Proofs.Supply

namespace TreeCode

open IR (Chunk Effect Expr Stmt)
open IR.Effect (labels)

namespace IR.Effect

/-- Whether an effect uses up a label or a temp. -/
def isDrawn : Effect → Bool
  | .label _ => true
  | .assign _ => true
  | _ => false

section

variable {e : Effect} (he : e.isDrawn = true)

include he

/-- Other effects do not count. -/
theorem count_of_not_isDrawn {x : Effect} (hx : x.isDrawn = false) : [x].count e = 0 := by
  refine List.count_eq_zero.2 fun hmem => ?_
  rw [List.mem_singleton.1 hmem, hx] at he
  cases he

theorem count_call (l : Label) (first : Option Word) : [Effect.call l first].count e = 0 :=
  count_of_not_isDrawn he rfl

theorem count_jump (l : Label) : [Effect.jump l].count e = 0 :=
  count_of_not_isDrawn he rfl

theorem count_cjump (t f : Label) : [Effect.cjump t f].count e = 0 :=
  count_of_not_isDrawn he rfl

theorem count_store : [Effect.store].count e = 0 :=
  count_of_not_isDrawn he rfl

end

theorem count_labels (l : Label) (es : List Effect) :
    (labels es).count l = es.count (.label l) := by
  induction es with
  | nil => rfl
  | cons e es ih =>
    cases e with
    | label m =>
      change List.count l (m :: labels es) = _
      rw [List.count_cons, List.count_cons, ih]
      simp
    | _ =>
      rw [List.count_cons_of_ne (by simp)]
      exact ih

end IR.Effect

/-- The effects of what lowering yields. -/
def Lowered.effects : Lowered → List Effect
  | .expr e => e.effects
  | .stmt s => s.effects
  | .exprs es => Expr.effectsAll es
  | .stmts ss => Stmt.effectsAll ss
  | .nothing => []

/-- The effects of the code of a chunk. -/
def IR.Chunk.effects : Chunk → List Effect
  | .code _ body => body.effects
  | .data .. => []

/-- The effects of the code among some chunks. -/
def codeEffects (chunks : List Chunk) : List Effect :=
  chunks.flatMap Chunk.effects

@[simp]
theorem codeEffects_append (a b : List Chunk) :
    codeEffects (a ++ b) = codeEffects a ++ codeEffects b :=
  List.flatMap_append

theorem IR.Stmt.count_label_move_temp (t : Temp) (e : Expr) (l : Label) :
    (Stmt.move (.temp t) e).effects.count (.label l) = e.effects.count (.label l) := by
  rw [Stmt.effects, Expr.moveEffects, List.count_append]
  rfl

/-- How often a label is placed in the chunks made so far. -/
def LowerState.placed (s : LowerState) (l : Label) : Nat :=
  (codeEffects s.chunks).count (.label l)

/-- Between two states of lowering, labels are placed at most once and only if they
were drawn in between, be it in the code at hand or in the chunks that were made, and
only temps drawn in between are assigned to. -/
structure Grows (s s' : LowerState) (es : List Effect) : Prop where
  labels : ∀ l, es.count (.label l) + s'.placed l + s.supply.mark l ≤
    s.placed l + s'.supply.mark l
  temps : ∀ t : Temp, 0 < es.count (.assign t) →
    (s.supply.temps : Int) ≤ t.index ∧ t.index < s'.supply.temps
  le : s.supply.temps ≤ s'.supply.temps
  chunks : s.chunks <+: s'.chunks

namespace Grows

variable {s s' s'' : LowerState} {a b es : List Effect}

theorem refl (s : LowerState) : Grows s s [] where
  labels l := by simp
  temps t ht := by cases ht
  le := Nat.le_refl _
  chunks := List.prefix_refl _

theorem append (ha : Grows s s' a) (hb : Grows s' s'' b) : Grows s s'' (a ++ b) where
  labels l := by
    have h := ha.labels l
    have h' := hb.labels l
    rw [List.count_append]
    omega
  temps t ht := by
    have hle := ha.le
    have hle' := hb.le
    rw [List.count_append] at ht
    rcases Nat.eq_zero_or_pos (a.count (.assign t)) with h | h
    · have := hb.temps t (by omega)
      omega
    · have := ha.temps t h
      omega
  le := Nat.le_trans ha.le hb.le
  chunks := ha.chunks.trans hb.chunks

/-- Effects may be dropped and put into another order. -/
theorem weaken (h : Grows s s' a) (hes : ∀ e : Effect, e.isDrawn = true → es.count e ≤ a.count e) :
    Grows s s' es where
  labels l := by
    have hle := h.labels l
    have hcount := hes (.label l) rfl
    omega
  temps t ht := h.temps t (Nat.lt_of_lt_of_le ht (hes (.assign t) rfl))
  le := h.le
  chunks := h.chunks

theorem forget (h : Grows s s' a) : Grows s s' [] :=
  h.weaken fun _ _ => Nat.zero_le _

theorem placed_le (h : Grows s s' es) (l : Label) : s.placed l ≤ s'.placed l := by
  obtain ⟨more, hmore⟩ := h.chunks
  rw [LowerState.placed, LowerState.placed, ← hmore, codeEffects_append, List.count_append]
  exact Nat.le_add_right _ _

/-- No label is placed twice. -/
theorem nodup (h : Grows s s' es) : (IR.Effect.labels es).Nodup := by
  refine List.nodup_iff_count_le_one.2 fun l => ?_
  have hle := h.labels l
  have hplaced := h.placed_le l
  have hone := s'.supply.mark_le_one l
  rw [Effect.count_labels]
  omega

theorem label {l : Label} (h : Lower.label s = .ok (l, s')) : Grows s s' [.label l] := by
  cases h
  refine ⟨fun m => ?_, fun t ht => ?_, Nat.le_refl _, List.prefix_refl _⟩
  · rw [← Effect.count_labels, Nat.add_right_comm, Nat.add_comm (s.placed m)]
    exact Nat.add_le_add_right (s.supply.label_count_le m) _
  · rw [List.count_pos_iff, List.mem_singleton] at ht
    cases ht

theorem temp {t : Temp} (h : Lower.temp s = .ok (t, s')) : Grows s s' [.assign t] := by
  cases h
  refine ⟨fun m => ?_, fun u hu => ?_, Nat.le_succ _, List.prefix_refl _⟩
  · rw [← Effect.count_labels, Nat.add_assoc]
    exact Nat.le_of_eq (Nat.zero_add _)
  · rw [List.count_pos_iff, List.mem_singleton] at hu
    cases hu
    exact ⟨Int.le_refl _, Int.ofNat_lt.2 (Nat.lt_succ_self _)⟩

/-- A temp may be assigned to in two places. -/
theorem temp_twice {t : Temp} (h : Lower.temp s = .ok (t, s')) :
    Grows s s' ([.assign t] ++ [.assign t]) where
  labels l := (temp h).labels l
  temps u hu := (temp h).temps u (by rw [List.count_append] at hu; omega)
  le := (temp h).le
  chunks := (temp h).chunks

/-- A chunk of data places no labels. -/
theorem static {l : Label} {size : Word} {init : List UInt8}
    (h : Grows ⟨s.supply, s.chunks ++ [.data l size init]⟩ s' es) : Grows s s' es where
  labels m := by
    have hle := h.labels m
    simp only [LowerState.placed, codeEffects_append, List.count_append] at hle ⊢
    exact hle
  temps := h.temps
  le := h.le
  chunks := (List.prefix_append _ _).trans h.chunks

/-- A function leaves its chunk and those of its body behind. -/
theorem function {supply : Supply} {inner : List Chunk} {frame : Frame} {code : Stmt}
    (hbody : Grows ⟨s.supply, []⟩ ⟨supply, inner⟩ es)
    (hcode : ∀ l, code.effects.count (.label l) ≤ es.count (.label l))
    (hrest : Grows ⟨supply, s.chunks ++ .code frame code :: inner⟩ s' []) : Grows s s' [] where
  labels l := by
    have h : es.count (.label l) + (codeEffects inner).count (.label l) + s.supply.mark l ≤
        0 + supply.mark l := hbody.labels l
    have h' := hrest.labels l
    have hle := hcode l
    have hchunk : codeEffects (.code frame code :: inner) = code.effects ++ codeEffects inner :=
      rfl
    simp only [LowerState.placed, codeEffects_append, hchunk, List.count_append, List.count_nil]
      at h' ⊢
    omega
  temps _ ht := by cases ht
  le := Nat.le_trans hbody.le hrest.le
  chunks := (List.prefix_append _ _).trans hrest.chunks

end Grows

variable {bytes : List UInt8} {s s' : LowerState}

/-- A string literal adds a chunk of data and is known by its label. -/
theorem Lower.string_eq_ok {e : Expr} (h : Lower.string bytes s = .ok (e, s')) :
    ∃ size init, e = .name s.supply.string.1 ∧
      s' = ⟨s.supply.string.2, s.chunks ++ [.data s.supply.string.1 size init]⟩ := by
  cases h
  exact ⟨_, _, rfl, rfl⟩

theorem Grows.string {e : Expr} (h : Lower.string bytes s = .ok (e, s'))
    : Grows s s' e.effects := by
  obtain ⟨size, init, rfl, rfl⟩ := Lower.string_eq_ok h
  refine ⟨fun m => ?_, fun t ht => ?_, Nat.le_refl _, List.prefix_append _ _⟩
  · have hle := s.supply.string_count_le m
    have hdata : codeEffects [.data s.supply.string.1 size init] = [] := rfl
    simp only [LowerState.placed, codeEffects_append, hdata, List.append_nil, Expr.effects,
      List.count_nil]
    omega
  · cases ht

theorem effects_atOffset (e : Expr) (offset : Word) : (atOffset e offset).effects = e.effects := by
  unfold atOffset
  split
  · rfl
  · simp only [Expr.effects, List.append_nil]

theorem effects_linkChain (n : Nat) : ∀ e : Expr, (linkChain n e).effects = e.effects := by
  induction n with
  | zero => exact fun _ => rfl
  | succ n ih => exact fun e => ih (.mem e)

theorem effects_slotAddress (layout : Layout) (f : FrameRecord) (frame : Nat) (offset : Word) :
    (slotAddress layout f frame offset).effects = [] := by
  rw [slotAddress, effects_atOffset, effects_linkChain, Expr.effects]

open IR.Effect (count_call count_jump count_cjump count_store) in
/-- What a derivation takes from the supply. -/
theorem Lowers.grows {types : TypeTable} {layout : Layout} {r : Reading} {o : Lowered}
    (h : Lowers types layout r s o s') : Grows s s' o.effects := by
  induction h with
  | number | logical | nothing | global _ | noArgument | noEffect | noDefinition => exact .refl _
  | string h => exact .string h
  | aggregate _ _ _ ih | load _ _ _ ih | plus _ ih | neg _ ih | not _ ih | addr _ ih
  | dropped _ _ ih | sequence _ ih | deref _ ih | stacked _ _ _ ih | skipped _ _ ih => exact ih
  | operation _ _ _ _ ihl ihr | withinValue _ _ ihl ihr | withinEffect _ _ ihl ihr
  | withinAddress _ _ ihl ihr | byAddress _ _ _ ihl ihr | byValue _ _ _ ihl ihr
  | effects _ _ ihl ihr => exact ihl.append ihr
  | assigned _ haddr ht _ _ iha ihv =>
    refine ((Grows.temp haddr).append ((Grows.temp ht).append (iha.append ihv))).weaken
      fun e he => ?_
    simp only [Lowered.effects, Expr.effects, Stmt.effects, Stmt.effectsAll, Expr.moveEffects,
      List.count_append, List.count_nil, count_store he]
    omega
  | call _ _ ih =>
    refine ih.weaken fun e he => ?_
    simp only [Lowered.effects, Expr.effects, Expr.effectsAll, List.nil_append,
      List.count_append, count_call he]
    omega
  | last _ _ _ ihs ihe =>
    simp only [Lowered.effects, Expr.effects, Stmt.effects_join]
    exact ihs.append ihe
  | zero _ _ ih =>
    simp only [Lowered.effects, Expr.effects, List.append_nil]
    exact ih
  | chosen _ ht h₁ h₂ h₃ _ _ _ ihc iha ihb =>
    refine ((Grows.temp_twice ht).append ((Grows.label h₁).append ((Grows.label h₂).append
      ((Grows.label h₃).append (ihc.append (iha.append ihb)))))).weaken fun e he => ?_
    simp only [Lowered.effects, Expr.effects, Stmt.effects, Stmt.effectsAll, Expr.moveEffects,
      List.count_append, List.count_nil, count_cjump he, count_jump he]
    omega
  | assign _ _ _ iha ihv =>
    refine (iha.append ihv).weaken fun e he => ?_
    simp only [Lowered.effects, Stmt.effects, Expr.moveEffects, List.count_append, count_store he]
    omega
  | ifThen h₁ h₂ _ _ ihc iht =>
    refine ((Grows.label h₁).append ((Grows.label h₂).append (ihc.append iht))).weaken
      fun e he => ?_
    simp only [Lowered.effects, Stmt.effects, Stmt.effectsAll, List.count_append,
      List.count_nil, count_cjump he]
    omega
  | ifElse h₁ h₂ _ h₃ _ _ ihc iht ihe =>
    refine ((Grows.label h₁).append ((Grows.label h₂).append (ihc.append
      ((Grows.label h₃).append (iht.append ihe))))).weaken fun e he => ?_
    simp only [Lowered.effects, Stmt.effects, Stmt.effectsAll, List.count_append,
      List.count_nil, count_cjump he, count_jump he]
    omega
  | whileLoop h₁ h₂ h₃ _ _ ihc ihb =>
    refine ((Grows.label h₁).append ((Grows.label h₂).append ((Grows.label h₃).append
      (ihc.append ihb)))).weaken fun e he => ?_
    simp only [Lowered.effects, Stmt.effects, Stmt.effectsAll, List.count_append,
      List.count_nil, count_cjump he, count_jump he]
    omega
  | forLoop h₁ h₂ h₃ _ _ _ _ _ _ _ _ ih₁ ih₂ ih₃ ih₄ ih₅ ih₆ ih₇ ih₈ =>
    refine ((Grows.label h₁).append ((Grows.label h₂).append ((Grows.label h₃).append
      (ih₁.append (ih₂.append (ih₃.append (ih₄.append (ih₅.append (ih₆.append
        (ih₇.append ih₈)))))))))).weaken fun e he => ?_
    simp only [Lowered.effects, Expr.effects, Stmt.effects, Stmt.effectsAll, Expr.moveEffects,
      List.count_append, List.count_nil, count_cjump he, count_jump he, count_store he]
    omega
  | localSlot _ _ | paramSlot _ _ =>
    rw [Lowered.effects, effects_slotAddress]
    exact .refl _
  | reference _ _ =>
    rw [Lowered.effects, Expr.effects, effects_slotAddress]
    exact .refl _
  | member _ ih =>
    rw [Lowered.effects, effects_atOffset]
    exact ih
  | index _ _ ihi ihb =>
    refine (ihi.append ihb).weaken fun e he => ?_
    simp only [Lowered.effects, Expr.effects, List.count_append, List.count_nil]
    omega
  | static _ _ ih => exact ih.static
  | procedure _ _ _ _ ihb ih => exact ihb.function (fun _ => Nat.le_refl _) ih
  | function _ _ _ _ ihb ih =>
    exact ihb.function (fun l => Nat.le_of_eq (Stmt.count_label_move_temp _ _ l)) ih

/-- What lowering yields is sound. -/
def Lowered.Sound (N : Label → Prop) (k : Nat) : Lowered → Prop
  | .expr e => e.Sound N k
  | .stmt s => s.Sound N k ∧ Block.Closed s.flatten
  | .exprs es => Expr.SoundAll N k es
  | .stmts ss => Stmt.SoundAll N k ss ∧ Block.Closed (Stmt.flattenAll ss)
  | .nothing => True

/-- The code among some chunks is sound. -/
def SoundChunks (N : Label → Prop) (k : Nat) (chunks : List Chunk) : Prop :=
  ∀ frame body, .code frame body ∈ chunks → body.SoundBody N k

section

variable {N : Label → Prop} {k : Nat}

theorem sound_atOffset {e : Expr} (h : e.Sound N k) (offset : Word) :
    (atOffset e offset).Sound N k := by
  unfold atOffset
  split
  · exact h
  · exact ⟨h, trivial⟩

theorem sound_linkChain (n : Nat) : ∀ {e : Expr}, e.Sound N k → (linkChain n e).Sound N k := by
  induction n with
  | zero => exact fun h => h
  | succ n ih => exact fun {e} h => ih (e := .mem e) h

theorem sound_slotAddress (hk : 2 ≤ k) (layout : Layout) (f : FrameRecord) (frame : Nat)
    (offset : Word) : (slotAddress layout f frame offset).Sound N k :=
  sound_atOffset (sound_linkChain _ (e := .temp Temp.fp)
    ⟨Int.le_refl 0, show (0 : Int) < k by omega⟩) offset

theorem sound_join {ss : List Stmt} (h : Stmt.SoundAll N k ss) : (Stmt.join ss).Sound N k :=
  Stmt.join_induction (fun _ _ h => h) (fun _ _ hs hss => ⟨hs, hss⟩) (fun _ h => h) h

end

namespace IR.Stmt

/-- The jumps of a statement in a sequence stay inside the sequence. -/
inductive ClosedAmong (ss : List Stmt) : Stmt → Prop
  | block {s : Stmt} : Block.Closed s.flatten → ClosedAmong ss s
  | jump {l : Label} : .label l ∈ ss → ClosedAmong ss (.jump l)
  | cjump {c : Expr} {t f : Label} : .label t ∈ ss → .label f ∈ ss → ClosedAmong ss (.cjump c t f)

namespace ClosedAmong

variable {ss : List Stmt}

theorem label (l : Label) : ClosedAmong ss (.label l) :=
  .block (Block.closed_single rfl)

theorem move (d e : Expr) : ClosedAmong ss (.move d e) :=
  .block (Block.closed_single rfl)

/-- A sequence of such statements is closed. -/
theorem closed_flattenAll (h : ∀ s ∈ ss, ClosedAmong ss s) : Block.Closed (flattenAll ss) := by
  have hlabel : ∀ {l : Label}, .label l ∈ ss → l ∈ Block.placed (flattenAll ss) := fun hl =>
    Block.mem_placed.2 (mem_flattenAll.2 ⟨_, hl, List.mem_singleton.2 rfl⟩)
  intro i hi l hl
  obtain ⟨s, hs, hi⟩ := mem_flattenAll.1 hi
  cases h s hs with
  | block hclosed =>
    have hplaced := Block.mem_placed.1 (hclosed i hi l hl)
    exact Block.mem_placed.2 (mem_flattenAll.2 ⟨s, hs, hplaced⟩)
  | jump hmem =>
    cases List.mem_singleton.1 hi
    cases List.mem_singleton.1 hl
    exact hlabel hmem
  | cjump ht hf =>
    cases List.mem_singleton.1 hi
    rcases List.mem_cons.1 hl with rfl | hl
    · exact hlabel ht
    · cases List.mem_singleton.1 hl
      exact hlabel hf

end ClosedAmong

end IR.Stmt

/-- A state of lowering stays within a bound: its temps are below it, and its data has
names. -/
structure LowerState.Within (N : Label → Prop) (k : Nat) (s : LowerState) : Prop where
  temps : s.supply.temps ≤ k
  names : ∀ l size init, .data l size init ∈ s.chunks → N l

/-- Lowering from one state to another makes something of which `P` holds, and keeps the
chunks sound, as long as it ends within a bound. -/
structure Makes (N : Label → Prop) (k : Nat) (s s' : LowerState) (P : Prop) : Prop where
  grows : Grows s s' []
  sound : Temp.firstFree ≤ s.supply.temps → s'.Within N k →
    P ∧ (SoundChunks N k s.chunks → SoundChunks N k s'.chunks)

namespace Makes

variable {N : Label → Prop} {k : Nat} {s s₁ s' : LowerState} {P Q : Prop}

theorem refl (h : P) : Makes N k s s P :=
  ⟨.refl s, fun _ _ => ⟨h, id⟩⟩

theorem mono (h : Makes N k s s' P) (hPQ : P → Q) : Makes N k s s' Q :=
  ⟨h.grows, fun hs hw => (h.sound hs hw).imp_left hPQ⟩

theorem and (h : Makes N k s s₁ P) (h' : Makes N k s₁ s' Q) : Makes N k s s' (P ∧ Q) where
  grows := h.grows.append h'.grows
  sound hs hw := by
    have hw₁ : s₁.Within N k := ⟨Nat.le_trans h'.grows.le hw.temps, fun l size init hmem =>
      hw.names l size init (h'.grows.chunks.subset hmem)⟩
    obtain ⟨hP, hc⟩ := h.sound hs hw₁
    obtain ⟨hQ, hc'⟩ := h'.sound (Nat.le_trans hs h.grows.le) hw
    exact ⟨⟨hP, hQ⟩, hc' ∘ hc⟩

theorem label {l : Label} (h : Lower.label s = .ok (l, s')) : Makes N k s s' True :=
  ⟨(Grows.label h).forget, fun _ _ => by cases h; exact ⟨trivial, id⟩⟩

/-- A temp that was drawn may be moved to. -/
theorem temp {t : Temp} (h : Lower.temp s = .ok (t, s')) :
    Makes N k s s' (t ≠ Temp.fp ∧ t.Below k) := by
  refine ⟨(Grows.temp h).forget, fun hs hw => ?_⟩
  have hle := hw.temps
  obtain ⟨hlo, hhi⟩ := (Grows.temp h).temps t (by simp)
  refine ⟨⟨?_, by omega, by omega⟩, by cases h; exact id⟩
  rintro rfl
  change 2 ≤ s.supply.temps at hs
  change (s.supply.temps : Int) ≤ 0 at hlo
  omega

theorem string {bytes : List UInt8} {e : Expr} (h : Lower.string bytes s = .ok (e, s')) :
    Makes N k s s' (e.Sound N k) := by
  refine ⟨(Grows.string h).forget, fun _ hw => ?_⟩
  obtain ⟨size, init, rfl, rfl⟩ := Lower.string_eq_ok h
  refine ⟨hw.names _ size init (List.mem_append_right _ (List.mem_singleton.2 rfl)),
    fun hgood frame body hmem => ?_⟩
  rcases List.mem_append.1 hmem with hmem | hmem
  · exact hgood frame body hmem
  · cases List.mem_singleton.1 hmem

/-- A variable on top level leaves its data behind. -/
theorem static {l : Label} {size : Word}
    (h : Makes N k ⟨s.supply, s.chunks ++ [.data l size []]⟩ s' P) : Makes N k s s' P where
  grows := h.grows.static
  sound hs hw := by
    obtain ⟨hP, hc⟩ := h.sound hs hw
    refine ⟨hP, fun hgood => hc fun frame body hmem => ?_⟩
    rcases List.mem_append.1 hmem with hmem | hmem
    · exact hgood frame body hmem
    · cases List.mem_singleton.1 hmem

/-- A function with a sound body leaves sound chunks behind. -/
theorem function {supply : Supply} {inner : List Chunk} {frame : Frame} {body : Stmt}
    (hgrows : Grows s s' []) (hbody : Makes N k ⟨s.supply, []⟩ ⟨supply, inner⟩ (body.SoundBody N k))
    (hrest : Makes N k ⟨supply, s.chunks ++ .code frame body :: inner⟩ s' True) :
    Makes N k s s' True where
  grows := hgrows
  sound hs hw := by
    have hw₁ : LowerState.Within N k ⟨supply, inner⟩ :=
      ⟨Nat.le_trans hrest.grows.le hw.temps, fun l size init hmem => hw.names l size init
        (hrest.grows.chunks.subset (List.mem_append_right _ (List.mem_cons_of_mem _ hmem)))⟩
    obtain ⟨hsound, hinner⟩ := hbody.sound hs hw₁
    obtain ⟨-, hc⟩ := hrest.sound (Nat.le_trans hs hbody.grows.le) hw
    refine ⟨trivial, fun hgood => hc fun frame' body' hmem => ?_⟩
    rcases List.mem_append.1 hmem with hmem | hmem
    · exact hgood frame' body' hmem
    · cases hmem with
      | head => exact hsound
      | tail _ hmem => exact hinner (fun _ _ h => nomatch h) frame' body' hmem

end Makes

section

variable {types : TypeTable} {layout : Layout} {N : Label → Prop} {k : Nat}

/-- What a derivation makes is sound, if the places on top level have data. -/
theorem Lowers.sound (hk : Temp.firstFree ≤ k)
    (hglobal : ∀ x l size, layout.access? x = some (.global l size) → N l)
    {r : Reading} {s s' : LowerState} {o : Lowered} (h : Lowers types layout r s o s') :
    Makes N k s s' (o.Sound N k) := by
  induction h with
  | number | logical | nothing | noArgument | noDefinition => exact .refl trivial
  | string h => exact .string h
  | aggregate _ _ _ ih | load _ _ _ ih | plus _ ih | neg _ ih | not _ ih | addr _ ih
  | sequence _ ih | deref _ ih | stacked _ _ _ ih | skipped _ _ ih => exact ih
  | operation _ _ _ _ ihl ihr | byAddress _ _ _ ihl ihr | byValue _ _ _ ihl ihr => exact ihl.and ihr
  | assigned _ haddr ht _ _ iha ihv =>
    refine ((Makes.temp haddr).and ((Makes.temp ht).and (iha.and ihv))).mono ?_
    rintro ⟨haddr, ht, ha, hv⟩
    refine ⟨⟨⟨⟨haddr, ha⟩, ⟨ht, hv⟩, ⟨haddr.2, ht.2⟩, trivial⟩, ?_⟩, ht.2⟩
    refine Stmt.ClosedAmong.closed_flattenAll ?_
    simp only [List.forall_mem_cons]
    exact ⟨.move _ _, .move _ _, .move _ _, List.forall_mem_nil _⟩
  | call _ _ ih => exact ih.mono fun h => ⟨trivial, h⟩
  | last _ _ _ ihs ihe =>
    refine (ihs.and ihe).mono ?_
    rintro ⟨⟨hss, hclosed⟩, he⟩
    exact ⟨⟨sound_join hss, Stmt.flatten_join _ ▸ hclosed⟩, he⟩
  | zero _ _ ih => exact ih.mono fun h => ⟨h, trivial⟩
  | chosen _ ht h₁ h₂ h₃ _ _ _ ihc iha ihb =>
    refine ((Makes.temp ht).and ((Makes.label h₁).and ((Makes.label h₂).and
      ((Makes.label h₃).and (ihc.and (iha.and ihb)))))).mono ?_
    rintro ⟨ht, -, -, -, hc, ha, hb⟩
    refine ⟨⟨⟨hc, trivial, ⟨ht, ha⟩, trivial, trivial, ⟨ht, hb⟩, trivial, trivial⟩, ?_⟩, ht.2⟩
    refine Stmt.ClosedAmong.closed_flattenAll ?_
    simp only [List.forall_mem_cons]
    exact ⟨.cjump (by simp) (by simp), .label _, .move _ _, .jump (by simp), .label _,
      .move _ _, .label _, List.forall_mem_nil _⟩
  | withinValue _ _ ihd ihe | withinEffect _ _ ihd ihe | withinAddress _ _ ihd ihe =>
    exact (ihd.and ihe).mono And.right
  | dropped _ _ ih => exact ih.mono fun h => ⟨h, Block.closed_single rfl⟩
  | assign _ _ _ iha ihv => exact (iha.and ihv).mono fun h => ⟨h, Block.closed_single rfl⟩
  | ifThen h₁ h₂ _ _ ihc iht =>
    refine ((Makes.label h₁).and ((Makes.label h₂).and (ihc.and iht))).mono ?_
    rintro ⟨-, -, hc, ht, hclosed⟩
    refine ⟨⟨hc, trivial, ht, trivial, trivial⟩, Stmt.ClosedAmong.closed_flattenAll ?_⟩
    simp only [List.forall_mem_cons]
    exact ⟨.cjump (by simp) (by simp), .label _, .block hclosed, .label _,
      List.forall_mem_nil _⟩
  | ifElse h₁ h₂ _ h₃ _ _ ihc iht ihe =>
    refine ((Makes.label h₁).and ((Makes.label h₂).and (ihc.and
      ((Makes.label h₃).and (iht.and ihe))))).mono ?_
    rintro ⟨-, -, hc, -, ⟨ht, hclosed⟩, he, hclosed'⟩
    refine ⟨⟨hc, trivial, ht, trivial, trivial, he, trivial, trivial⟩,
      Stmt.ClosedAmong.closed_flattenAll ?_⟩
    simp only [List.forall_mem_cons]
    exact ⟨.cjump (by simp) (by simp), .label _, .block hclosed, .jump (by simp), .label _,
      .block hclosed', .label _, List.forall_mem_nil _⟩
  | whileLoop h₁ h₂ h₃ _ _ ihc ihb =>
    refine ((Makes.label h₁).and ((Makes.label h₂).and ((Makes.label h₃).and
      (ihc.and ihb)))).mono ?_
    rintro ⟨-, -, -, hc, hb, hclosed⟩
    refine ⟨⟨trivial, hc, trivial, hb, trivial, trivial, trivial⟩,
      Stmt.ClosedAmong.closed_flattenAll ?_⟩
    simp only [List.forall_mem_cons]
    exact ⟨.label _, .cjump (by simp) (by simp), .label _, .block hclosed, .jump (by simp),
      .label _, List.forall_mem_nil _⟩
  | forLoop h₁ h₂ h₃ _ _ _ _ _ _ _ _ ih₁ ih₂ ih₃ ih₄ ih₅ ih₆ ih₇ ih₈ =>
    refine ((Makes.label h₁).and ((Makes.label h₂).and ((Makes.label h₃).and
      (ih₁.and (ih₂.and (ih₃.and (ih₄.and (ih₅.and (ih₆.and (ih₇.and ih₈)))))))))).mono ?_
    rintro ⟨-, -, -, hfirst, hlo, htested, hhi, ⟨hb, hclosed⟩, hwritten, hread, hstep⟩
    refine ⟨⟨⟨hfirst, hlo⟩, trivial, ⟨htested, hhi⟩, trivial, hb, ⟨hwritten, hread, hstep⟩,
      trivial, trivial, trivial⟩, Stmt.ClosedAmong.closed_flattenAll ?_⟩
    simp only [List.forall_mem_cons]
    exact ⟨.move _ _, .label _, .cjump (by simp) (by simp), .label _, .block hclosed,
      .move _ _, .jump (by simp), .label _, List.forall_mem_nil _⟩
  | global h => exact .refl (hglobal _ _ _ h)
  | localSlot _ _ | paramSlot _ _ | reference _ _ => exact .refl (sound_slotAddress hk _ _ _ _)
  | member _ ih => exact ih.mono fun h => sound_atOffset h _
  | index _ _ ihi ihb => exact (ihi.and ihb).mono fun h => ⟨h.2, h.1, trivial⟩
  | noEffect => exact .refl ⟨trivial, Block.closed_nil⟩
  | effects _ _ ihs ihss =>
    exact (ihs.and ihss).mono fun h => ⟨⟨h.1.1, h.2.1⟩, h.1.2.append h.2.2⟩
  | static _ _ ih => exact ih.static
  | procedure _ _ hbody _ ihb ih =>
    exact (ihb.mono fun h => ⟨h.1, h.2, hbody.grows.nodup⟩).function
      (hbody.grows.function (fun _ => Nat.le_refl _) ih.grows) ih
  | function _ _ hbody _ ihb ih =>
    have hcount := Stmt.count_label_move_temp Temp.rv
    refine (ihb.mono fun h => ⟨⟨⟨by decide, by decide, ?_⟩, h⟩, Block.closed_single rfl,
      ?_⟩).function (hbody.grows.function (fun l => Nat.le_of_eq (hcount _ l)) ih.grows) ih
    · exact Int.ofNat_lt.2 (Nat.lt_of_lt_of_le (by decide) hk)
    · rw [Stmt.effects, Expr.moveEffects, IR.Effect.labels_append]
      exact (List.append_nil _).symm ▸ hbody.grows.nodup

end

end TreeCode
