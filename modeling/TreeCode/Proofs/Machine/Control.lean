/-
# Control flow in blocks

A block is executed by position, and jumps look their labels up in the block. This
module makes execution compositional. An instruction is split into what it does and
where control goes next; a piece of a block whose jumps stay inside it runs in the
block as it runs alone; and loops on both sides of a comparison are compared round
by round.

`Does` describes several instructions of a block as one step. Besides the equation
it keeps count of the instructions, since a comparison of loops has to end.
-/

import TreeCode.Proofs.Machine.Relation

namespace TreeCode

open IR (Stmt)

namespace Block

/-- The block of a list of instructions. -/
def ofList (code : List Stmt) : Block :=
  code.toArray

@[simp]
theorem getElem?_ofList (code : List Stmt) (i : Nat) : (ofList code)[i]? = code[i]? :=
  List.getElem?_toArray

/-- The labels that the instructions of a list place. -/
def placed (code : List Stmt) : List Label :=
  code.filterMap fun
    | .label l => some l
    | _ => none

/-- The labels that an instruction may jump to. -/
def targets : Stmt → List Label
  | .jump l => [l]
  | .cjump _ t f => [t, f]
  | _ => []

/-- Every jump of an instruction list stays inside it. -/
def Closed (code : List Stmt) : Prop :=
  ∀ stmt ∈ code, ∀ l ∈ targets stmt, l ∈ placed code

@[simp]
theorem placed_append (a b : List Stmt) : placed (a ++ b) = placed a ++ placed b :=
  List.filterMap_append

variable {b : Block} {code : List Stmt} {stmt : Stmt} {l : Label} {i : Nat}

theorem mem_placed : l ∈ placed code ↔ Stmt.label l ∈ code := by
  simp only [placed, List.mem_filterMap]
  constructor
  · rintro ⟨stmt, hmem, h⟩
    cases stmt <;> simp_all
  · exact fun h => ⟨_, h, rfl⟩

theorem closed_nil : Closed [] := by
  intro stmt h
  cases h

theorem closed_single (h : targets stmt = []) : Closed [stmt] := by
  intro s hs l hl
  cases List.mem_singleton.1 hs
  rw [h] at hl
  cases hl

@[simp]
theorem placed_move (d e : IR.Expr) : placed [.move d e] = [] := rfl

theorem Closed.append {a b : List Stmt} (ha : Closed a) (hb : Closed b) : Closed (a ++ b) := by
  intro stmt hmem l hl
  rw [placed_append, List.mem_append]
  rcases List.mem_append.1 hmem with h | h
  · exact .inl (ha stmt h l hl)
  · exact .inr (hb stmt h l hl)

theorem places_iff : places l stmt = true ↔ stmt = .label l := by
  cases stmt with
  | label m =>
    simp only [places, beq_iff_eq, IR.Stmt.label.injEq]
    exact eq_comm
  | _ => simp [places]

theorem search_eq_some {n : Nat} :
    position?.search b l n = some i ↔
      i < n ∧ b[i]? = some (.label l) ∧ ∀ j, i < j → j < n → b[j]? ≠ some (.label l) := by
  induction n with
  | zero => simp [position?.search]
  | succ n ih =>
    have hany : (b[n]?).any (places l) = true ↔ b[n]? = some (.label l) := by
      cases b[n]? <;> simp [places_iff]
    rw [position?.search]
    by_cases h : (b[n]?).any (places l) = true
    · rw [if_pos h]
      constructor
      · intro heq
        obtain rfl : n = i := Option.some.inj heq
        exact ⟨Nat.lt_succ_self n, hany.1 h, fun j hj hj' => by omega⟩
      · rintro ⟨hi, -, hlast⟩
        rcases Nat.lt_or_ge i n with hlt | hge
        · exact absurd (hany.1 h) (hlast n hlt (Nat.lt_succ_self n))
        · rw [show n = i by omega]
    · rw [if_neg h, ih]
      constructor
      · rintro ⟨hi, hb, hlast⟩
        refine ⟨by omega, hb, fun j hj hj' => ?_⟩
        rcases Nat.lt_or_ge j n with hlt | hge
        · exact hlast j hj hlt
        · rw [show j = n by omega]
          exact fun hn => h (hany.2 hn)
      · rintro ⟨hi, hb, hlast⟩
        refine ⟨?_, hb, fun j hj hj' => hlast j hj (by omega)⟩
        rcases Nat.lt_or_ge i n with hlt | hge
        · exact hlt
        · rw [show i = n by omega] at hb
          exact absurd (hany.2 hb) h

/-- The position of a label is its last place. -/
theorem position?_eq_some :
    b.position? l = some i ↔
      b[i]? = some (.label l) ∧ ∀ j, i < j → b[j]? ≠ some (.label l) := by
  rw [position?, search_eq_some]
  constructor
  · rintro ⟨hi, hb, hlast⟩
    refine ⟨hb, fun j hj hbj => ?_⟩
    obtain ⟨hlt, -⟩ := Array.getElem?_eq_some_iff.1 hbj
    exact hlast j hj hlt hbj
  · rintro ⟨hb, hlast⟩
    obtain ⟨hlt, -⟩ := Array.getElem?_eq_some_iff.1 hb
    exact ⟨hlt, hb, fun j hj _ => hlast j hj⟩

/-- A label that is placed in a block has a position in it. -/
theorem exists_position? (h : b[i]? = some (.label l)) : ∃ j, b.position? l = some j := by
  obtain ⟨hi, -⟩ := Array.getElem?_eq_some_iff.1 h
  have hsearch : ∀ n, i < n → ∃ j, position?.search b l n = some j := by
    intro n
    induction n with
    | zero => exact fun hn => absurd hn (Nat.not_lt_zero i)
    | succ n ih =>
      intro hn
      rw [position?.search]
      split
      · exact ⟨n, rfl⟩
      next hother =>
        refine ih (Nat.lt_of_le_of_ne (Nat.le_of_lt_succ hn) fun heq => hother ?_)
        rw [← heq, h]
        exact places_iff.2 rfl
  exact hsearch b.size hi

/-- In a list that places every label once, a label has the position where it is
placed. -/
theorem position?_of_nodup (h : (placed code).Nodup) (hi : code[i]? = some (.label l))
    : (ofList code).position? l = some i := by
  rw [position?_eq_some]
  simp only [getElem?_ofList]
  refine ⟨hi, fun j hj hb => ?_⟩
  -- cut the list between the two places: the label is then placed in both parts
  have hcut : code.take (i + 1) ++ code.drop (i + 1) = code := List.take_append_drop _ _
  rw [← hcut, placed_append, List.nodup_append] at h
  have hfirst : l ∈ placed (code.take (i + 1)) := by
    rw [mem_placed, List.mem_iff_getElem?]
    exact ⟨i, by rw [List.getElem?_take_of_lt (Nat.lt_succ_self i), hi]⟩
  have hsecond : l ∈ placed (code.drop (i + 1)) := by
    rw [mem_placed, List.mem_iff_getElem?]
    exact ⟨j - (i + 1), by rw [List.getElem?_drop, show i + 1 + (j - (i + 1)) = j by omega, hb]⟩
  exact h.2.2 l hfirst l hsecond rfl

/-- A piece of a block: its instructions stand there from a position on, and its
jumps lead to its own labels. -/
structure Embeds (b : Block) (p : Nat) (piece : List Stmt) : Prop where
  code : ∀ i, i < piece.length → b[p + i]? = piece[i]?
  jumps : ∀ stmt ∈ piece, ∀ l ∈ targets stmt,
    ∃ i, i < piece.length ∧ (ofList piece).position? l = some i ∧ b.position? l = some (p + i)

theorem Embeds.of_append {a piece c : List Stmt} (hclosed : Closed piece)
    (hnodup : (placed (a ++ piece ++ c)).Nodup) :
    Embeds (ofList (a ++ piece ++ c)) a.length piece := by
  have hcode : ∀ i, i < piece.length → (a ++ piece ++ c)[a.length + i]? = piece[i]? := by
    intro i hi
    rw [List.append_assoc, List.getElem?_append_right (by omega),
      List.getElem?_append_left (by omega)]
    congr 1
    omega
  refine ⟨fun i hi => by rw [getElem?_ofList, hcode i hi], fun stmt hmem l hl => ?_⟩
  have hpiece : (placed piece).Nodup := by
    rw [placed_append, placed_append] at hnodup
    exact (List.nodup_append.1 (List.nodup_append.1 hnodup).1).2.1
  obtain ⟨i, hi⟩ := List.mem_iff_getElem?.1 (mem_placed.1 (hclosed stmt hmem l hl))
  have hlt : i < piece.length := (List.getElem?_eq_some_iff.1 hi).1
  exact ⟨i, hlt, position?_of_nodup hpiece hi, position?_of_nodup hnodup ((hcode i hlt).trans hi)⟩

end Block

namespace Exec

open Block (Embeds ofList targets)

section

variable (setup : Setup) (run : Block → Exec Unit)

/-- What an instruction does, and the label at which control goes on if that is not
the next instruction. -/
def act : Stmt → Exec (Option Label)
  | .label _ => pure none
  | .jump l => pure (some l)
  | .cjump c t f => do
    let v ← eval setup run c
    return some (if v = 0 then f else t)
  | .move d s => do
    move setup run d s
    return none
  | .exp e => do
    let _ ← eval setup run e
    return none
  | .seq _ => defect (.nestedSequence "*ir.Seq")
  | .absent => defect (.nestedSequence "<nil>")

/-- The position at which control goes on. -/
def goto (b : Block) (pc : Nat) : Option Label → Exec Nat
  | none => pure (pc + 1)
  | some l => target b l

theorem step_eq (b : Block) (pc : Nat) (stmt : Stmt) :
    step setup run b pc stmt = act setup run stmt >>= goto b pc := by
  cases stmt <;> simp [step, act, goto] <;> rfl

theorem mem_targets_of_act {stmt : Stmt} {s s' : State} {l : Label}
    (h : act setup run stmt s = .ok (some l) s') : l ∈ targets stmt := by
  cases stmt with
  | jump m =>
    cases h
    exact List.mem_singleton.2 rfl
  | cjump c t f =>
    cases hc : eval setup run c s with
    | ok v u =>
      have hact : act setup run (.cjump c t f) s = .ok (some (if v = 0 then f else t)) u :=
        bind_of_ok hc
      rw [hact] at h
      cases h
      simp only [targets]
      split <;> simp
    | error e u =>
      have hact : act setup run (.cjump c t f) s = .error e u := bind_of_error hc
      rw [hact] at h
      cases h
  | move d e =>
    cases hm : move setup run d e s with
    | ok _ u =>
      have hact : act setup run (.move d e) s = .ok none u := bind_of_ok hm
      rw [hact] at h
      cases h
    | error _ u =>
      have hact : act setup run (.move d e) s = .error _ u := bind_of_error hm
      rw [hact] at h
      cases h
  | exp e =>
    cases hm : eval setup run e s with
    | ok _ u =>
      have hact : act setup run (.exp e) s = .ok none u := bind_of_ok hm
      rw [hact] at h
      cases h
    | error _ u =>
      have hact : act setup run (.exp e) s = .error _ u := bind_of_error hm
      rw [hact] at h
      cases h
  | label _ | seq _ | absent => cases h

theorem target_of_some {b : Block} {l : Label} {i : Nat} (h : b.position? l = some i)
    (s : State) : target b l s = .ok i s := by
  simp only [target, h]
  rfl

end

/-- An instruction of a piece does in the block what it does in the piece alone, and
control stays inside the piece or falls off its end. -/
theorem step_of_embeds (setup : Setup) (run : Block → Exec Unit) {b : Block} {p : Nat}
    {piece : List Stmt} (h : Embeds b p piece) {i : Nat} {stmt : Stmt}
    (hi : piece[i]? = some stmt) (s : State) :
    (∃ j s', step setup run (ofList piece) i stmt s = .ok j s' ∧ j ≤ piece.length ∧
        step setup run b (p + i) stmt s = .ok (p + j) s') ∨
      ∃ e s', step setup run (ofList piece) i stmt s = .error e s' ∧
        step setup run b (p + i) stmt s = .error e s' := by
  have hlt : i < piece.length := (List.getElem?_eq_some_iff.1 hi).1
  simp only [step_eq]
  cases hact : act setup run stmt s with
  | error e s' => exact .inr ⟨e, s', bind_of_error hact, bind_of_error hact⟩
  | ok where' s' =>
    left
    rw [bind_of_ok hact, bind_of_ok hact]
    cases where' with
    | none => exact ⟨i + 1, s', rfl, hlt, rfl⟩
    | some l =>
      obtain ⟨j, hj, hpos, hpos'⟩ := h.jumps stmt (List.mem_of_getElem? hi) l
        (mem_targets_of_act setup run hact)
      exact ⟨j, s', target_of_some hpos s', Nat.le_of_lt hj, target_of_some hpos' s'⟩

section

variable (setup : Setup)

/-- Instructions of a block as one step: from `pc` on, `x` happens and yields the
position at which execution continues, at least `k` instructions later. -/
structure Does (k : Nat) (b : Block) (pc : Nat) (x : Exec Nat) : Prop where
  eq : full setup b pc = x >>= full setup b
  count : ∀ s next s', x s = .ok next s' → ∀ n, Finished (quiet setup n b pc s) →
    ∃ m, m + k ≤ n ∧ quiet setup m b next s' = quiet setup n b pc s

variable {setup}

variable {b : Block} {pc n : Nat} {s : State} {stmt : Stmt}

theorem full_of_finished (h : Finished (quiet setup n b pc s))
    : full setup b pc s = quiet setup n b pc s :=
  (tends_full setup b pc).below n s h

theorem exists_quiet (h : Finished (full setup b pc s)) :
    ∃ n, quiet setup n b pc s = full setup b pc s := by
  obtain ⟨n, hn⟩ := (tends_full setup b pc).reached s h
  exact ⟨n, hn n (Nat.le_refl n)⟩

theorem full_of_not_finished (h : ¬ Finished (full setup b pc s))
    : full setup b pc s = .error .outOfFuel lostState :=
  (tends_full setup b pc).lost s h

theorem full_of_none (h : b[pc]? = none) : full setup b pc = pure () := by
  rw [full_eq, h]

theorem full_of_some (h : b[pc]? = some stmt) :
    full setup b pc = step setup (fullRun setup) b pc stmt >>= full setup b := by
  rw [full_eq, h]

/-- A finished run of a block with fuel starts with the instruction as it is executed
with enough fuel. -/
theorem quiet_succ_cases (hb : b[pc]? = some stmt) (h : Finished (quiet setup (n + 1) b pc s)) :
    (∃ next s', step setup (fullRun setup) b pc stmt s = .ok next s' ∧
        quiet setup (n + 1) b pc s = quiet setup n b next s') ∨
      ∃ e s', step setup (fullRun setup) b pc stmt s = .error e s' ∧
        quiet setup (n + 1) b pc s = .error e s' := by
  have hquiet : quiet setup (n + 1) b pc s =
      (step setup (fun inner => quiet setup n inner 0) b pc stmt >>= quiet setup n b) s := by
    simp only [quiet, hb]
  rw [hquiet] at h ⊢
  have hbelow := ((runs_full setup).step b pc stmt).below n s
  cases hs : step setup (fun inner => quiet setup n inner 0) b pc stmt s with
  | ok next s' =>
    left
    refine ⟨next, s', ?_, bind_of_ok hs⟩
    exact (hbelow (hs ▸ finished_ok next s')).trans hs
  | error e s' =>
    right
    rw [bind_of_error hs] at h ⊢
    refine ⟨e, s', ?_, rfl⟩
    exact (hbelow (hs ▸ finished_error (finished_error_iff.1 h) s')).trans hs

theorem quiet_succ_of_ok {next : Nat} {s' : State} (hb : b[pc]? = some stmt)
    (h : Finished (quiet setup (n + 1) b pc s))
    (hs : step setup (fullRun setup) b pc stmt s = .ok next s') :
    quiet setup (n + 1) b pc s = quiet setup n b next s' := by
  rcases quiet_succ_cases hb h with ⟨_, _, ht, hq⟩ | ⟨_, _, ht, -⟩ <;> cases hs.symm.trans ht
  exact hq

theorem quiet_succ_of_error {e : Stop} {s' : State} (hb : b[pc]? = some stmt)
    (h : Finished (quiet setup (n + 1) b pc s))
    (hs : step setup (fullRun setup) b pc stmt s = .error e s') :
    quiet setup (n + 1) b pc s = .error e s' := by
  rcases quiet_succ_cases hb h with ⟨_, _, ht, -⟩ | ⟨_, _, ht, hq⟩ <;> cases hs.symm.trans ht
  exact hq

theorem not_finished_quiet_zero : ¬ Finished (quiet setup 0 b pc s) :=
  fun h => h s rfl

theorem Does.instruction (hb : b[pc]? = some stmt) :
    Does setup 1 b pc (step setup (fullRun setup) b pc stmt) where
  eq := full_of_some hb
  count s next s' hs n hn := by
    cases n with
    | zero => exact absurd hn not_finished_quiet_zero
    | succ n => exact ⟨n, Nat.le_refl _, (quiet_succ_of_ok hb hn hs).symm⟩

theorem Does.bind {k k' : Nat} {x : Exec Nat} {f : Nat → Exec Nat} (hx : Does setup k b pc x)
    (hf : ∀ s next s', x s = .ok next s' → Does setup k' b next (f next)) :
    Does setup (k + k') b pc (x >>= f) where
  eq := by
    rw [hx.eq]
    funext s
    cases hs : x s with
    | error e s' =>
      rw [bind_of_error hs, bind_of_error (bind_of_error hs)]
    | ok next s' =>
      rw [bind_of_ok hs, (hf s next s' hs).eq]
      cases hn : f next s' with
      | error e t =>
        rw [bind_of_error hn, bind_of_error ((bind_of_ok hs).trans hn)]
      | ok next' t => rw [bind_of_ok hn, bind_of_ok ((bind_of_ok hs).trans hn)]
  count s next s' hs n hn := by
    cases hxs : x s with
    | error e t =>
      rw [bind_of_error hxs] at hs
      cases hs
    | ok mid t =>
      rw [bind_of_ok hxs] at hs
      obtain ⟨m, hm, hq⟩ := hx.count s mid t hxs n hn
      obtain ⟨m', hm', hq'⟩ := (hf s mid t hxs).count t next s' hs m (hq ▸ hn)
      exact ⟨m', by omega, hq'.trans hq⟩

section

variable {b : Block} {p : Nat} {piece : List Stmt} (h : Embeds b p piece)

include h

/-- What a finished run of a piece says about the block. -/
theorem full_of_quiet_piece (n : Nat) : ∀ i s, i ≤ piece.length →
    Finished (quiet setup n (ofList piece) i s) →
    full setup b (p + i) s =
      match quiet setup n (ofList piece) i s with
      | .ok _ s' => full setup b (p + piece.length) s'
      | .error e s' => .error e s' := by
  induction n with
  | zero => exact fun i s _ hfin => absurd hfin not_finished_quiet_zero
  | succ n ih =>
    intro i s hi hfin
    rcases Nat.lt_or_ge i piece.length with hlt | hge
    · have hget : piece[i]? = some piece[i] := List.getElem?_eq_getElem hlt
      have hpiece : (ofList piece)[i]? = some piece[i] := by rw [Block.getElem?_ofList, hget]
      have hblock : b[p + i]? = some piece[i] := by rw [h.code i hlt, hget]
      rw [full_of_some hblock]
      rcases step_of_embeds setup (fullRun setup) h hget s with
        ⟨j, s', hj, hle, hj'⟩ | ⟨e, s', he, he'⟩
      · have hq := quiet_succ_of_ok hpiece hfin hj
        rw [bind_of_ok hj', ih j s' hle (hq ▸ hfin), hq]
      · rw [bind_of_error he', quiet_succ_of_error hpiece hfin he]
    · obtain rfl : i = piece.length := Nat.le_antisymm hi hge
      have hnone : (ofList piece)[piece.length]? = none := by simp
      have hq : quiet setup (n + 1) (ofList piece) piece.length s = .ok () s := by
        simp only [quiet, hnone]
        rfl
      rw [hq]

/-- What a finished run of the block says about a piece. -/
theorem quiet_of_full_piece (n : Nat) : ∀ i s, i ≤ piece.length →
    Finished (quiet setup n b (p + i) s) →
    match full setup (ofList piece) i s with
    | .ok _ s' => ∃ m, m ≤ n ∧
        quiet setup m b (p + piece.length) s' = quiet setup n b (p + i) s
    | .error e s' => quiet setup n b (p + i) s = .error e s' := by
  induction n with
  | zero => exact fun i s _ hfin => absurd hfin not_finished_quiet_zero
  | succ n ih =>
    intro i s hi hfin
    rcases Nat.lt_or_ge i piece.length with hlt | hge
    · have hget : piece[i]? = some piece[i] := List.getElem?_eq_getElem hlt
      have hpiece : (ofList piece)[i]? = some piece[i] := by rw [Block.getElem?_ofList, hget]
      have hblock : b[p + i]? = some piece[i] := by rw [h.code i hlt, hget]
      rw [full_of_some hpiece]
      rcases step_of_embeds setup (fullRun setup) h hget s with
        ⟨j, s', hj, hle, hj'⟩ | ⟨e, s', he, he'⟩
      · have hq := quiet_succ_of_ok hblock hfin hj'
        rw [bind_of_ok hj]
        have hrest := ih j s' hle (hq ▸ hfin)
        cases hf : full setup (ofList piece) j s' with
        | ok _ t =>
          rw [hf] at hrest
          obtain ⟨m, hm, hmq⟩ := hrest
          exact ⟨m, by omega, hmq.trans hq.symm⟩
        | error e t =>
          rw [hf] at hrest
          exact hq.trans hrest
      · rw [bind_of_error he]
        exact quiet_succ_of_error hblock hfin he'
    · obtain rfl : i = piece.length := Nat.le_antisymm hi hge
      have hnone : (ofList piece)[piece.length]? = none := by simp
      rw [full_of_none hnone]
      exact ⟨n + 1, Nat.le_refl _, rfl⟩

/-- A piece runs in the block as it runs alone. -/
theorem Does.embedded {i : Nat} (hi : i ≤ piece.length) :
    Does setup 0 b (p + i)
      (full setup (ofList piece) i >>= fun _ => pure (p + piece.length)) where
  eq := by
    rw [bind_assoc]
    simp only [pure_bind]
    funext s
    by_cases hfin : Finished (full setup (ofList piece) i s)
    · obtain ⟨n, hn⟩ := exists_quiet hfin
      have hfull := full_of_quiet_piece h n i s hi (hn ▸ hfin)
      rw [hfull, hn]
      cases hq : full setup (ofList piece) i s with
      | ok _ s' => rw [bind_of_ok hq]
      | error e s' => rw [bind_of_error hq]
    · have hlost := full_of_not_finished hfin
      rw [bind_of_error hlost]
      by_cases hblock : Finished (full setup b (p + i) s)
      · obtain ⟨n, hn⟩ := exists_quiet hblock
        have hq := quiet_of_full_piece h n i s hi (hn ▸ hblock)
        rw [hlost] at hq
        exact absurd hq ((hn ▸ hblock) lostState)
      · exact full_of_not_finished hblock
  count s next s' hs n hn := by
    cases hf : full setup (ofList piece) i s with
    | ok u t =>
      rw [bind_of_ok hf] at hs
      cases hs
      have hq := quiet_of_full_piece h n i s hi hn
      rw [hf] at hq
      simpa using hq
    | error e t =>
      rw [bind_of_error hf] at hs
      cases hs

/-- A piece and the instruction after it. -/
theorem Does.embedded_instruction {last : Stmt} (hlast : b[p + piece.length]? = some last) :
    Does setup 1 b p (full setup (ofList piece) 0 >>= fun _ =>
      step setup (fullRun setup) b (p + piece.length) last) := by
  have hpiece : Does setup 0 b p
      (full setup (ofList piece) 0 >>= fun _ => pure (p + piece.length)) :=
    Does.embedded h (Nat.zero_le _)
  have hboth : Does setup (0 + 1) b p
      ((full setup (ofList piece) 0 >>= fun _ => pure (p + piece.length)) >>= fun next =>
        step setup (fullRun setup) b next last) := by
    refine hpiece.bind fun s next s' hnext => ?_
    cases hs : full setup (ofList piece) 0 s with
    | ok u t =>
      rw [bind_of_ok hs] at hnext
      cases hnext
      exact Does.instruction hlast
    | error e t =>
      rw [bind_of_error hs] at hnext
      cases hnext
  simpa only [bind_assoc, pure_bind] using hboth

end

/-- Two pieces that keep their jumps to themselves run one after the other. -/
theorem full_append {a c : List Stmt} (ha : Block.Closed a) (hc : Block.Closed c)
    (hnodup : (Block.placed (a ++ c)).Nodup) :
    full setup (ofList (a ++ c)) 0 =
      full setup (ofList a) 0 >>= fun _ => full setup (ofList c) 0 := by
  have hfirst : Embeds (ofList (a ++ c)) 0 a := by
    have h := Embeds.of_append (a := []) (c := c) ha (by simpa using hnodup)
    simpa using h
  have hsecond : Embeds (ofList (a ++ c)) a.length c := by
    have h := Embeds.of_append (a := a) (c := []) hc (by simpa using hnodup)
    simpa using h
  have h1 : full setup (ofList (a ++ c)) (0 + 0) = _ := (Does.embedded hfirst (Nat.zero_le _)).eq
  have h2 : full setup (ofList (a ++ c)) (a.length + 0) = _ :=
    (Does.embedded hsecond (Nat.zero_le _)).eq
  have hend : full setup (ofList (a ++ c)) (a.length + c.length) = pure () :=
    full_of_none (by simp)
  simp only [bind_assoc, pure_bind, Nat.zero_add, Nat.add_zero] at h1 h2
  rw [h1, h2, hend]
  simp only [bind_pure_unit]

end

end Exec

end TreeCode
