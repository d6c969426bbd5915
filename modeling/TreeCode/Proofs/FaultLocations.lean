/-
# Where faults are

A fault carries the place of the instruction that was running. That place is one field of
the machine, and every instruction of a callee overwrites it, so that it has to be put back
on every way out of a call. `Within` says what a computation inside an instruction does: it
leaves the place as it was, or it stops with a fault that belongs to a callee's instruction,
or with one at the running instruction of a kind that this instruction can cause.

Linear code has no blocks inside its instructions, so that the places of a function are the
positions in its body.
-/

import TreeCode.Proofs.Canonical
import TreeCode.Proofs.Machine.Ends
import TreeCode.Proofs.Machine.Temps

namespace TreeCode

open IR (Chunk Expr Op Stmt)

namespace IR

mutual

/-- An expression and the expressions inside it. -/
def Expr.parts : Expr → List Expr
  | .const n => [.const n]
  | .name l => [.name l]
  | .temp t => [.temp t]
  | .mem a => .mem a :: a.parts
  | .binop op x y => .binop op x y :: (x.parts ++ y.parts)
  | .unop op x => .unop op x :: x.parts
  | .call f args => .call f args :: Expr.partsAll args
  | .eseq s e => .eseq s e :: (s.parts ++ e.parts)

/-- The expressions of a list and those inside them. -/
def Expr.partsAll : List Expr → List Expr
  | [] => []
  | e :: es => e.parts ++ Expr.partsAll es

/-- The expressions inside a statement. -/
def Stmt.parts : Stmt → List Expr
  | .absent => []
  | .exp e => e.parts
  | .move d e => d.parts ++ e.parts
  | .seq ss => Stmt.partsAll ss
  | .cjump c _ _ => c.parts
  | .jump _ => []
  | .label _ => []

/-- The expressions inside the statements of a list. -/
def Stmt.partsAll : List Stmt → List Expr
  | [] => []
  | s :: ss => s.parts ++ Stmt.partsAll ss

end

/-- What an instruction of a function has in it if it causes a fault of a kind. -/
def Stmt.Causes (p : Program) (g : Function) (i : Stmt) : FaultKind → Prop
  | .badAddress => True
  | .divideByZero => ∃ op x y, (op = .div ∨ op = .mod) ∧ Expr.binop op x y ∈ i.parts
  | .stackOverflow => ∃ l args, Expr.call l args ∈ i.parts
  | .unresolvedLabel =>
    (∃ l ∈ Block.targets i, Stmt.label l ∉ g.body.toList) ∨
    (∃ l args, Expr.call l args ∈ i.parts ∧ p.function? l = none ∧
      Builtin.ofName? l.name = none) ∨
    ∃ l, Expr.name l ∈ i.parts ∧ p.address? l = none

end IR

namespace Program

/-- The instruction of a function at a place. -/
def At (p : Program) (l : Location) (g : Function) (i : Stmt) : Prop :=
  g ∈ p.functions ∧ g.frame.label.name = l.function ∧ g.body[l.index]? = some i

/-- A place with an instruction that causes a kind of fault. -/
def Blames (p : Program) (l : Location) (kind : FaultKind) : Prop :=
  ∃ g i, p.At l g i ∧ i.Causes p g kind

/-- A program whose instructions evaluate plain expressions only. -/
def Linear (p : Program) : Prop :=
  ∀ g ∈ p.functions, ∀ i ∈ g.body.toList, i.linear = true

/-- Chunks in canonical form make up a linear program. -/
theorem linear_of_canonicalAll {chunks : List Chunk} {n : Nat} {p : Program}
    (hp : ofChunks (Chunk.canonicalAll chunks n).1 = .ok p) : p.Linear := by
  intro g hg i hi
  obtain ⟨body, m, -, hlist, -⟩ := exists_lift_of_mem_functions hp hg
  rw [hlist] at hi
  exact Stmt.linear_lift body m i hi

end Program

namespace Exec

variable {α β : Type}

/-- An outcome is a value as `Q` says or a fault as `F` says, unless it has another reason. -/
def Gives (Q : α → State → Prop) (F : Fault → State → Prop) :
    EStateM.Result Stop State α → Prop
  | .ok a t => Q a t
  | .error (.fault f) t => F f t
  | .error _ _ => True

namespace Gives

variable {Q Q' : α → State → Prop} {F F' : Fault → State → Prop}

theorem mono {r : EStateM.Result Stop State α} (h : Gives Q F r) (hQ : ∀ a t, Q a t → Q' a t)
    (hF : ∀ f t, F f t → F' f t) : Gives Q' F' r := by
  cases r with
  | ok a t => exact hQ a t h
  | error e t =>
    cases e with
    | fault f => exact hF f t h
    | defect _ | outOfFuel => trivial

theorem bind {x : Exec α} {s : State} {g : α → Exec β} {R : β → State → Prop}
    (hx : Gives Q F (x s)) (hg : ∀ a t, Q a t → Gives R F (g a t)) : Gives R F ((x >>= g) s) := by
  cases h : x s with
  | ok a t =>
    rw [h] at hx
    rw [bind_of_ok h]
    exact hg a t hx
  | error e t =>
    rw [h] at hx
    rw [bind_of_error h]
    cases e with
    | fault f => exact hx
    | defect _ | outOfFuel => trivial

end Gives

/-- The same function is running, at the same instruction. -/
structure SamePlace (s t : State) : Prop where
  location : t.location = s.location
  function : t.activation.function = s.activation.function

theorem SamePlace.refl (s : State) : SamePlace s s :=
  ⟨rfl, rfl⟩

theorem SamePlace.trans {s t u : State} (h : SamePlace s t) (h' : SamePlace t u) :
    SamePlace s u :=
  ⟨h'.location.trans h.location, h'.function.trans h.function⟩

/-- A computation that executes no instruction. It stays in its place, and it faults there
and with a kind in `K` if it faults. -/
def Still (K : FaultKind → Prop) (x : Exec α) : Prop :=
  ∀ s, Gives (fun _ t => SamePlace s t ∧ t.stats.instructions = s.stats.instructions)
    (fun f t => f.location = s.location ∧ t.stats.instructions = s.stats.instructions ∧
      K f.kind) (x s)

namespace Still

variable {K : FaultKind → Prop}

theorem pure (a : α) : Still K (Pure.pure a : Exec α) :=
  fun s => ⟨SamePlace.refl s, rfl⟩

variable {x : Exec α} (t : Temp)

theorem bind {g : α → Exec β} (hx : Still K x) (hg : ∀ a, Still K (g a)) : Still K (x >>= g) := by
  intro s
  apply (hx s).bind
  rintro a t ⟨hplace, hcount⟩
  apply (hg a t).mono
  · rintro b u ⟨hplace', hcount'⟩
    exact ⟨hplace.trans hplace', hcount'.trans hcount⟩
  · rintro f u ⟨hlocation, hcount', hkind⟩
    exact ⟨hlocation.trans hplace.location, hcount'.trans hcount, hkind⟩

theorem fault {c : FaultCause} (h : K c.kind) : Still K (fault c : Exec α) :=
  fun _ => ⟨rfl, rfl, h⟩

theorem defect (d : Defect) : Still K (defect d : Exec α) :=
  fun _ => trivial

theorem get : Still K (MonadState.get : Exec State) :=
  fun _ => ⟨⟨rfl, rfl⟩, rfl⟩

theorem readTemp : Still K (readTemp t) := by
  intro s
  unfold Exec.readTemp
  split <;> exact ⟨SamePlace.refl s, rfl⟩

theorem writeTemp (w : Word) : Still K (writeTemp t w) :=
  fun _ => ⟨⟨rfl, rfl⟩, rfl⟩

/-- Operations execute no instruction. -/
theorem of_basic (h : Basic (fun c => K c.kind) x) : Still K x :=
  Pervasive.basic (C := Still K) {
    pure := pure
    bind := bind
    defect := defect
    fault := fault
    look := fun _ _ => ⟨⟨rfl, rfl⟩, rfl⟩
    put := fun _ _ _ => ⟨⟨rfl, rfl⟩, rfl⟩
    print := fun _ _ => ⟨⟨rfl, rfl⟩, rfl⟩
    countCall := fun _ => ⟨⟨rfl, rfl⟩, rfl⟩ } h

theorem target {b : Block} {l : Label} (h : Stmt.label l ∉ b.toList → K .unresolvedLabel) :
    Still K (target b l) := by
  refine of_basic (.target fun hl => h fun hmem => ?_)
  obtain ⟨i, hi⟩ := List.getElem?_of_mem hmem
  obtain ⟨j, hj⟩ := Block.exists_position? (b := b) (by rw [← Array.getElem?_toList, hi])
  rw [hl] at hj
  cases hj

theorem fill (hK : K .badAddress) (frame : Frame) (base link : Word) (args : List Word) :
    Still K (fill frame base link args) :=
  (of_basic (.store _ _ hK)).bind fun _ =>
    (of_basic (.storeAll (fun _ h => h ▸ hK) _ _)).bind fun _ => get.bind fun _ =>
      of_basic (.store _ _ hK)

theorem keeps (h : Still K x) : Keeps State.location x := by
  intro s a t ht
  have hs := h s
  rw [ht] at hs
  exact hs.1.location

end Still

/-- A computation inside an instruction. It stays in its place; if it faults, then at an
instruction of a callee that causes the fault, or in its place and with a kind in `P`. -/
def Within (p : Program) (P : FaultKind → Prop) (x : Exec α) : Prop :=
  ∀ s, Gives (fun _ t => SamePlace s t)
    (fun f _ => p.Blames f.location f.kind ∨ f.location = s.location ∧ P f.kind) (x s)

/-- A run of the body of a function. It executes nothing, or it ends at an instruction of the
program; if it faults, then at an instruction that causes the fault. -/
def RunsIn (p : Program) (g : Function) (x : Exec Unit) : Prop :=
  ∀ s, s.activation.function = g.frame.label.name →
    Gives (fun _ t => t.activation.function = s.activation.function ∧
        (t.location = s.location ∧ t.stats.instructions = s.stats.instructions ∨
          ∃ g i, p.At t.location g i))
      (fun f _ => p.Blames f.location f.kind) (x s)

section

variable {p : Program} {P : FaultKind → Prop}

variable {x : Exec α} {setup : Setup}

theorem Still.within (h : Still P x) : Within p P x := by
  intro s
  apply (h s).mono
  · rintro a t ⟨hplace, -⟩
    exact hplace
  · rintro f t ⟨hlocation, -, hkind⟩
    exact .inr ⟨hlocation, hkind⟩

theorem Within.of_basic (h : Basic (fun c => P c.kind) x) : Within p P x :=
  (Still.of_basic h).within

theorem Within.bind {g : α → Exec β} (hx : Within p P x) (hg : ∀ a, Within p P (g a))
    : Within p P (x >>= g) := by
  intro s
  apply (hx s).bind
  intro a t hplace
  apply (hg a t).mono
  · exact fun b u hplace' => hplace.trans hplace'
  · intro f u h
    rw [hplace.location] at h
    exact h

/-- A function that is invoked faults before its first instruction, or at an instruction
that causes the fault. -/
theorem invoke_gives (setup : Setup) {run : Block → Exec Unit} {g : Function}
    (hrun : RunsIn p g (run g.body)) (link : Word) (args : List Word) (s : State) :
    Gives (fun _ t => SamePlace s t)
      (fun f t => p.Blames f.location f.kind ∨
        f.location = s.location ∧ t.stats.instructions = s.stats.instructions ∧
          (f.kind = .stackOverflow ∨ f.kind = .badAddress))
      (invoke setup run g link args s) := by
  have hreserve := Still.of_basic (K := fun k => k = .stackOverflow ∨ k = .badAddress)
    (.reserve setup g.frame args.length (.inl rfl) (.inl rfl)) s
  refine Gives.bind (hreserve.mono (fun _ _ h => h) fun _ _ h => .inr h) ?_
  rintro base s₁ ⟨hplace₁, hcount₁⟩
  have hfill := Still.fill (K := fun k => k = .stackOverflow ∨ k = .badAddress) (.inr rfl)
    g.frame base link args s₁
  refine Gives.bind (hfill.mono (fun _ _ h => h) fun f t h => ?_) ?_
  · rw [hplace₁.location, hcount₁] at h
    exact .inr h
  rintro _ s₂ ⟨hplace₂, hcount₂⟩
  have hplace : SamePlace s s₂ := hplace₁.trans hplace₂
  have hcount : s₂.stats.instructions = s.stats.instructions := hcount₂.trans hcount₁
  -- the callee starts where its caller is
  show Gives _ _ ((enter setup g.frame base >>= fun _ => run g.body >>= fun _ =>
    leave g.frame s₂.activation s₂.location) s₂)
  refine Gives.bind (Q := fun _ t => t.activation.function = g.frame.label.name ∧
      t.location = s.location ∧ t.stats.instructions = s.stats.instructions)
    ⟨rfl, hplace.location, hcount⟩ ?_
  rintro _ s₃ ⟨hfunction, hlocation, hcount⟩
  refine Gives.bind ((hrun s₃ hfunction).mono (fun _ _ h => h) fun _ _ h => .inl h) ?_
  rintro _ s₄ ⟨-, hafter⟩
  -- and it fails to return where it is then
  have hload := Still.of_basic (K := fun k => k = .badAddress)
    (.load (s₄.fp + g.frame.linkOffset) rfl) s₄
  show Gives _ _ ((load (s₄.fp + g.frame.linkOffset) >>= fun saved =>
    resume g.frame s₂.activation s₂.location saved) s₄)
  refine Gives.bind (hload.mono (fun _ _ h => h) fun f t h => ?_)
    fun saved s₅ _ => ⟨hplace.location, hplace.function⟩
  obtain ⟨hat, hsame, hkind⟩ := h
  rcases hafter with ⟨hstill, hnone⟩ | ⟨g', i, hplaced⟩
  · exact .inr ⟨hat.trans (hstill.trans hlocation), hsame.trans (hnone.trans hcount), .inr hkind⟩
  · rw [← hat] at hplaced
    rw [hkind]
    exact .inl ⟨g', i, hplaced, trivial⟩

/-- The kinds of fault that evaluating some expressions can cause are in `P`. -/
structure Permits (p : Program) (P : FaultKind → Prop) (parts : List Expr) : Prop where
  address : P .badAddress
  divisor : ∀ op x y, .binop op x y ∈ parts → op = .div ∨ op = .mod → P .divideByZero
  frame : ∀ l args, .call l args ∈ parts → P .stackOverflow
  function : ∀ l args, .call l args ∈ parts → p.function? l = none →
    Builtin.ofName? l.name = none → P .unresolvedLabel
  name : ∀ l, .name l ∈ parts → p.address? l = none → P .unresolvedLabel

theorem Permits.mono {parts parts' : List Expr} (h : Permits p P parts) (hsub : parts' ⊆ parts) :
    Permits p P parts' where
  address := h.address
  divisor op x y hmem := h.divisor op x y (hsub hmem)
  frame l args hmem := h.frame l args (hsub hmem)
  function l args hmem := h.function l args (hsub hmem)
  name l hmem := h.name l (hsub hmem)

/-- An instruction causes what its expressions can cause. -/
theorem permits_causes (p : Program) (g : Function) (i : Stmt) :
    Permits p (i.Causes p g) i.parts where
  address := trivial
  divisor op x y hmem hop := ⟨op, x, y, hop, hmem⟩
  frame l args hmem := ⟨l, args, hmem⟩
  function l args hmem hl hb := .inr (.inl ⟨l, args, hmem, hl, hb⟩)
  name l hmem hl := .inr (.inr ⟨l, hmem, hl⟩)

section Instruction

variable {setup : Setup} {run : Block → Exec Unit}

/-- The functions of a program run in their places. -/
def RunsAll (setup : Setup) (run : Block → Exec Unit) : Prop :=
  ∀ g ∈ setup.program.functions, RunsIn setup.program g (run g.body)

variable (hrun : RunsAll setup run)
include hrun

theorem call_within {l : Label} {params : List Expr} (args : List Word)
    (h : Permits setup.program P [.call l params]) :
    Within setup.program P (call setup run l args) := by
  unfold Exec.call
  cases hl : setup.program.function? l with
  | some g =>
    cases args with
    | nil => exact .of_basic (.defect _)
    | cons hops args =>
      apply (Still.get).within.bind
      intro s
      apply (Within.of_basic (.followLinks (fun _ hk => hk ▸ h.address) _ _)).bind
      intro link s
      have hg : g ∈ setup.program.functions := List.mem_of_find?_eq_some hl
      apply (invoke_gives setup (hrun g hg) link args s).mono
      · exact fun _ _ hplace => hplace
      · rintro f t (hblamed | ⟨hat, -, hkind⟩)
        · exact .inl hblamed
        · refine .inr ⟨hat, ?_⟩
          rcases hkind with hkind | hkind
          · rw [hkind]
            exact h.frame l params List.mem_cons_self
          · rw [hkind]
            exact h.address
  | none =>
    cases hb : Builtin.ofName? l.name with
    | none => exact .of_basic (.fault (h.function l params List.mem_cons_self hl hb))
    | some b =>
      apply (Within.of_basic .countCall).bind
      intro _
      cases args with
      | nil => exact .of_basic (.defect _)
      | cons _ args => exact .of_basic (.builtin (fun _ hk => hk ▸ h.address) _ _)

-- only calls need `hrun` themselves
set_option linter.unusedSectionVars false in
mutual

/-- Evaluating a plain expression stays at the instruction and causes what it can. -/
theorem eval_within : ∀ {e : Expr}, e.plain = true →
    Permits setup.program P e.parts → Within setup.program P (eval setup run e)
  | .const _, _, _ => .of_basic (.pure _)
  | .name l, _, h => by
    unfold Exec.eval
    cases hl : setup.program.address? l with
    | some _ => exact .of_basic (.pure _)
    | none => exact .of_basic (.fault (h.name l List.mem_cons_self hl))
  | .temp _, _, _ => (Still.readTemp _).within
  | .mem a, hplain, h =>
    (eval_within (e := a) hplain (h.mono (List.subset_cons_self _ _))).bind fun _ =>
      .of_basic (.load _ h.address)
  | .binop op x y, hplain, h => by
    obtain ⟨hx, hy⟩ := Bool.and_eq_true_iff.1 hplain
    have hparts := h.mono (List.subset_cons_self _ _)
    apply (eval_within hx (hparts.mono (List.subset_append_left _ _))).bind
    intro v
    apply (eval_within hy (hparts.mono (List.subset_append_right _ _))).bind
    intro w
    exact .of_basic (.binary (h.divisor op x y List.mem_cons_self) w)
  | .unop _ x, hplain, h =>
    (eval_within (e := x) hplain (h.mono (List.subset_cons_self _ _))).bind fun _ =>
      .of_basic (.unary _ _)
  | .call l args, hplain, h => by
    have hargs : Expr.plainAll args = true := hplain
    apply (evalAll_within hargs (h.mono (List.subset_cons_self _ _))).bind
    intro vs
    exact call_within hrun vs (h.mono (List.cons_subset_cons _ (List.nil_subset _)))
  | .eseq _ _, hplain, _ => by cases hplain

theorem evalAll_within : ∀ {es : List Expr}, Expr.plainAll es = true →
    Permits setup.program P (Expr.partsAll es) → Within setup.program P (evalAll setup run es)
  | [], _, _ => .of_basic (.pure _)
  | e :: es, hplain, h => by
    obtain ⟨he, hes⟩ := Bool.and_eq_true_iff.1 hplain
    apply (eval_within he (h.mono (List.subset_append_left _ _))).bind
    intro v
    apply (evalAll_within hes (h.mono (List.subset_append_right _ _))).bind
    intro vs
    exact .of_basic (.pure _)

end

theorem move_within {d e : Expr} (hlinear : (Stmt.move d e).linear = true)
    (h : Permits setup.program P (Stmt.move d e).parts) :
    Within setup.program P (move setup run d e) := by
  have hsource := h.mono (List.subset_append_right _ _)
  cases d with
  | temp t =>
    unfold Exec.move
    dsimp only
    split
    · exact .of_basic (.defect _)
    · exact (eval_within hrun hlinear hsource).bind fun _ => (Still.writeTemp _ _).within
  | mem a =>
    obtain ⟨ha, he⟩ := Bool.and_eq_true_iff.1 hlinear
    have htarget : Permits setup.program P a.parts :=
      (h.mono (List.subset_append_left _ _)).mono (List.subset_cons_self _ _)
    exact (eval_within hrun ha htarget).bind fun _ => (eval_within hrun he hsource).bind fun _ =>
      .of_basic (.store _ _ h.address)
  | _ => exact .of_basic (.defect _)

/-- An instruction of a function stays in its place and causes what it can. -/
theorem step_within (g : Function) (pc : Nat) {i : Stmt} (hlinear : i.linear = true) :
    Within setup.program (i.Causes setup.program g) (step setup run g.body pc i) := by
  have h := permits_causes setup.program g i
  have htarget : ∀ l ∈ Block.targets i,
      Still (i.Causes setup.program g) (Exec.target g.body l) :=
    fun l hl => .target fun hnone => .inl ⟨l, hl, hnone⟩
  cases i with
  | label _ => exact .of_basic (.pure _)
  | jump l => exact (htarget l List.mem_cons_self).within
  | cjump c t f =>
    apply (eval_within hrun hlinear h).bind
    intro v
    apply Still.within
    by_cases hv : v = 0
    · rw [if_pos hv]
      exact htarget f (by simp [Block.targets])
    · rw [if_neg hv]
      exact htarget t (by simp [Block.targets])
  | move d e => exact (move_within hrun hlinear h).bind fun _ => .of_basic (.pure _)
  | exp e => exact (eval_within hrun hlinear h).bind fun _ => .of_basic (.pure _)
  | seq _ | absent => exact .of_basic (.defect _)

end Instruction

/-- The bodies of a linear program run in their places, whatever position they start from. -/
theorem block_runsIn (hlinear : setup.program.Linear) (fuel : Nat) :
    ∀ g ∈ setup.program.functions, ∀ pc,
      RunsIn setup.program g (block setup fuel g.body pc) := by
  induction fuel with
  | zero => exact fun g hg pc s hs => trivial
  | succ fuel ih =>
    intro g hg pc s hs
    unfold Exec.block
    cases hi : g.body[pc]? with
    | none => exact ⟨rfl, .inl ⟨rfl, rfl⟩⟩
    | some i =>
      have hplain : i.linear = true :=
        hlinear g hg i (List.mem_of_getElem? (Array.getElem?_toList.symm ▸ hi))
      apply Gives.bind (Q := fun _ t => t.activation.function = s.activation.function ∧
        t.location = ⟨g.frame.label.name, pc⟩)
      · unfold Exec.start
        dsimp only
        split <;> exact ⟨rfl, congrArg (Location.mk · pc) hs⟩
      rintro _ s₁ ⟨hfunction, hlocation⟩
      have hat : setup.program.At s₁.location g i := by
        rw [hlocation]
        exact ⟨hg, rfl, hi⟩
      have hrun : RunsAll setup (fun inner => block setup fuel inner 0) :=
        fun g hg => ih g hg 0
      apply Gives.bind (((step_within hrun g pc hplain) s₁).mono (fun _ _ h => h) ?_)
      · intro next s₂ hplace
        have hfunction₂ := hplace.function.trans hfunction
        apply (ih g hg next s₂ (hfunction₂.trans hs)).mono
        · rintro _ t ⟨hfunction₃, hend⟩
          refine ⟨hfunction₃.trans hfunction₂, .inr ?_⟩
          -- what follows executes nothing, or it ends at an instruction of its own
          rcases hend with ⟨hstay, -⟩ | hlater
          · rw [hstay, hplace.location]
            exact ⟨g, i, hat⟩
          · exact hlater
        · exact fun _ _ h => h
      · rintro f t (hblamed | ⟨hhere, hkind⟩)
        · exact hblamed
        · rw [hhere]
          exact ⟨g, i, hat, hkind⟩

/-- Once a run of a linear program has executed an instruction, its faults are at
instructions that cause them. -/
theorem enter_gives (hlinear : setup.program.Linear) (fuel : Nat) (name : String) (arg : Word)
    (s : State) :
    Gives (fun _ _ => True)
      (fun f t => t.stats.instructions = s.stats.instructions ∨
        setup.program.Blames f.location f.kind)
      (Machine.enter setup fuel name arg s) := by
  unfold Machine.enter
  cases hf : setup.program.lookup? name with
  | none => exact .inl rfl
  | some g =>
    have hg : g ∈ setup.program.functions := List.mem_of_find?_eq_some hf
    have hrun := block_runsIn hlinear fuel g hg 0
    apply (invoke_gives setup hrun 0 [arg] s).mono
    · exact fun _ _ _ => trivial
    · rintro f t (hblamed | ⟨-, hcount, -⟩)
      · exact .inr hblamed
      · exact .inl hcount

end

section Restore

variable (setup : Setup) (run : Block → Exec Unit)

/-- A call that returns puts the place of its caller back, whatever the callee does. -/
theorem keeps_location_invoke (g : Function) (link : Word) (args : List Word) :
    Keeps State.location (invoke setup run g link args) := by
  intro s w s' h
  obtain ⟨base, s₁, hreserve, h⟩ := bind_eq_ok h
  obtain ⟨_, s₂, hfill, h⟩ := bind_eq_ok h
  obtain ⟨_, s₃, henter, h⟩ := bind_eq_ok (x := enter setup g.frame base)
    (f := fun _ => run g.body >>= fun _ => leave g.frame s₂.activation s₂.location) h
  obtain ⟨_, s₄, hrun, h⟩ := bind_eq_ok h
  obtain ⟨saved, s₅, hload, h⟩ := bind_eq_ok (x := load (s₄.fp + g.frame.linkOffset))
    (f := fun saved => resume g.frame s₂.activation s₂.location saved) h
  have hreturn : s'.location = s₂.location := by
    cases h
    rfl
  have hreserve : s₁.location = s.location := Keeps.reserve _ _ _ s _ s₁ hreserve
  have hfill : s₂.location = s₁.location :=
    (Still.fill (K := fun _ => True) trivial _ _ _ _).keeps s₁ _ s₂ hfill
  rw [hreturn, hfill, hreserve]

theorem keeps_location_call (l : Label) (args : List Word) :
    Keeps State.location (call setup run l args) := by
  cases hl : setup.program.function? l with
  | some g =>
    rw [Exec.call, hl]
    cases args with
    | nil => exact .defect _
    | cons hops args =>
      exact Keeps.get.bind fun _ => (Keeps.followLinks _ _).bind fun _ =>
        keeps_location_invoke setup run g _ _
  | none =>
    have hcount := (Still.of_basic (K := fun _ => True) .countCall).keeps
    have hprint := fun bytes => (Still.of_basic (K := fun _ => True) (.print bytes)).keeps
    exact .provided hl hcount hprint run args

mutual

/-- An evaluation that yields a value leaves the machine at the instruction where it was. -/
theorem keeps_location_eval : ∀ e : Expr, Keeps State.location (eval setup run e)
  | .const _ => .pure _
  | .name l => by
    unfold Exec.eval
    cases setup.program.address? l with
    | some _ => exact .pure _
    | none => exact .fault _
  | .temp _ => .readTemp _
  | .mem a => (keeps_location_eval a).bind fun _ => .load _
  | .binop _ x y =>
    (keeps_location_eval x).bind fun _ => (keeps_location_eval y).bind fun _ => .binary _ _ _
  | .unop _ x => (keeps_location_eval x).bind fun _ => .unary _ _
  | .call _ args => (keeps_location_evalAll args).bind fun _ => keeps_location_call setup run _ _
  | .eseq st e => by
    intro s v s' h
    obtain ⟨_, _, hlocation, h⟩ := bind_eq_ok h
    cases hlocation
    obtain ⟨_, s₁, hrun, h⟩ := bind_eq_ok h
    obtain ⟨_, s₂, hset, h⟩ := bind_eq_ok h
    cases hset
    rw [keeps_location_eval e _ v s' h]

theorem keeps_location_evalAll : ∀ es : List Expr, Keeps State.location (evalAll setup run es)
  | [] => .pure _
  | e :: es =>
    (keeps_location_eval e).bind fun _ => (keeps_location_evalAll es).bind fun _ => .pure _

end

end Restore

end Exec

/-- Faults are where they are caused. Once a run of a linear program has started its first
instruction, a fault carries the name of a function of the program and the position of an
instruction in its body, and that instruction has in it what the kind of the fault needs.
Chunks in canonical form are linear, and evaluating any expression of any program, whatever
it calls, leaves the place of the running instruction as it was. -/
theorem Machine.fault_located {chunks : List Chunk} {p : Program}
    (hp : Program.ofChunks chunks = .ok p) :
    (∀ trees n, chunks = (Chunk.canonicalAll trees n).1 → p.Linear) ∧
    (p.Linear → ∀ o m, Machine.new p o = .ok m → ∀ fuel name arg f m',
      m.run fuel name arg = (.error (.stopped (.fault f)), m') →
      0 < m'.state.stats.instructions →
      ∃ g i, p.lookup? f.location.function = some g ∧ g.frame.label.name = f.location.function ∧
        f.location.index < g.body.size ∧ g.body[f.location.index]? = some i ∧
        i.Causes p g f.kind) ∧
    ∀ setup run e s v s', Exec.eval setup run e s = .ok v s' → s'.location = s.location := by
  refine ⟨?_, ?_, fun setup run e => Exec.keeps_location_eval setup run e⟩
  · rintro trees n rfl
    exact Program.linear_of_canonicalAll hp
  · intro hlinear o m hm fuel name arg f m' hrun hcount
    obtain ⟨hsetup, hstarted⟩ := Machine.new_eq_ok hm
    obtain ⟨memory, hstate⟩ := Machine.state_of_new hm
    have hprogram : m.setup.program = p := by rw [hsetup]; rfl
    rw [Machine.run_eq_outcome hstarted] at hrun
    have hzero : m.startState.stats.instructions = 0 := by
      rw [Machine.startState, hstate]
      rfl
    have hgives := Exec.enter_gives (hprogram.symm ▸ hlinear) fuel name arg m.startState
    rw [hzero, hprogram] at hgives
    cases henter : Machine.enter m.setup fuel name arg m.startState with
    | ok v t =>
      rw [henter] at hrun
      cases hrun
    | error stop t =>
      rw [henter] at hrun hgives
      cases hrun
      rcases hgives with hnone | ⟨g, i, ⟨hg, hname, hi⟩, hcauses⟩
      · exact absurd hnone (Nat.ne_of_gt hcount)
      · have hlookup : p.lookup? g.frame.label.name = some g :=
          find?_of_nodup (Program.functions_nodup hp) hg
        rw [hname] at hlookup
        obtain ⟨hindex, -⟩ := Array.getElem?_eq_some_iff.1 hi
        exact ⟨g, i, hlookup, hname, hindex, hi, hcauses⟩

/-- The fault that ends a run, with the machine after it. -/
def Machine.faulted? : Except RunError Word × Machine → Option (Fault × Machine)
  | (.error (.stopped (.fault f)), m) => some (f, m)
  | _ => none

theorem Machine.faulted?_eq_some {r : Except RunError Word × Machine} {f : Fault} {m : Machine}
    (h : faulted? r = some (f, m)) : r = (.error (.stopped (.fault f)), m) := by
  unfold faulted? at h
  split at h
  · cases h
    rfl
  · cases h

namespace Program

/-- The second instruction of `f` divides by zero after a call of `g`, which executes three
instructions. -/
def crash : List Chunk :=
  [.code ⟨.ofName "f", 1, [8], 24, 16⟩ (.seq [
      .label (.ofName "L0"),
      .exp (.binop .div (.call (.ofName "g") [.const 0, .const 5]) (.const 0)),
      .jump (.ofName "L0")]),
    .code ⟨.ofName "g", 1, [8], 24, 16⟩ (.seq [
      .jump (.ofName "L1"),
      .label (.ofName "L1"),
      .move (.temp Temp.rv) (.mem (.binop .add (.temp Temp.fp) (.const 8)))])]

/-- The fault is at the division and not in the callee. -/
theorem crash_located :
    ∃ p m f m', ofChunks crash = .ok p ∧ p.Linear ∧ Machine.new p ⟨96, 0, false⟩ = .ok m ∧
      m.run 20 "f" 0 = (.error (.stopped (.fault f)), m') ∧
      m'.state.stats.instructions = 5 ∧ f.kind = .divideByZero ∧ f.location = ⟨"f", 1⟩ ∧
      ∃ g i, p.lookup? "f" = some g ∧ g.body[1]? = some i ∧ i.Causes p g .divideByZero := by
  have hrun : ((ofChunks crash).toOption.bind fun p =>
      (Machine.new p ⟨96, 0, false⟩).toOption.bind fun m =>
        (Machine.faulted? (m.run 20 "f" 0)).map fun (f, m') =>
          decide ((∀ g ∈ p.functions, ∀ i ∈ g.body.toList, i.linear = true) ∧
            m'.state.stats.instructions = 5 ∧ f.kind = .divideByZero ∧
            f.location = ⟨"f", 1⟩)) = some true := by
    decide +kernel
  obtain ⟨p, hp, hrun⟩ := Outcome.of_toOption_bind hrun
  obtain ⟨m, hm, hrun⟩ := Outcome.of_toOption_bind hrun
  obtain ⟨⟨f, m'⟩, hfault, hrun⟩ := Option.map_eq_some_iff.1 hrun
  obtain ⟨hlinear, hcount, hkind, hlocation⟩ := of_decide_eq_true hrun
  have hfault := Machine.faulted?_eq_some hfault
  obtain ⟨-, hlocated, -⟩ := Machine.fault_located hp
  obtain ⟨g, i, hg, -, -, hi, hcauses⟩ :=
    hlocated hlinear _ m hm 20 "f" 0 f m' hfault (by rw [hcount]; decide)
  rw [hlocation] at hg hi
  rw [hkind] at hcauses
  exact ⟨p, m, f, m', hp, hlinear, hm, hfault, hcount, hkind, hlocation, g, i, hg, hi, hcauses⟩

end Program

end TreeCode
