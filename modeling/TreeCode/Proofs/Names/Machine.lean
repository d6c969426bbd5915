/-
# Runs of programs that are alike

Two programs whose chunks are alike run in step: every instruction of one does what the
corresponding instruction of the other does, so memory, registers, output and all counters
agree at every moment. What differs is the text of locations, of traces and of messages.

Labels are looked up in three tables, for code, for data and for jumps. Labels that were
drawn in pairs lead to corresponding entries. A label without code may still be the name of
a built-in function; whether it is has to be the same on both sides, and is a condition here.
-/

import TreeCode.Machine.Run
import TreeCode.Proofs.Machine.Limit
import TreeCode.Proofs.Names.Layout

namespace TreeCode

open IR (Chunk Expr Stmt)

/-- States that agree on everything but the text of locations and traces. -/
structure State.Alike (s t : State) : Prop where
  memory : t.memory = s.memory
  fp : t.fp = s.fp
  sp : t.sp = s.sp
  depth : t.depth = s.depth
  status : t.status = s.status
  started : t.started = s.started
  stats : t.stats = s.stats
  temps : t.activation.temps = s.activation.temps
  output : t.output = s.output

/-- A defect without the name of the function it names. -/
def Defect.unnamed : Defect → Defect
  | argumentCount _ expected actual => argumentCount "" expected actual
  | d => d

/-- Early ends for the same reason: faults of one kind with the same registers, the same
defect, or no fuel. -/
inductive Stop.Alike : Stop → Stop → Prop
  | fault {f g : Fault} : g.kind = f.kind → g.fp = f.fp → g.sp = f.sp → Alike (.fault f) (.fault g)
  | defect {d e : Defect} : e.unnamed = d.unnamed → Alike (.defect d) (.defect e)
  | outOfFuel : Alike .outOfFuel .outOfFuel

namespace Exec

variable {α β γ δ : Type}

/-- Outcomes in step: values as `Q` says, or early ends for the same reason. -/
inductive InStep (Q : α → β → Prop) :
    EStateM.Result Stop State α → EStateM.Result Stop State β → Prop
  | ok {a b s t} : Q a b → s.Alike t → InStep Q (.ok a s) (.ok b t)
  | error {e e' s t} : e.Alike e' → s.Alike t → InStep Q (.error e s) (.error e' t)

/-- Computations that keep in step, with values as `Q` says. -/
def Together (Q : α → β → Prop) (x : Exec α) (y : Exec β) : Prop :=
  ∀ s t, s.Alike t → InStep Q (x s) (y t)

namespace Together

variable {Q : α → β → Prop} (u : Temp) (value : Word)

theorem pure {a : α} {b : β} (h : Q a b) : Together Q (Pure.pure a) (Pure.pure b) :=
  fun _ _ hst => .ok h hst

theorem bind {R : γ → δ → Prop} {x : Exec α} {y : Exec β} {f : α → Exec γ} {g : β → Exec δ}
    (hx : Together Q x y) (hf : ∀ a b, Q a b → Together R (f a) (g b)) :
    Together R (x >>= f) (y >>= g) := by
  intro s t hst
  have hends := hx s t hst
  cases hxs : x s <;> cases hyt : y t <;> rw [hxs, hyt] at hends <;> cases hends
  next hab hst' =>
    rw [bind_of_ok hxs, bind_of_ok hyt]
    exact hf _ _ hab _ _ hst'
  next he hst' =>
    rw [bind_of_error hxs, bind_of_error hyt]
    exact .error he hst'

theorem bind_eq {R : γ → δ → Prop} {x y : Exec α} {f : α → Exec γ} {g : α → Exec δ}
    (hx : Together Eq x y) (hf : ∀ a, Together R (f a) (g a)) : Together R (x >>= f) (y >>= g) :=
  hx.bind fun a _ hab => hab ▸ hf a

theorem fault {c d : FaultCause} (h : d.kind = c.kind) : Together Q (fault c) (fault d) :=
  fun _ _ hst => .error (.fault h hst.fp hst.sp) { hst with status := rfl }

theorem defect {d e : Defect} (h : e.unnamed = d.unnamed) : Together Q (defect d) (defect e) :=
  fun _ _ hst => .error (.defect h) hst

theorem get : Together State.Alike (MonadState.get : Exec State) MonadState.get :=
  fun _ _ hst => .ok hst hst

/-- Operations do not look at what differs. -/
theorem of_plain {x : Exec α} (h : Plain x) : Together Eq x x :=
  Pervasive.basic (C := fun x => Together Eq x x) {
    pure := fun _ => pure rfl
    bind := bind_eq
    defect := fun _ => defect rfl
    fault := fun _ => fault rfl
    look := fun _ _ _ hst => .ok (by rw [hst.memory, hst.sp, hst.depth]) hst
    put := fun _ _ _ _ hst => .ok rfl { hst with memory := by rw [hst.memory] }
    print := fun _ _ _ hst => .ok rfl { hst with output := by rw [hst.output] }
    countCall := fun _ _ hst => .ok rfl { hst with stats := by rw [hst.stats] } } h

theorem readTemp : Together Eq (readTemp u) (readTemp u) := by
  intro s t hst
  unfold Exec.readTemp
  rw [hst.fp, hst.temps]
  split
  · exact .ok rfl hst
  · exact .ok rfl hst

theorem writeTemp : Together Eq (writeTemp u value) (writeTemp u value) :=
  fun _ _ hst => .ok rfl { hst with temps := congrArg (·.set u value) hst.temps }

theorem location : Together (fun _ _ => True) location location :=
  fun _ _ hst => .ok trivial hst

theorem setLocation (l m : Location) : Together Eq (setLocation l) (setLocation m) :=
  fun _ _ hst => .ok rfl { hst with }

end Together

end Exec

/-- Blocks that are alike. -/
def Block.Alike (D : Draws) (b c : Block) : Prop :=
  Stmt.AlikeAll D b.toList c.toList

/-- Functions that are alike. -/
structure Function.Alike (D : Draws) (f g : Function) : Prop where
  frame : f.frame.Alike D g.frame
  body : f.body.Alike D g.body

/-- Data at the same place, under labels drawn at the same moment. -/
structure DataItem.Alike (D : Draws) (d e : DataItem) : Prop where
  label : ⟨.data, d.label, e.label⟩ ∈ D
  offset : e.offset = d.offset
  size : e.size = d.size
  init : e.init = d.init

/-- Programs that are alike. -/
structure Program.Alike (D : Draws) (p q : Program) : Prop where
  distinct : D.Distinct
  functions : List.Forall₂ (Function.Alike D) p.functions q.functions
  data : List.Forall₂ (DataItem.Alike D) p.data q.data
  dataSize : q.dataSize = p.dataSize
  builtin : ∀ l m, ⟨.code, l, m⟩ ∈ D → p.function? l = none →
    Builtin.ofName? m.name = Builtin.ofName? l.name

variable {D : Draws}

namespace Program

variable {cs ds : List Chunk}

section

variable (h : List.Forall₂ (Chunk.Alike D) cs ds)
include h

theorem alike_functionsOf : List.Forall₂ (Function.Alike D) (functionsOf cs) (functionsOf ds) := by
  induction h with
  | nil => exact .nil
  | cons hcd _ ih =>
    cases hcd with
    | code hf hs => exact .cons ⟨hf, hs.flatten⟩ ih
    | data _ => exact ih

theorem alike_dataFrom :
    ∀ offset, List.Forall₂ (DataItem.Alike D) (dataFrom offset cs) (dataFrom offset ds) := by
  induction h with
  | nil => exact fun _ => .nil
  | cons hcd _ ih =>
    intro offset
    cases hcd with
    | code _ _ => exact ih offset
    | data hl => exact .cons ⟨hl, rfl, rfl, rfl⟩ (ih _)

theorem dataSizeOf_alike : dataSizeOf ds = dataSizeOf cs := by
  induction h with
  | nil => rfl
  | cons hcd _ ih =>
    cases hcd with
    | code _ _ => exact ih
    | data _ => rw [dataSizeOf, dataSizeOf, ih]

end

namespace Alike

variable {p q : Program} (h : p.Alike D q)

include h

/-- A call finds code on both sides or on neither. -/
theorem function? {l m : Label} (hlm : ⟨.code, l, m⟩ ∈ D) :
    Option.Rel (Function.Alike D) (p.function? l) (q.function? m) :=
  forall₂_find? h.functions fun _ _ hfg => h.distinct.beq_eq hfg.frame.label hlm

/-- The data of a name is at the same address. -/
theorem address? {l m : Label} (hlm : ⟨.data, l, m⟩ ∈ D) : q.address? m = p.address? l := by
  have hitem : Option.Rel (DataItem.Alike D) (p.data.find? fun d => d.label == l)
      (q.data.find? fun d => d.label == m) :=
    forall₂_find? h.data fun _ _ hde => h.distinct.beq_eq hde.label hlm
  unfold Program.address?
  generalize (p.data.find? fun d => d.label == l) = a at hitem ⊢
  generalize (q.data.find? fun d => d.label == m) = b at hitem ⊢
  cases hitem with
  | some hde => exact congrArg some hde.offset
  | none => rfl

/-- The initial memory is the same. -/
theorem image? : q.image? = p.image? := by
  have hfits : q.data.all (·.fits p.dataSize) = p.data.all (·.fits p.dataSize) := by
    have hdata := h.data
    generalize p.data = ds at hdata
    generalize q.data = es at hdata
    induction hdata with
    | nil => rfl
    | cons hde _ ih =>
      rw [List.all_cons, List.all_cons, ih, DataItem.fits, DataItem.fits, hde.offset, hde.size]
  have hbytes : ∀ image : Array UInt8,
      q.data.foldl (fun image d =>
        writeBytes image d.offset.toInt.toNat (d.init.take d.size.toInt.toNat)) image =
      p.data.foldl (fun image d =>
        writeBytes image d.offset.toInt.toNat (d.init.take d.size.toInt.toNat)) image := by
    have hdata := h.data
    generalize p.data = ds at hdata
    generalize q.data = es at hdata
    induction hdata with
    | nil => exact fun _ => rfl
    | cons hde _ ih =>
      intro image
      rw [List.foldl_cons, List.foldl_cons, hde.offset, hde.size, hde.init]
      exact ih _
  rw [Program.image?, Program.image?, h.dataSize, hfits, hbytes]

end Alike

end Program

theorem Block.alike_ofStmt {s t : Stmt} (h : s.Alike D t) :
    (Block.ofStmt s).Alike D (.ofStmt t) :=
  h.flatten

/-- Labels are at the same places of blocks that are alike. -/
theorem Block.Alike.position? {b b' : Block} (h : b.Alike D b') (hdistinct : D.Distinct)
    {l m : Label} (hlm : ⟨.jump, l, m⟩ ∈ D) : b'.position? m = b.position? l := by
  have hplaces : ∀ i : Nat, (b'[i]?).any (places m) = (b[i]?).any (places l) := by
    intro i
    have hstmt := Stmt.AlikeAll.getElem? h i
    rw [Array.getElem?_toList, Array.getElem?_toList] at hstmt
    rcases hstmt with ⟨hb, hb'⟩ | ⟨s, t, hb, hb', hst⟩
    · rw [hb, hb']
      rfl
    · rw [hb, hb', Option.any_some, Option.any_some]
      cases s with
      | label k =>
        obtain ⟨k', rfl, hk⟩ := hst
        exact hdistinct.beq_eq hlm hk
      | absent =>
        cases hst
        rfl
      | exp _ | seq _ | jump _ =>
        obtain ⟨_, rfl, -⟩ := hst
        rfl
      | move _ _ =>
        obtain ⟨_, _, rfl, -⟩ := hst
        rfl
      | cjump _ _ _ =>
        obtain ⟨_, _, _, rfl, -⟩ := hst
        rfl
  have hsearch : ∀ i : Nat, Block.position?.search b' m i = Block.position?.search b l i := by
    intro i
    induction i with
    | zero => rfl
    | succ i ih => rw [Block.position?.search, Block.position?.search, hplaces, ih]
  have hsize : b'.size = b.size := Stmt.AlikeAll.length_eq h
  rw [Block.position?, Block.position?, hsize]
  exact hsearch _

/-- Setups with the same limits and programs that are alike. -/
structure Setup.InStep (D : Draws) (setup setup' : Setup) : Prop where
  memorySize : setup'.memorySize = setup.memorySize
  maxDepth : setup'.maxDepth = setup.maxDepth
  program : setup.program.Alike D setup'.program

namespace Exec

section

variable {setup setup' : Setup} (h : setup.InStep D setup') {run run' : Block → Exec Unit}
  (hrun : ∀ b c, b.Alike D c → Together Eq (run b) (run' c))

include h

theorem Together.reserve {f g : Frame} (hfg : f.Alike D g) (count : Nat) :
    Together Eq (reserve setup f count) (reserve setup' g count) := by
  intro s t hst
  unfold Exec.reserve
  rw [h.maxDepth, h.program.dataSize, hfg.size, hfg.params, hst.depth, hst.sp]
  dsimp only
  split
  · exact .error (.fault rfl hst.fp hst.sp) { hst with status := rfl }
  split
  · exact .error (.fault rfl hst.fp hst.sp) { hst with status := rfl }
  split
  · exact .error (.defect rfl) hst
  · exact .ok rfl hst

theorem Together.enter (f g : Frame) (base : Word) :
    Together Eq (enter setup f base) (enter setup' g base) := by
  intro s t hst
  refine .ok rfl { hst with
    fp := rfl, sp := rfl, depth := congrArg (· + 1) hst.depth, stats := ?_, temps := rfl }
  simp only [hst.stats, hst.depth, h.memorySize]

omit h in
theorem Together.fill {f g : Frame} (hfg : f.Alike D g) (base link : Word) (args : List Word) :
    Together Eq (fill f base link args) (fill g base link args) := by
  unfold Exec.fill
  rw [hfg.params, hfg.linkOffset]
  refine (Together.of_plain (.store _ _)).bind_eq fun _ =>
    (Together.of_plain (.storeAll _ _)).bind_eq fun _ => Together.get.bind fun s t hst => ?_
  rw [hst.fp]
  exact .of_plain (.store _ _)

omit h in
theorem Together.leave {f g : Frame} (hfg : f.Alike D g) {caller caller' : Activation}
    (hcaller : caller'.temps = caller.temps) (l m : Location) :
    Together Eq (leave f caller l) (leave g caller' m) := by
  unfold Exec.leave
  refine Together.get.bind fun s t hst => ?_
  rw [hst.fp, hfg.linkOffset]
  refine (Together.of_plain (.load _)).bind_eq fun saved s t hst => ?_
  refine .ok ?_ { hst with fp := rfl, sp := ?_, depth := ?_, temps := hcaller }
  · rw [hst.temps]
  · simp only [hst.fp, hfg.size]
  · simp only [hst.depth]

include hrun

theorem Together.invoke {f g : Function} (hfg : f.Alike D g) (link : Word) (args : List Word) :
    Together Eq (invoke setup run f link args) (invoke setup' run' g link args) := by
  unfold Exec.invoke
  exact (Together.reserve h hfg.frame _).bind_eq fun base =>
    (Together.fill hfg.frame _ _ _).bind_eq fun _ => Together.get.bind fun s t hst =>
      Together.get.bind fun s' t' _ => (Together.enter h _ _ _).bind_eq fun _ =>
        (hrun _ _ hfg.body).bind_eq fun _ => .leave hfg.frame hst.temps _ _

/-- A call leads to corresponding code, or to the same built-in function. -/
theorem Together.call {l m : Label} (hlm : ⟨.code, l, m⟩ ∈ D) (args : List Word) :
    Together Eq (call setup run l args) (call setup' run' m args) := by
  have hfunction := h.program.function? hlm
  unfold Exec.call
  cases hf : setup.program.function? l <;> cases hg : setup'.program.function? m <;>
    rw [hf, hg] at hfunction <;> cases hfunction
  · dsimp only
    rw [h.program.builtin l m hlm hf]
    cases Builtin.ofName? l.name with
    | none => exact .fault rfl
    | some b =>
      refine (Together.of_plain .countCall).bind_eq fun _ => ?_
      cases args with
      | nil => exact .defect rfl
      | cons _ args => exact .of_plain (.builtin b args)
  next f g hfg =>
    cases args with
    | nil => exact .defect rfl
    | cons hops args =>
      refine Together.get.bind fun s t hst => ?_
      rw [hst.fp]
      exact (Together.of_plain (.followLinks _ _)).bind_eq fun link =>
        Together.invoke h hrun hfg link args

-- lists need `h` through their members only
set_option linter.unusedSectionVars false in
mutual

/-- Expressions that are alike have the same value. -/
theorem Together.eval : ∀ {x y : Expr}, x.Alike D y →
    Together Eq (eval setup run x) (eval setup' run' y)
  | .const _, _, hxy => by
    cases hxy
    exact .pure rfl
  | .name l, _, ⟨m, hxy, hlm⟩ => by
    cases hxy
    rw [Exec.eval, Exec.eval, h.program.address? hlm]
    cases setup.program.address? l with
    | none => exact .fault rfl
    | some addr => exact .pure rfl
  | .temp t, _, hxy => by
    cases hxy
    exact .readTemp t
  | .mem _, _, ⟨_, hxy, ha⟩ => by
    cases hxy
    exact (Together.eval ha).bind_eq fun a => .of_plain (.load a)
  | .binop op _ _, _, ⟨_, _, hxy, hx, hy⟩ => by
    cases hxy
    exact (Together.eval hx).bind_eq fun v => (Together.eval hy).bind_eq fun w =>
      .of_plain (.binary op v w)
  | .unop op _, _, ⟨_, hxy, hx⟩ => by
    cases hxy
    exact (Together.eval hx).bind_eq fun v => .of_plain (.unary op v)
  | .call _ _, _, ⟨_, _, hxy, hlm, hargs⟩ => by
    cases hxy
    exact (Together.evalAll hargs).bind_eq fun vs => .call h hrun hlm vs
  | .eseq _ _, _, ⟨_, _, hxy, hs, hx⟩ => by
    cases hxy
    exact Together.location.bind fun _ _ _ => (hrun _ _ (Block.alike_ofStmt hs)).bind_eq fun _ =>
      (Together.setLocation _ _).bind_eq fun _ => Together.eval hx
termination_by structural x => x

theorem Together.evalAll : ∀ {xs ys : List Expr},
    Expr.AlikeAll D xs ys → Together Eq (evalAll setup run xs) (evalAll setup' run' ys)
  | [], _, hxy => by
    cases hxy
    exact .pure rfl
  | _ :: _, _, ⟨_, _, hxy, hx, hxs⟩ => by
    cases hxy
    exact (Together.eval hx).bind_eq fun v =>
      (Together.evalAll hxs).bind_eq fun vs => .pure rfl
termination_by structural xs => xs

end

theorem Together.move {a a' v v' : Expr} (ha : a.Alike D a') (hv : v.Alike D v') :
    Together Eq (move setup run a v) (move setup' run' a' v') := by
  cases a with
  | temp t =>
    cases ha
    unfold Exec.move
    dsimp only
    split
    · exact .defect rfl
    · exact (Together.eval h hrun hv).bind_eq (Together.writeTemp t)
  | mem a =>
    obtain ⟨b, rfl, hab⟩ := ha
    exact (Together.eval h hrun hab).bind_eq fun addr => (Together.eval h hrun hv).bind_eq fun w =>
      .of_plain (.store addr w)
  | const _ =>
    cases ha
    exact .defect rfl
  | name _ | unop _ _ =>
    obtain ⟨_, rfl, -⟩ := ha
    exact .defect rfl
  | binop _ _ _ | call _ _ | eseq _ _ =>
    obtain ⟨_, _, rfl, -⟩ := ha
    exact .defect rfl

omit hrun in
theorem Together.target {b b' : Block} (hb : b.Alike D b') {l m : Label}
    (hlm : ⟨.jump, l, m⟩ ∈ D) : Together Eq (target b l) (target b' m) := by
  unfold Exec.target
  rw [hb.position? h.program.distinct hlm]
  cases b.position? l with
  | none => exact .fault rfl
  | some pc => exact .pure rfl

theorem Together.step {b b' : Block} (hb : b.Alike D b') (pc : Nat) {s t : Stmt}
    (hst : s.Alike D t) : Together Eq (step setup run b pc s) (step setup' run' b' pc t) := by
  cases s with
  | label _ =>
    obtain ⟨_, rfl, -⟩ := hst
    exact .pure rfl
  | jump _ =>
    obtain ⟨_, rfl, hl⟩ := hst
    exact .target h hb hl
  | cjump c _ _ =>
    obtain ⟨_, _, _, rfl, hc, hl, hm⟩ := hst
    refine (Together.eval h hrun hc).bind_eq fun v => ?_
    split
    · exact .target h hb hm
    · exact .target h hb hl
  | move _ _ =>
    obtain ⟨_, _, rfl, ha, hv⟩ := hst
    exact (Together.move h hrun ha hv).bind_eq fun _ => .pure rfl
  | exp _ =>
    obtain ⟨_, rfl, he⟩ := hst
    exact (Together.eval h hrun he).bind_eq fun _ => .pure rfl
  | seq _ =>
    obtain ⟨_, rfl, -⟩ := hst
    exact .defect rfl
  | absent =>
    cases hst
    exact .defect rfl

end

theorem Together.start (setup setup' : Setup) (pc : Nat) (a b : Stmt) :
    Together Eq (start setup pc a) (start setup' pc b) := by
  intro s t hst
  have hstats : { t.stats with instructions := t.stats.instructions + 1 } =
      { s.stats with instructions := s.stats.instructions + 1 } := by rw [hst.stats]
  refine .ok rfl ?_
  split <;> split <;> exact { hst with stats := hstats }

/-- Blocks that are alike run in step for any number of steps. -/
theorem Together.block {setup setup' : Setup} (h : setup.InStep D setup') :
    ∀ (fuel : Nat) {b b' : Block}, b.Alike D b' → ∀ pc,
      Together Eq (block setup fuel b pc) (block setup' fuel b' pc)
  | 0, _, _, _, _ => fun _ _ hst => .error .outOfFuel hst
  | fuel + 1, b, b', hb, pc => by
    have hstmt := Stmt.AlikeAll.getElem? hb pc
    rw [Array.getElem?_toList, Array.getElem?_toList] at hstmt
    unfold Exec.block
    rcases hstmt with ⟨hs, ht⟩ | ⟨s, t, hs, ht, hst⟩
    · rw [hs, ht]
      exact .pure rfl
    · rw [hs, ht]
      exact (Together.start setup setup' pc s t).bind_eq fun _ =>
        (Together.step h (fun _ _ hc => .block h fuel hc 0) hb pc hst).bind_eq
          fun next => .block h fuel hb next

end Exec

/-- Runs that end alike: with the same value, or early for the same reason, and in states
that agree on memory, output, registers and counters. -/
inductive Machine.Agrees :
    Except RunError Word × Machine → Except RunError Word × Machine → Prop
  | value {v : Word} {m n : Machine} : m.state.Alike n.state → Agrees (.ok v, m) (.ok v, n)
  | stopped {e e' : Stop} {m n : Machine} : e.Alike e' → m.state.Alike n.state →
      Agrees (.error (.stopped e), m) (.error (.stopped e'), n)

/-- Programs that cannot be told apart by running them: for any choice of limits either the
same is wrong with both machines, or all their runs end alike. -/
def Program.RunsAlike (p q : Program) : Prop :=
  ∀ o : Options,
    (∃ e, Machine.new p o = .error e ∧ Machine.new q o = .error e) ∨
    ∃ m n, Machine.new p o = .ok m ∧ Machine.new q o = .ok n ∧
      ∀ fuel arg, Machine.Agrees (m.run fuel entryName arg) (n.run fuel entryName arg)

namespace Machine

theorem together_enter {setup setup' : Setup} (h : setup.InStep D setup')
    (hentry : Option.Rel (Function.Alike D) (setup.program.lookup? entryName)
      (setup'.program.lookup? entryName)) (fuel : Nat) (arg : Word) :
    Exec.Together Eq (enter setup fuel entryName arg) (enter setup' fuel entryName arg) := by
  unfold enter
  generalize setup.program.lookup? entryName = a at hentry ⊢
  generalize setup'.program.lookup? entryName = b at hentry ⊢
  cases hentry with
  | none => exact .fault rfl
  | some hfg =>
    exact .invoke h (fun _ _ hb => .block h fuel hb 0) hfg 0 [arg]

theorem agrees_run {m n : Machine} (h : m.setup.InStep D n.setup)
    (hentry : Option.Rel (Function.Alike D) (m.setup.program.lookup? entryName)
      (n.setup.program.lookup? entryName))
    (hstate : m.state.Alike n.state) (hnew : m.state.started = false) (fuel : Nat) (arg : Word) :
    Agrees (m.run fuel entryName arg) (n.run fuel entryName arg) := by
  have hrun := together_enter h hentry fuel arg _ _
    ({ hstate with status := rfl, started := rfl } :
      State.Alike { m.state with started := true, status := .running }
        { n.state with started := true, status := .running })
  unfold run
  rw [hstate.started, hnew]
  dsimp only [Bool.false_eq_true, if_false]
  generalize enter m.setup fuel entryName arg _ = r at hrun ⊢
  generalize enter n.setup fuel entryName arg _ = r' at hrun ⊢
  cases hrun with
  | ok hv hst =>
    cases hv
    exact .value { hst with status := rfl }
  | error he hst => exact .stopped he hst

end Machine

/-- Programs that are alike and have corresponding entries run alike. -/
theorem Program.Alike.runsAlike {p q : Program} (h : p.Alike D q)
    (hentry : Option.Rel (Function.Alike D) (p.lookup? entryName) (q.lookup? entryName)) :
    p.RunsAlike q := by
  intro o
  have hsize : (o.setup q).memorySize = (o.setup p).memorySize := rfl
  unfold Machine.new
  dsimp only
  rw [h.dataSize, hsize, h.image?]
  split
  · exact .inl ⟨_, rfl, rfl⟩
  split
  · exact .inl ⟨_, rfl, rfl⟩
  split
  · exact .inl ⟨_, rfl, rfl⟩
  · exact .inr ⟨_, _, rfl, rfl, Machine.agrees_run (D := D) ⟨rfl, rfl, h⟩ hentry
      ⟨rfl, rfl, rfl, rfl, rfl, rfl, rfl, rfl, rfl⟩ rfl⟩

end TreeCode
