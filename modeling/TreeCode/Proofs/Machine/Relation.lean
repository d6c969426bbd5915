/-
# Two runs side by side

Two computations are compared by what a user of the machine can see of them: memory,
registers, depth, status, output and the counters of calls and stack. `Sim` relates
two computations that start in related states: both end with a value, or stop for
the same cause with the same view, or neither ends.

The view says nothing about temps. What is known about the temps of two related
states is a parameter, a relation between activations; every operation of the
machine that does not touch temps keeps any such relation.
-/

import TreeCode.Proofs.Machine.Limit

namespace TreeCode

/-- Two states that look alike from outside. -/
structure SameView (s t : State) : Prop where
  memory : s.memory = t.memory
  fp : s.fp = t.fp
  sp : s.sp = t.sp
  depth : s.depth = t.depth
  status : s.status = t.status
  output : s.output = t.output
  calls : s.stats.calls = t.stats.calls
  maxDepth : s.stats.maxDepth = t.stats.maxDepth
  peakStack : s.stats.peakStack = t.stats.peakStack

theorem SameView.refl (s : State) : SameView s s :=
  ⟨rfl, rfl, rfl, rfl, rfl, rfl, rfl, rfl, rfl⟩

theorem SameView.symm {s t : State} (h : SameView s t) : SameView t s :=
  ⟨h.memory.symm, h.fp.symm, h.sp.symm, h.depth.symm, h.status.symm, h.output.symm,
    h.calls.symm, h.maxDepth.symm, h.peakStack.symm⟩

theorem SameView.trans {s t u : State} (h : SameView s t) (h' : SameView t u) : SameView s u :=
  ⟨h.memory.trans h'.memory, h.fp.trans h'.fp, h.sp.trans h'.sp, h.depth.trans h'.depth,
    h.status.trans h'.status, h.output.trans h'.output, h.calls.trans h'.calls,
    h.maxDepth.trans h'.maxDepth, h.peakStack.trans h'.peakStack⟩

/-- Two setups under which calls are admitted alike. -/
structure Setup.Alike (setup setup' : Setup) : Prop where
  memorySize : setup.memorySize = setup'.memorySize
  maxDepth : setup.maxDepth = setup'.maxDepth
  dataSize : setup.program.dataSize = setup'.program.dataSize

theorem Setup.Alike.refl (setup : Setup) : setup.Alike setup :=
  ⟨rfl, rfl, rfl⟩

namespace Exec

variable {α β γ δ : Type}

/-- Two outcomes that correspond: values as `Q` says, or the same cause of an early
end seen from the same view, or no end on either side. -/
inductive Matches (Q : α → State → β → State → Prop) :
    EStateM.Result Stop State α → EStateM.Result Stop State β → Prop
  | ok {a s b t} : Q a s b t → Matches Q (.ok a s) (.ok b t)
  | fault {f g s t} : f.cause = g.cause → SameView s t →
      Matches Q (.error (.fault f) s) (.error (.fault g) t)
  | defect {d s t} : SameView s t → Matches Q (.error (.defect d) s) (.error (.defect d) t)
  | lost {s t} : Matches Q (.error .outOfFuel s) (.error .outOfFuel t)

theorem Matches.mono {Q R : α → State → β → State → Prop} {x y}
    (h : Matches Q x y) (hQ : ∀ a s b t, Q a s b t → R a s b t) : Matches R x y := by
  cases h with
  | ok h => exact .ok (hQ _ _ _ _ h)
  | fault hc hv => exact .fault hc hv
  | defect hv => exact .defect hv
  | lost => exact .lost

theorem Matches.finished_iff {Q : α → State → β → State → Prop} {x y} (h : Matches Q x y) :
    Finished x ↔ Finished y := by
  cases h with
  | ok _ => exact ⟨fun _ => finished_ok _ _, fun _ => finished_ok _ _⟩
  | fault _ _ | defect _ | lost => simp [finished_error_iff]

/-- From states related by `P`, the two computations end alike and their results are
related by `Q`. -/
def Sim (P : State → State → Prop) (x : Exec α) (y : Exec β)
    (Q : α → State → β → State → Prop) : Prop :=
  ∀ s t, P s t → Matches Q (x s) (y t)

namespace Sim

variable {P : State → State → Prop}

variable {x : Exec α} {y : Exec β} {Q : α → State → β → State → Prop}

theorem pure {a : α} {b : β} (h : ∀ s t, P s t → Q a s b t) : Sim P (Pure.pure a) (Pure.pure b) Q :=
  fun s t hst => .ok (h s t hst)

theorem bind {f : α → Exec γ} {g : β → Exec δ} {R : γ → State → δ → State → Prop} (hx : Sim P x y Q)
    (hf : ∀ a b, Sim (fun s t => Q a s b t) (f a) (g b) R) : Sim P (x >>= f) (y >>= g) R := by
  intro s t hst
  have h := hx s t hst
  cases hxs : x s <;> cases hyt : y t <;> rw [hxs, hyt] at h
  case ok.ok a s' b t' =>
    rw [bind_of_ok hxs, bind_of_ok hyt]
    cases h with
    | ok h => exact hf a b s' t' h
  case error.error e s' e' t' =>
    rw [bind_of_error hxs, bind_of_error hyt]
    cases h with
    | fault hc hv => exact .fault hc hv
    | defect hv => exact .defect hv
    | lost => exact .lost
  all_goals cases h

theorem mono {P' : State → State → Prop} {Q' : α → State → β → State → Prop} (h : Sim P x y Q)
    (hP : ∀ s t, P' s t → P s t) (hQ : ∀ a s b t, Q a s b t → Q' a s b t) : Sim P' x y Q' :=
  fun s t hst => (h s t (hP s t hst)).mono hQ

/-- Strengthen what is known before by a fact that needs no state. -/
theorem of_imp {p : Prop} (hP : ∀ s t, P s t → p) (h : p → Sim P x y Q) : Sim P x y Q :=
  fun s t hst => h (hP s t hst) s t hst

/-- The values of the two computations are those that they yield. -/
theorem with_runs (h : Sim P x y Q) :
    Sim P x y (fun a s b t => Q a s b t ∧
      ∃ s₀ t₀, P s₀ t₀ ∧ x s₀ = .ok a s ∧ y t₀ = .ok b t) := by
  intro s t hst
  have hmatch := h s t hst
  cases hxs : x s <;> cases hyt : y t <;> rw [hxs, hyt] at hmatch
  case ok.ok =>
    cases hmatch with
    | ok hq => exact .ok ⟨hq, s, t, hst, hxs, hyt⟩
  case error.error =>
    cases hmatch with
    | fault hc hv => exact .fault hc hv
    | defect hv => exact .defect hv
    | lost => exact .lost
  all_goals cases hmatch

end Sim

/-- The states look alike, calls are `d` deep and the activations are related. -/
structure Rel (A : Activation → Activation → Prop) (d : Nat) (s t : State) : Prop where
  view : SameView s t
  depth : s.depth = d
  activation : A s.activation t.activation

/-- Equal values in related states. -/
def Same (A : Activation → Activation → Prop) (d : Nat) (a : α) (s : State) (b : α)
    (t : State) : Prop :=
  a = b ∧ Rel A d s t

/-- A computation that keeps every relation between activations. -/
def Neutral (x : Exec α) : Prop :=
  ∀ A d, Sim (Rel A d) x x (Same A d)

namespace Neutral

theorem pure (a : α) : Neutral (Pure.pure a : Exec α) :=
  fun _ _ => Sim.pure fun _ _ h => ⟨rfl, h⟩

theorem bind {x : Exec α} {f : α → Exec β} (hx : Neutral x) (hf : ∀ a, Neutral (f a)) :
    Neutral (x >>= f) := by
  intro A d
  refine (hx A d).bind fun a b => ?_
  rintro s t ⟨rfl, h⟩
  exact hf a A d s t h

theorem fault (c : FaultCause) : Neutral (fault c : Exec α) :=
  fun _ _ _ _ h => .fault rfl { h.view with status := rfl }

theorem defect (e : Defect) : Neutral (defect e : Exec α) :=
  fun _ _ _ _ h => .defect h.view

/-- Operations look at nothing but the view. -/
theorem of_plain {x : Exec α} (h : Plain x) : Neutral x :=
  Pervasive.basic (C := Neutral) {
    pure := pure
    bind := bind
    defect := defect
    fault := fun _ => fault _
    look := fun _ _ _ _ _ h => .ok ⟨by rw [h.view.memory, h.view.sp, h.view.depth], h⟩
    put := fun _ _ _ _ _ _ h =>
      .ok ⟨rfl, { h.view with memory := by rw [h.view.memory] }, h.depth, h.activation⟩
    print := fun _ _ _ _ _ h =>
      .ok ⟨rfl, { h.view with output := by rw [h.view.output] }, h.depth, h.activation⟩
    countCall := fun _ _ _ _ h =>
      .ok ⟨rfl, { h.view with calls := by rw [h.view.calls] }, h.depth, h.activation⟩ } h

end Neutral

section

variable {setup setup' : Setup} {run run' : Block → Exec Unit}
  {A B : Activation → Activation → Prop} {d : Nat}

/-- Admission to a call depends on the view only. It fails at the depth limit. -/
theorem reserve_sim (hset : setup.Alike setup') (frame : Frame) (count : Nat) :
    Sim (Rel A d) (reserve setup frame count) (reserve setup' frame count)
      (fun a s b t => (d : Int) < setup.maxDepth ∧ Same A d a s b t) := by
  intro s t h
  unfold reserve
  dsimp only
  rw [h.view.sp, ← hset.maxDepth, ← hset.dataSize, ← h.view.depth, h.depth]
  split
  · exact .fault rfl { h.view with status := rfl }
  next hdepth =>
    split
    · exact .fault rfl { h.view with status := rfl }
    split
    · exact .defect h.view
    · exact .ok ⟨by omega, rfl, h⟩

variable (frame : Frame) {s t : State}

theorem fill_sim (base link : Word) (args : List Word) : Neutral (fill frame base link args) := by
  refine Neutral.bind (.of_plain (.store _ _)) fun _ => .bind (.of_plain (.storeAll _ _))
    fun _ A d s t h => ?_
  change Matches _ (Exec.store (base + frame.linkOffset) s.fp s)
    (Exec.store (base + frame.linkOffset) t.fp t)
  rw [h.view.fp]
  exact Neutral.of_plain (.store _ _) A d s t h

/-- Entering a frame leaves two related states with equal activations. -/
theorem enter_sim (hset : setup.Alike setup') (frame : Frame) (base : Word) (h : Rel A d s t) :
    Matches (fun _ s' _ t' => Rel Eq (d + 1) s' t') (enter setup frame base s)
      (enter setup' frame base t) := by
  refine .ok ⟨?_, congrArg (· + 1) h.depth, rfl⟩
  have hview := h.view
  exact {
    memory := hview.memory
    fp := rfl
    sp := rfl
    depth := congrArg (· + 1) hview.depth
    status := hview.status
    output := hview.output
    calls := congrArg (· + 1) hview.calls
    maxDepth := by simp only [hview.maxDepth, hview.depth]
    peakStack := by simp only [hview.peakStack, hset.memorySize] }

/-- Leaving a frame restores the activations of the callers. -/
theorem leave_sim {a a' : Activation} (ha : A a a') (l l' : Location) (h : Rel B (d + 1) s t)
    (hrv : s.activation.temps.get Temp.rv = t.activation.temps.get Temp.rv) :
    Matches (Same A d) (leave frame a l s) (leave frame a' l' t) := by
  change Matches _ ((Exec.load (s.fp + frame.linkOffset) >>= resume frame a l) s)
    ((Exec.load (t.fp + frame.linkOffset) >>= resume frame a' l') t)
  rw [← h.view.fp]
  refine Sim.bind (P := fun u v => Rel B (d + 1) u v ∧ u.activation = s.activation ∧
      v.activation = t.activation) (Q := fun w u w' v => w = w' ∧ Rel B (d + 1) u v ∧
      u.activation = s.activation ∧ v.activation = t.activation) ?_ (fun w w' => ?_) s t
    ⟨h, rfl, rfl⟩
  · rintro u v ⟨huv, hu, hv⟩
    unfold Exec.load
    rw [huv.view.memory]
    split
    · exact .ok ⟨rfl, huv, hu, hv⟩
    · exact .fault rfl { huv.view with status := rfl }
  · rintro u v ⟨rfl, huv, hu, hv⟩
    refine .ok ⟨by simp only [hu, hv, hrv], ?_, ?_, ha⟩
    · exact { huv.view with
        fp := rfl
        sp := by simp only [huv.view.fp]
        depth := by simp only [huv.view.depth] }
    · simp only [huv.depth, Nat.add_sub_cancel]

/-- Calls of functions with the same frame run alike if their bodies do, one level
deeper. Bodies need not be compared at the depth limit. -/
theorem invoke_sim (hset : setup.Alike setup') (hrefl : ∀ a, B a a)
    (hrv : ∀ a b, B a b → a.temps.get Temp.rv = b.temps.get Temp.rv)
    {f f' : Function} (hframe : f.frame = f'.frame)
    (hbody : (d : Int) < setup.maxDepth →
      Sim (Rel B (d + 1)) (run f.body) (run' f'.body) (fun _ s _ t => Rel B (d + 1) s t))
    (link : Word) (args : List Word) :
    Sim (Rel A d) (invoke setup run f link args) (invoke setup' run' f' link args)
      (Same A d) := by
  unfold invoke
  rw [← hframe]
  refine (reserve_sim hset f.frame args.length).bind fun base base' => ?_
  refine Sim.of_imp (p := (d : Int) < setup.maxDepth ∧ base = base')
    (fun s t h => ⟨h.1, h.2.1⟩) ?_
  rintro ⟨hdepth, rfl⟩
  refine Sim.mono (P := Rel A d) ?_ (fun _ _ h => h.2.2) fun _ _ _ _ h => h
  refine (fill_sim f.frame base link args A d).bind fun _ _ s t h => ?_
  have henter := enter_sim hset f.frame base h.2
  change Matches _
    ((enter setup f.frame base >>= fun _ => run f.body >>= fun _ =>
      leave f.frame s.activation s.location) s)
    ((enter setup' f.frame base >>= fun _ => run' f'.body >>= fun _ =>
      leave f.frame t.activation t.location) t)
  refine Sim.bind (P := fun u v => u = s ∧ v = t) (Q := fun _ s' _ t' => Rel Eq (d + 1) s' t')
    ?_ (fun _ _ => ?_) s t ⟨rfl, rfl⟩
  · rintro u v ⟨rfl, rfl⟩
    exact henter
  refine Sim.bind ((hbody hdepth).mono (fun u v huv => ?_) fun _ _ _ _ huv => huv)
    fun _ _ u v huv => ?_
  · exact ⟨huv.view, huv.depth, huv.activation ▸ hrefl _⟩
  · exact leave_sim f.frame h.2.activation _ _ huv (hrv _ _ huv.activation)

/-- Two programs that agree on what a label leads to: code whose bodies are related
by `R`, or no code. -/
def SameCallee (R : Function → Function → Prop) (p p' : Program) (l : Label) : Prop :=
  (p.function? l = none ∧ p'.function? l = none) ∨
    ∃ f f', p.function? l = some f ∧ p'.function? l = some f' ∧ f.frame = f'.frame ∧ R f f'

theorem SameCallee.refl {R : Function → Function → Prop} (h : ∀ f, R f f) (p : Program)
    (l : Label) : SameCallee R p p l := by
  cases hl : p.function? l with
  | none => exact .inl ⟨hl, hl⟩
  | some f => exact .inr ⟨f, f, hl, hl, rfl, h f⟩

theorem call_sim (hset : setup.Alike setup') (hrefl : ∀ a, B a a)
    (hrv : ∀ a b, B a b → a.temps.get Temp.rv = b.temps.get Temp.rv) (l : Label)
    (hcallee : SameCallee (fun f f' => (d : Int) < setup.maxDepth →
      Sim (Rel B (d + 1)) (run f.body) (run' f'.body) (fun _ s _ t => Rel B (d + 1) s t))
      setup.program setup'.program l) (args : List Word) :
    Sim (Rel A d) (call setup run l args) (call setup' run' l args) (Same A d) := by
  unfold call
  obtain ⟨h, h'⟩ | ⟨f, f', h, h', hframe, hbody⟩ := hcallee
  · simp only [h, h']
    cases Builtin.ofName? l.name with
    | none => exact Neutral.fault _ A d
    | some b =>
      refine (Neutral.of_plain .countCall A d).bind fun _ _ => Sim.mono (P := Rel A d) ?_
        (fun _ _ h => h.2) fun _ _ _ _ h => h
      cases args with
      | nil => exact Neutral.defect _ A d
      | cons _ args => exact Neutral.of_plain (.builtin b args) A d
  · simp only [h, h']
    cases args with
    | nil => exact Neutral.defect _ A d
    | cons hops args =>
      intro s t hst
      change Matches _ ((followLinks hops.toInt.toNat s.fp >>= fun link =>
          invoke setup run f link args) s)
        ((followLinks hops.toInt.toNat t.fp >>= fun link => invoke setup' run' f' link args) t)
      rw [← hst.view.fp]
      refine (Neutral.of_plain (.followLinks _ _) A d).bind (fun link link' => ?_) s t hst
      rintro u v ⟨rfl, huv⟩
      exact invoke_sim hset hrefl hrv hframe hbody link args u v huv

end

/-- Evaluation of one expression under two ways of running blocks that do alike. The places
that are put back after a block may differ. -/
def alike (d : Nat) : Bond Unit where
  rel x y := Sim (Rel Eq d) (x ()) y (Same Eq d)
  plain h := Neutral.of_plain h Eq d
  readTemp t := by
    intro u v h
    unfold readTemp
    split
    · exact .ok ⟨h.view.fp, h⟩
    · exact .ok ⟨by rw [h.activation], h⟩
  writeTemp t w := fun _ _ h => .ok ⟨rfl, { h.view with }, h.depth, by simp only [h.activation]⟩
  bind hx hf := by
    refine hx.bind fun a b => ?_
    rintro s t ⟨rfl, h⟩
    exact hf a s t h
  inner hx he := by
    refine Sim.bind (Q := fun _ s _ t => Rel Eq d s t) (fun s t h => .ok h) fun l l' => ?_
    refine hx.bind fun _ _ => ?_
    refine Sim.bind (Q := fun _ s _ t => Rel Eq d s t)
      (fun s t h => .ok ⟨{ h.2.view with }, h.2.depth, h.2.activation⟩) fun _ _ => ?_
    exact he

/-- With and without what is kept for reports, blocks and calls do alike at all depths if
blocks do. -/
theorem runs_quiet_of_block {setup : Setup} {n : Nat}
    (h : ∀ d b, Sim (Rel Eq d) (block setup n b 0) (quiet setup n b 0) (Same Eq d)) (d : Nat) :
    (alike d).Runs (fun _ => setup) setup (fun _ inner => block setup n inner 0)
      (fun inner => quiet setup n inner 0) := by
  refine ⟨fun _ => rfl, h d, fun l args => ?_⟩
  refine call_sim (B := Eq) (Setup.Alike.refl setup) (fun _ => rfl) (fun _ _ h => by rw [h]) l
    ?_ args
  exact .refl (fun f _ => (h (d + 1) f.body).mono (fun _ _ h => h) fun _ _ _ _ h => h.2) _ _

/-- Keeping the running instruction, the number of instructions and a trace changes
nothing else about a run. -/
theorem block_sim_quiet (setup : Setup) (n : Nat) : ∀ (d : Nat) (b : Block) (pc : Nat),
    Sim (Rel Eq d) (block setup n b pc) (quiet setup n b pc) (Same Eq d) := by
  induction n with
  | zero => exact fun d b pc s t _ => .lost
  | succ n ih =>
    intro d b pc
    simp only [block, quiet]
    cases b[pc]? with
    | none => exact Neutral.pure _ _ _
    | some stmt =>
      dsimp only
      intro s t h
      have hstart : ∃ s', start setup pc stmt s = .ok () s' ∧ Rel Eq d s' t := by
        refine ⟨_, rfl, ?_⟩
        split <;> exact ⟨{ h.view with }, h.depth, h.activation⟩
      obtain ⟨s', hs', h'⟩ := hstart
      rw [bind_of_ok hs']
      refine ((runs_quiet_of_block (fun d b => ih d b 0) d).step b pc stmt).bind
        (fun next next' => ?_) s' t h'
      rintro u v ⟨rfl, huv⟩
      exact ih d b next u v huv

theorem runs_quiet (setup : Setup) (n d : Nat) :
    (alike d).Runs (fun _ => setup) setup (fun _ inner => block setup n inner 0)
      (fun inner => quiet setup n inner 0) :=
  runs_quiet_of_block (fun d b => block_sim_quiet setup n d b 0) d

end Exec

end TreeCode
