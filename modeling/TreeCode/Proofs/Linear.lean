/-
# Tree form and linear form

A program whose functions have sound bodies behaves alike in tree form and in linear
form. Calls are compared by induction on the depth that is left below the limit: at
the limit both forms refuse the call, and below it the bodies are compared one level
deeper.

`Program.Forms` relates the two forms of a program, and `Machine.behaves_of_forms` is
the statement about machines made for them.
-/

import TreeCode.Compilation
import TreeCode.Proofs.IR.Lifting
import TreeCode.Proofs.Machine.Behaviour

namespace TreeCode

open IR (Chunk Stmt)
open IR.Effect (labels)

/-- The body of a function whose meaning does not depend on the form it is run in. -/
structure IR.Stmt.SoundBody (N : Label → Prop) (k : Nat) (s : Stmt) : Prop where
  sound : s.Sound N k
  closed : Block.Closed s.flatten
  nodup : (labels s.effects).Nodup

/-- The tree form and the linear form of a function. -/
structure Function.Forms (N : Label → Prop) (k : Nat) (f f' : Function) : Prop where
  frame : f.frame = f'.frame
  body : ∃ (s : Stmt) (n : Nat), k ≤ n ∧ s.SoundBody N k ∧ f.body = .ofStmt s ∧
    f'.body = Block.ofList (s.lift n).1.flatten

/-- The tree form and the linear form of a program. -/
structure Program.Forms (N : Label → Prop) (k : Nat) (p p' : Program) : Prop where
  functions : List.Forall₂ (Function.Forms N k) p.functions p'.functions
  data : p.data = p'.data
  dataSize : p.dataSize = p'.dataSize
  names : ∀ l, N l → ∃ a, p.address? l = some a

namespace Program

variable {N : Label → Prop} {k : Nat}

/-- Functions that are found by their frames are found alike in both forms. -/
theorem find?_forms {fs fs' : List Function} (h : List.Forall₂ (Function.Forms N k) fs fs')
    (q : Frame → Bool) :
    (fs.find? (fun f => q f.frame) = none ∧ fs'.find? (fun f => q f.frame) = none) ∨
      ∃ f f', fs.find? (fun f => q f.frame) = some f ∧
        fs'.find? (fun f => q f.frame) = some f' ∧ f.Forms N k f' := by
  induction h with
  | nil => exact .inl ⟨rfl, rfl⟩
  | @cons f f' fs fs' hf _ ih =>
    by_cases hq : q f.frame = true
    · have hq' : q f'.frame = true := hf.frame ▸ hq
      exact .inr ⟨f, f', List.find?_cons_of_pos hq, List.find?_cons_of_pos hq', hf⟩
    · rw [Bool.not_eq_true] at hq
      have hq' : q f'.frame = false := hf.frame ▸ hq
      simp only [List.find?_cons, hq, hq']
      exact ih

variable {chunks : List Chunk} {n : Nat}

theorem ofChunks_eq_ok {p : Program} (h : ofChunks chunks = .ok p) :
    p = ⟨chunks, functionsOf chunks, dataFrom 0 chunks, dataSizeOf chunks⟩ := by
  unfold ofChunks at h
  split at h
  · cases h
  · cases h
    rfl

theorem dataFrom_canonicalAll (chunks : List Chunk) : ∀ (n : Nat) (offset : Word),
    dataFrom offset (Chunk.canonicalAll chunks n).1 = dataFrom offset chunks := by
  induction chunks with
  | nil => exact fun _ _ => rfl
  | cons c rest ih =>
    cases c with
    | code frame body => exact fun n offset => ih _ offset
    | data l size init => exact fun n offset => congrArg (_ :: ·) (ih n (offset + size))

theorem dataSizeOf_canonicalAll (chunks : List Chunk) : ∀ n : Nat,
    dataSizeOf (Chunk.canonicalAll chunks n).1 = dataSizeOf chunks := by
  induction chunks with
  | nil => exact fun _ => rfl
  | cons c rest ih =>
    cases c with
    | code frame body => exact fun n => ih _
    | data l size init => exact fun n => congrArg (size + ·) (ih n)

/-- Bringing chunks into canonical form gives the linear forms of their functions. -/
theorem functionsOf_canonicalAll (h : ∀ frame body, .code frame body ∈ chunks → body.SoundBody N k)
    (hn : k ≤ n) :
    List.Forall₂ (Function.Forms N k) (functionsOf chunks)
      (functionsOf (Chunk.canonicalAll chunks n).1) := by
  induction chunks generalizing n with
  | nil => exact .nil
  | cons c rest ih =>
    have hrest : ∀ frame body, .code frame body ∈ rest → body.SoundBody N k :=
      fun frame body hmem => h frame body (.tail _ hmem)
    cases c with
    | data l size init => exact ih hrest hn
    | code frame body =>
      have hle := (Stmt.refresh_lift body n).le
      refine .cons ⟨rfl, body, n, hn, h frame body (.head _), rfl, ?_⟩
        (ih hrest (n := (body.lift n).2) (by omega))
      exact congrArg List.toArray (Stmt.flattenAll_flatten (body.lift n).1)

/-- Chunks with sound bodies make up a program in both forms. -/
theorem forms_of_canonicalAll {p p' : Program} (hp : ofChunks chunks = .ok p)
    (hp' : ofChunks (Chunk.canonicalAll chunks n).1 = .ok p')
    (h : ∀ frame body, .code frame body ∈ chunks → body.SoundBody N k) (hn : k ≤ n)
    (hnames : ∀ l, N l → ∃ a, p.address? l = some a) : p.Forms N k p' := by
  cases ofChunks_eq_ok hp
  cases ofChunks_eq_ok hp'
  exact ⟨functionsOf_canonicalAll h hn, (dataFrom_canonicalAll chunks n 0).symm,
    (dataSizeOf_canonicalAll chunks n).symm, hnames⟩

end Program

namespace Exec

variable {N : Label → Prop} {k : Nat} {tree linear : Setup}

/-- Two setups for the two forms of a program. -/
structure FormSetups (N : Label → Prop) (k : Nat) (tree linear : Setup) : Prop where
  program : tree.program.Forms N k linear.program
  memorySize : tree.memorySize = linear.memorySize
  maxDepth : tree.maxDepth = linear.maxDepth
  /-- The bound leaves room for the frame pointer and the return value. -/
  bound : 2 ≤ k

theorem FormSetups.alike (h : FormSetups N k tree linear) : tree.Alike linear :=
  ⟨h.memorySize, h.maxDepth, h.program.dataSize⟩

theorem AgreeBelow.refl (k : Nat) (a : Activation) : AgreeBelow k a a :=
  fun _ _ => rfl

theorem AgreeBelow.rv (hk : 2 ≤ k) {a b : Activation} (h : AgreeBelow k a b) :
    a.temps.get Temp.rv = b.temps.get Temp.rv :=
  h Temp.rv (show (1 : Int) < k by omega)

/-- The bodies of a function in both forms do alike where calls do. -/
theorem Paired.body_sim {d : Nat} (hp : Paired tree linear N k d) {f f' : Function}
    (h : f.Forms N k f') :
    Sim (Rel (AgreeBelow k) d) (fullRun tree f.body) (fullRun linear f'.body)
      (fun _ s _ t => Rel (AgreeBelow k) d s t) := by
  obtain ⟨s, n, hn, hs, hbody, hbody'⟩ := h.body
  have htame := hs.sound.stable.tame_lift hn hs.closed
  rw [hbody, hbody']
  exact (segments hp hs.sound.stable hs.nodup n hn).full_sim hs.closed
    ((Stmt.placed_flatten s).nodup hs.nodup) (htame.placed ▸ hs.nodup)

/-- Calls do alike at every depth. -/
theorem FormSetups.paired (h : FormSetups N k tree linear) (d : Nat) :
    Paired tree linear N k d := by
  -- by induction on the number of calls that still fit below the limit
  obtain ⟨r, hr⟩ : ∃ r : Nat, (tree.maxDepth - d).toNat = r := ⟨_, rfl⟩
  induction r using Nat.strongRecOn generalizing d with
  | ind r ih =>
    refine ⟨Nat.lt_of_lt_of_le Nat.two_pos h.bound, fun l hl => ?_, fun l args => ?_⟩
    · obtain ⟨a, ha⟩ := h.program.names l hl
      refine ⟨a, ha, ?_⟩
      rw [Program.address?, ← h.program.data]
      exact ha
    · refine call_sim h.alike (AgreeBelow.refl k) (fun _ _ => AgreeBelow.rv h.bound) l ?_ args
      rcases Program.find?_forms h.program.functions (fun f => f.label == l) with
        hnone | ⟨f, f', hf, hf', hforms⟩
      · exact .inl hnone
      · refine .inr ⟨f, f', hf, hf', hforms.frame, fun hdepth => ?_⟩
        exact (ih _ (by omega) (d + 1) rfl).body_sim hforms

/-- Entering a program does alike in both forms. -/
theorem FormSetups.fullEnter_sim (h : FormSetups N k tree linear) (name : String) (arg : Word)
    (d : Nat) :
    Sim (Rel (AgreeBelow k) d) (fullEnter tree name arg) (fullEnter linear name arg)
      (Same (AgreeBelow k) d) := by
  have hlookup : (tree.program.lookup? name = none ∧ linear.program.lookup? name = none) ∨
      ∃ f f', tree.program.lookup? name = some f ∧ linear.program.lookup? name = some f' ∧
        f.Forms N k f' :=
    Program.find?_forms h.program.functions (fun f => f.label.name == name)
  unfold fullEnter
  rcases hlookup with ⟨hf, hf'⟩ | ⟨f, f', hf, hf', hforms⟩
  · rw [hf, hf']
    exact Neutral.fault _ _ _
  · rw [hf, hf']
    exact invoke_sim h.alike (AgreeBelow.refl k) (fun _ _ => AgreeBelow.rv h.bound) hforms.frame
      (fun _ => (h.paired (d + 1)).body_sim hforms) 0 [arg]

end Exec

namespace Machine

variable {N : Label → Prop} {k : Nat}

/-- Machines for the two forms of a program are made alike and start alike. -/
theorem new_of_forms {p p' : Program} (h : p.Forms N k p') (o : Options) :
    new p' o = (new p o).map fun m => ⟨o.setup p', m.state⟩ := by
  have himage : p'.image? = p.image? := by
    unfold Program.image?
    rw [h.data, h.dataSize]
  have hsize : (o.setup p').memorySize = (o.setup p).memorySize := rfl
  unfold new
  simp only [hsize, himage, ← h.dataSize]
  split
  · rfl
  split
  · rfl
  cases p.image? with
  | none | some _ => rfl

/-- Machines for the two forms of a program behave alike. -/
theorem behaves_of_forms {p p' : Program} (h : p.Forms N k p') (hk : 2 ≤ k) {o : Options}
    {m m' : Machine} (hm : new p o = .ok m) (hm' : new p' o = .ok m') (name : String)
    (arg : Word) (b : Behaviour) : m.Behaves name arg b ↔ m'.Behaves name arg b := by
  obtain ⟨hsetup, hstarted⟩ := new_eq_ok hm
  rw [new_of_forms h, hm] at hm'
  cases hm'
  have hforms : Exec.FormSetups N k m.setup (o.setup p') := by
    rw [hsetup]
    exact ⟨h, rfl, rfl, hk⟩
  rw [behaves_iff hstarted, behaves_iff (m := ⟨o.setup p', m.state⟩) hstarted]
  have hmatch := hforms.fullEnter_sim name arg m.startState.depth m.startState m.startState
    ⟨SameView.refl _, rfl, Exec.AgreeBelow.refl k _⟩
  rw [Behaviour.ofResult?_of_matches hmatch]
  rfl

end Machine

end TreeCode
