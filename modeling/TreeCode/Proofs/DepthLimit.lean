/-
# The limit on the depth of calls

The limit on the depth of calls only cuts runs off. Two machines that differ in nothing but
this limit run in step until one of them refuses a call. If a run halts, the greatest depth
that it has counted is exactly the least limit that lets it halt: under that limit or a
higher one every run ends in the same state, and under a lower one it ends at the limit.
-/

import TreeCode.Compilation
import TreeCode.Proofs.Machine.Accord
import TreeCode.Proofs.Machine.Ends
import TreeCode.Proofs.Outcome
import TreeCode.Sample

namespace TreeCode

namespace Exec

variable {α β : Type}

/-- A call was refused at a limit on the depth. -/
def Refused (limit : Int) (r : EStateM.Result Stop State α) : Prop :=
  ∃ f s, r = .error (.fault f) s ∧ s.status = .faulted ∧ ∃ name, f.cause = .depthLimit limit name

/-- Where `x` yields a value without going deeper than the limit, `y` does the same; where it
goes deeper, `y` is refused a call. The greatest depth does not go down. -/
structure CutOff (limit : Int) (x y : Exec α) : Prop where
  mono : ∀ s a t, x s = .ok a t → s.stats.maxDepth ≤ t.stats.maxDepth
  same : ∀ s a t, (s.stats.maxDepth : Int) ≤ limit → x s = .ok a t →
    (t.stats.maxDepth : Int) ≤ limit → y s = .ok a t
  refused : ∀ s a t, (s.stats.maxDepth : Int) ≤ limit → x s = .ok a t →
    limit < t.stats.maxDepth → Refused limit (y s)

namespace CutOff

variable {limit : Int}

/-- A step that leaves the depth alone is the same for both machines. -/
theorem of_quiescent {x : Exec α} (hx : Quiescent x) : CutOff limit x x := by
  have hdepth : ∀ s a t, x s = .ok a t → t.stats.maxDepth = s.stats.maxDepth := by
    intro s a t h
    have hcalm := hx s
    rw [h] at hcalm
    exact hcalm.maxDepth
  constructor
  · intro s a t h
    exact Nat.le_of_eq (hdepth s a t h).symm
  · intro s a t _ h _
    exact h
  · intro s a t hs h ht
    rw [hdepth s a t h] at ht
    omega

theorem bind {x y : Exec α} {f g : α → Exec β} (hx : CutOff limit x y)
    (hf : ∀ a, CutOff limit (f a) (g a)) : CutOff limit (x >>= f) (y >>= g) := by
  constructor
  · intro s b t h
    obtain ⟨a, u, ha, hb⟩ := bind_eq_ok h
    exact Nat.le_trans (hx.mono s a u ha) ((hf a).mono u b t hb)
  · intro s b t hs h ht
    obtain ⟨a, u, ha, hb⟩ := bind_eq_ok h
    have hu := (hf a).mono u b t hb
    rw [bind_of_ok (hx.same s a u hs ha (by omega))]
    exact (hf a).same u b t (by omega) hb ht
  · intro s b t hs h ht
    obtain ⟨a, u, ha, hb⟩ := bind_eq_ok h
    by_cases hu : (u.stats.maxDepth : Int) ≤ limit
    · rw [bind_of_ok (hx.same s a u hs ha hu)]
      exact (hf a).refused u b t hu hb ht
    · obtain ⟨fault, v, hy, hcause⟩ := hx.refused s a u hs ha (by omega)
      exact ⟨fault, v, bind_of_error hy, hcause⟩

end CutOff

section

variable {setup setup' : Setup}

/-- Two setups that differ in the limit on the depth of calls only. -/
structure SameButLimit (setup setup' : Setup) : Prop where
  program : setup.program = setup'.program
  memorySize : setup.memorySize = setup'.memorySize
  traced : setup.traced = setup'.traced

/-- What happens from the start of a call up to its first instruction. -/
def takeUp (setup : Setup) (frame : Frame) (link : Word) (args : List Word) :
    Exec (Activation × Location) := do
  let base ← reserve setup frame args.length
  fill frame base link args
  let caller := (← get).activation
  let location := (← get).location
  enter setup frame base
  return (caller, location)

theorem invoke_eq_takeUp (setup : Setup) (run : Block → Exec Unit) (f : Function) (link : Word)
    (args : List Word) :
    invoke setup run f link args = (do
      let caller ← takeUp setup f.frame link args
      run f.body
      leave f.frame caller.1 caller.2) := by
  simp only [invoke, takeUp, bind_assoc, pure_bind]

/-- A call that is taken up counts its depth. -/
theorem takeUp_eq_ok {frame : Frame} {link : Word} {args : List Word} {s t : State}
    {caller : Activation × Location} (h : takeUp setup frame link args s = .ok caller t) :
    (s.depth : Int) < setup.maxDepth ∧
      t.stats.maxDepth = max s.stats.maxDepth (s.depth + 1) := by
  obtain ⟨base, s₁, hreserve, h⟩ := bind_eq_ok h
  obtain ⟨_, s₂, hfill, h⟩ := bind_eq_ok h
  obtain ⟨_, _, hget, h⟩ := bind_eq_ok h
  cases hget
  obtain ⟨_, _, hget, h⟩ := bind_eq_ok h
  cases hget
  have hcalm : Calm s s₂ := by
    have h₁ := Quiescent.of_plain (.reserve setup frame args.length) s
    have h₂ := Quiescent.fill frame base link args s₁
    rw [hreserve] at h₁
    rw [hfill] at h₂
    exact h₁.trans h₂
  have hlimit : (s.depth : Int) < setup.maxDepth := by
    unfold reserve at hreserve
    dsimp only at hreserve
    split at hreserve
    · cases hreserve
    next hdepth => omega
  cases h
  refine ⟨hlimit, ?_⟩
  show max s₂.stats.maxDepth (s₂.depth + 1) = max s.stats.maxDepth (s.depth + 1)
  rw [hcalm.maxDepth, hcalm.depth]

/-- Below both limits calls are taken up alike. -/
theorem takeUp_eq (h : SameButLimit setup setup') {s : State}
    (hs : (s.depth : Int) < setup.maxDepth) (hs' : (s.depth : Int) < setup'.maxDepth)
    (frame : Frame) (link : Word) (args : List Word) :
    takeUp setup' frame link args s = takeUp setup frame link args s := by
  have hreserve : reserve setup' frame args.length s = reserve setup frame args.length s := by
    have hdepth : ¬ (s.depth : Int) ≥ setup.maxDepth := by omega
    have hdepth' : ¬ (s.depth : Int) ≥ setup'.maxDepth := by omega
    unfold reserve
    dsimp only
    rw [if_neg hdepth, if_neg hdepth', h.program]
  have henter : enter setup' = enter setup := by
    funext frame base t
    simp only [enter, h.memorySize]
  unfold takeUp
  rw [henter]
  cases hr : reserve setup frame args.length s with
  | ok base t => rw [bind_of_ok hr, bind_of_ok (hreserve.trans hr)]
  | error e t => rw [bind_of_error hr, bind_of_error (hreserve.trans hr)]

/-- At the limit a call is refused. -/
theorem takeUp_refused {s : State} (hs : setup.maxDepth ≤ s.depth) (frame : Frame) (link : Word)
    (args : List Word) : Refused setup.maxDepth (takeUp setup frame link args s) := by
  have hreserve : reserve setup frame args.length s =
      fault (.depthLimit setup.maxDepth frame.label.name) s := by
    unfold reserve
    dsimp only
    rw [if_pos (by omega)]
  exact ⟨_, _, bind_of_error hreserve, rfl, _, rfl⟩

/-- The admission of a call is where the two machines can part. -/
theorem CutOff.takeUp (h : SameButLimit setup setup') (frame : Frame) (link : Word)
    (args : List Word) :
    CutOff setup'.maxDepth (takeUp setup frame link args)
      (Exec.takeUp setup' frame link args) := by
  constructor
  · intro s caller t htake
    have hdepth := (takeUp_eq_ok htake).2
    omega
  · intro s caller t _ htake ht
    obtain ⟨hlimit, hdepth⟩ := takeUp_eq_ok htake
    rw [takeUp_eq h hlimit (by omega), htake]
  · intro s caller t hs htake ht
    obtain ⟨hlimit, hdepth⟩ := takeUp_eq_ok htake
    exact takeUp_refused (by omega) frame link args

/-- Machines that differ in the limit on the depth of calls only run in step until the
second one refuses a call. -/
def Accord.cutOff (h : SameButLimit setup setup') : Accord setup setup' where
  rel x y := CutOff setup'.maxDepth x y
  program := h.program
  traced := h.traced
  quiescent := CutOff.of_quiescent
  bind := CutOff.bind
  invoke := by
    intro run run' hrun f link args
    rw [invoke_eq_takeUp, invoke_eq_takeUp]
    apply (CutOff.takeUp h f.frame link args).bind
    intro caller
    apply (hrun f.body).bind
    intro _
    apply (CutOff.of_quiescent .get).bind
    intro s
    apply (CutOff.of_quiescent (.of_plain (.load _))).bind
    intro saved
    -- leaving a call brings the depth down again, but not the greatest depth
    constructor
    · intro s a t ht
      cases ht
      exact Nat.le_refl _
    · intro s a t _ ht _
      exact ht
    · intro s a t hs ht hlt
      cases ht
      exact absurd hs (Int.not_le.2 hlt)

end

end Exec

namespace Machine

/-- Making a machine does not depend on the limit on the depth of calls. -/
theorem new_of_limit (p : Program) (size : Word) (limit limit' : Int) (traced : Bool) :
    new p ⟨size, limit', traced⟩ = (new p ⟨size, limit, traced⟩).map
      fun m => ⟨Options.setup ⟨size, limit', traced⟩ p, m.state⟩ := by
  have hsize : (Options.setup ⟨size, limit', traced⟩ p).memorySize =
      (Options.setup ⟨size, limit, traced⟩ p).memorySize := rfl
  unfold new
  simp only [hsize]
  split
  · rfl
  split
  · rfl
  cases p.image? with
  | none | some _ => rfl

/-- What the run of a machine that halts says about a machine with another limit. -/
theorem ends_of_sameButLimit {m m' : Machine} (h : Exec.SameButLimit m.setup m'.setup)
    (hstate : m'.state = m.state) (hstarted : m.state.started = false)
    (hlimit : (m.state.stats.maxDepth : Int) ≤ m'.setup.maxDepth) {name : String}
    {arg value : Word} {last : Machine} (hlast : m.Ends name arg (.ok value, last)) :
    ((last.state.stats.maxDepth : Int) ≤ m'.setup.maxDepth →
        m'.Ends name arg (.ok value, ⟨m'.setup, last.state⟩)) ∧
      (m'.setup.maxDepth < last.state.stats.maxDepth →
        ∃ f s, f.kind = .stackOverflow ∧ s.status = .faulted ∧
          m'.Ends name arg (.error (.stopped (.fault f)), ⟨m'.setup, s⟩)) := by
  obtain ⟨fuel, x, hx, -, hout⟩ := (ends_iff hstarted).1 hlast
  have hstarted' : m'.state.started = false := by rw [hstate, hstarted]
  have hstart : m'.startState = m.startState := by rw [startState, startState, hstate]
  have hcut := (Exec.Accord.cutOff h).enter fuel name arg
  cases x with
  | error stop s => cases hout
  | ok v s =>
    cases hout
    rw [← hstart] at hx
    have hlow : (m'.startState.stats.maxDepth : Int) ≤ m'.setup.maxDepth := by
      rw [hstart]
      exact hlimit
    constructor
    · intro hk
      have hsame := hcut.same _ _ _ hlow hx hk
      exact (ends_iff hstarted').2 ⟨fuel, _, hsame, Exec.finished_ok _ _, rfl⟩
    · intro hk
      obtain ⟨f, s', hrefused, hstatus, function, hcause⟩ := hcut.refused _ _ _ hlow hx hk
      refine ⟨f, s', by rw [Fault.kind, hcause]; rfl, hstatus, ?_⟩
      exact (ends_iff hstarted').2
        ⟨fuel, _, hrefused, Exec.finished_error (by simp) _, rfl⟩

/-- The limit on the depth of calls only cuts runs off. If the run of a machine halts under
some limit, and `k` is the greatest depth it counts, then a machine that has another limit and
is otherwise the same ends its run in the same state with the same value if that limit is at
least `k`, and with a fault at the limit if it is less; and it ends in no other way. -/
theorem depth_limit_cuts {p : Program} {size : Word} {limit : Int} {traced : Bool} {m : Machine}
    (hm : new p ⟨size, limit, traced⟩ = .ok m) {name : String} {arg value : Word} {last : Machine}
    (hlast : m.Ends name arg (.ok value, last)) {d : Int} (hd : 1 ≤ d) :
    ∃ m', new p ⟨size, d, traced⟩ = .ok m' ∧
      ((last.state.stats.maxDepth : Int) ≤ d →
        ∀ r, m'.Ends name arg r ↔ r = (.ok value, ⟨m'.setup, last.state⟩)) ∧
      (d < last.state.stats.maxDepth →
        ∃ f s, f.kind = .stackOverflow ∧ s.status = .faulted ∧
          ∀ r, m'.Ends name arg r ↔ r = (.error (.stopped (.fault f)), ⟨m'.setup, s⟩)) := by
  have hnew := new_of_limit p size limit d traced
  rw [hm, Except.map] at hnew
  obtain ⟨hsetup, hstarted⟩ := new_eq_ok hm
  obtain ⟨memory, hstate⟩ := state_of_new hm
  generalize hm' : Machine.mk (Options.setup ⟨size, d, traced⟩ p) m.state = m' at hnew
  have hstate' : m'.state = m.state := by rw [← hm']
  have hlimit : m'.setup.maxDepth = d := by
    rw [← hm']
    exact if_neg (Int.ne_of_gt hd)
  have hsame : Exec.SameButLimit m.setup m'.setup := by
    rw [← hm', hsetup]
    exact ⟨rfl, rfl, rfl⟩
  have hstarted' : m'.state.started = false := by rw [hstate', hstarted]
  have hends := ends_of_sameButLimit hsame hstate' hstarted
    (by rw [hlimit, hstate]; exact Int.le_of_lt hd) hlast
  rw [hlimit] at hends
  refine ⟨m', hnew, ?_, ?_⟩
  · intro hk
    exact (hends.1 hk).iff_eq hstarted'
  · intro hk
    obtain ⟨f, s, hkind, hstatus, hfault⟩ := hends.2 hk
    exact ⟨f, s, hkind, hstatus, hfault.iff_eq hstarted'⟩

end Machine

namespace Sample

/-- The factorial of two goes three calls deep, so that a limit of three changes nothing and
a limit of two cuts it off. -/
theorem factorial_cut_off :
    ∃ c m last, factorial.compile = .ok c ∧ Machine.new c.linear ⟨96, 10, false⟩ = .ok m ∧
      m.Ends entryName 2 (.ok 2, last) ∧ last.state.stats.maxDepth = 3 ∧
      (∃ m', Machine.new c.linear ⟨96, 3, false⟩ = .ok m' ∧
        m'.Ends entryName 2 (.ok 2, ⟨m'.setup, last.state⟩)) ∧
      ∃ m' f s, Machine.new c.linear ⟨96, 2, false⟩ = .ok m' ∧ f.kind = .stackOverflow ∧
        m'.Ends entryName 2 (.error (.stopped (.fault f)), ⟨m'.setup, s⟩) := by
  have hrun : (factorial.compile.toOption.bind fun c =>
      (Machine.new c.linear ⟨96, 10, false⟩).toOption.map fun m =>
        decide ((m.run 20 entryName 2).1.toOption = some 2 ∧
          (m.run 20 entryName 2).2.state.stats.maxDepth = 3)) = some true := by
    decide +kernel
  obtain ⟨c, hc, hrun⟩ := Outcome.of_toOption_bind hrun
  obtain ⟨m, hm, hrun⟩ := Outcome.of_toOption_map hrun
  obtain ⟨hvalue, hdepth⟩ := of_decide_eq_true hrun
  have hlast : m.Ends entryName 2 (.ok 2, (m.run 20 entryName 2).2) := by
    refine ⟨20, ?_, by rintro ⟨⟩⟩
    rw [← Outcome.of_toOption hvalue]
  obtain ⟨m₃, hm₃, hsame, -⟩ := Machine.depth_limit_cuts hm hlast (d := 3) (by decide)
  obtain ⟨m₂, hm₂, -, hcut⟩ := Machine.depth_limit_cuts hm hlast (d := 2) (by decide)
  obtain ⟨f, s, hkind, -, hends⟩ := hcut (by rw [hdepth]; decide)
  exact ⟨c, m, _, hc, hm, hlast, hdepth, ⟨m₃, hm₃, (hsame (by rw [hdepth]; decide) _).2 rfl⟩,
    m₂, f, s, hm₂, hkind, (hends _).2 rfl⟩

end Sample

end TreeCode
