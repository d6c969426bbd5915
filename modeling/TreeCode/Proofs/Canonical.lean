/-
# Canonical programs

The shape of a program in linear form. Its functions are flat lists of instructions
without statements inside them, its chunks are the sequences of these lists, and the
labels of a list are found where they are placed.

Calls are another matter. Lifting moves an operand into a temp of its own if it *is* a
call. An operand that only ends in a call, after some statements, is not seen to be one,
and the call stays where it is. If no operand ends in a call in this way, then calls
stand on the top of an instruction only.
-/

import TreeCode.Proofs.Index

namespace TreeCode

open IR (Chunk Expr Fresh Lifted MoveSource Stmt)

namespace IR

/-- The frame of a code chunk. -/
def Chunk.frame? : Chunk → Option Frame
  | .code frame _ => some frame
  | .data _ _ _ => none

/-- Every code chunk gets the canonical form of its body. -/
theorem Chunk.mem_canonicalAll {frame : Frame} {code : Stmt} {chunks : List Chunk} {n : Nat}
    (h : .code frame code ∈ (Chunk.canonicalAll chunks n).1) :
    ∃ body m, .code frame body ∈ chunks ∧ code = .seq (body.lift m).1.flatten := by
  induction chunks generalizing n with
  | nil => cases h
  | cons c rest ih =>
    cases c with
    | data l size init =>
      cases h with
      | tail _ h =>
        obtain ⟨body, m, hmem, hcode⟩ := ih h
        exact ⟨body, m, List.mem_cons_of_mem _ hmem, hcode⟩
    | code frame' body' =>
      cases h with
      | head => exact ⟨body', n, List.mem_cons_self, rfl⟩
      | tail _ h =>
        obtain ⟨body, m, hmem, hcode⟩ := ih h
        exact ⟨body, m, List.mem_cons_of_mem _ hmem, hcode⟩

theorem Chunk.frames_canonicalAll (chunks : List Chunk) : ∀ n : Nat,
    (Chunk.canonicalAll chunks n).1.filterMap Chunk.frame? = chunks.filterMap Chunk.frame? := by
  induction chunks with
  | nil => exact fun _ => rfl
  | cons c rest ih =>
    cases c with
    | code frame body => exact fun n => congrArg (frame :: ·) (ih _)
    | data l size init => exact fun n => ih n

end IR

namespace Program

theorem frames_functionsOf (chunks : List Chunk) :
    (functionsOf chunks).map (·.frame) = chunks.filterMap Chunk.frame? := by
  induction chunks with
  | nil => rfl
  | cons c rest ih =>
    cases c with
    | code frame body => exact congrArg (frame :: ·) ih
    | data l size init => exact ih

/-- A function of a program in linear form comes from lifting the body of a chunk. -/
theorem exists_lift_of_mem_functions {chunks : List Chunk} {n : Nat} {p : Program}
    (h : ofChunks (Chunk.canonicalAll chunks n).1 = .ok p) {f : Function} (hf : f ∈ p.functions) :
    ∃ body m, .code f.frame body ∈ chunks ∧ f.body.toList = (body.lift m).1.flatten ∧
      .code f.frame (.seq f.body.toList) ∈ p.chunks := by
  obtain ⟨code, hcode, hbody⟩ := exists_code_of_mem_functions h hf
  obtain ⟨body, m, hmem, rfl⟩ := Chunk.mem_canonicalAll hcode
  have hlist : f.body.toList = (body.lift m).1.flatten := by
    rw [hbody]
    exact Stmt.flattenAll_flatten (body.lift m).1
  refine ⟨body, m, hmem, hlist, ?_⟩
  rw [hlist]
  cases ofChunks_eq_ok h
  exact hcode

/-- A program whose functions are flat lists of plain instructions. -/
structure Flat (p : Program) : Prop where
  /-- Instructions have no statement inside them and move to memory or to temps. -/
  plain : ∀ f ∈ p.functions, Stmt.PlainCode f.body.toList
  /-- Every function has a chunk, whose body is the sequence of its instructions. -/
  chunk : ∀ f ∈ p.functions, .code f.frame (.seq f.body.toList) ∈ p.chunks
  /-- Every code chunk is that of a function. -/
  function : ∀ frame body, .code frame body ∈ p.chunks →
    ∃ f ∈ p.functions, f.frame = frame ∧ body = .seq f.body.toList
  /-- Every label that is placed has a position, and is placed there. -/
  position : ∀ f ∈ p.functions, ∀ l, .label l ∈ f.body.toList →
    ∃ i, f.body.position? l = some i ∧ f.body[i]? = some (.label l)

/-- Chunks whose moves all go to targets become a flat program with the same frames. -/
theorem flat_of_canonicalAll {chunks : List Chunk} {n : Nat} {p : Program}
    (hp : ofChunks (Chunk.canonicalAll chunks n).1 = .ok p)
    (haimed : ∀ frame body, .code frame body ∈ chunks → body.aimed = true) :
    p.Flat ∧ p.functions.map (·.frame) = chunks.filterMap Chunk.frame? := by
  have hframes : p.functions.map (·.frame) = chunks.filterMap Chunk.frame? := by
    cases ofChunks_eq_ok hp
    rw [frames_functionsOf, Chunk.frames_canonicalAll]
  refine ⟨⟨fun f hf => ?_, fun f hf => ?_, fun frame body hcode => ?_, fun f hf l hl => ?_⟩,
    hframes⟩
  · obtain ⟨body, m, hmem, hlist, -⟩ := exists_lift_of_mem_functions hp hf
    rw [hlist]
    exact Stmt.plain_lift (haimed f.frame body hmem) m
  · obtain ⟨-, -, -, -, hchunk⟩ := exists_lift_of_mem_functions hp hf
    exact hchunk
  · have hcode' : .code frame body ∈ (Chunk.canonicalAll chunks n).1 := by
      cases ofChunks_eq_ok hp
      exact hcode
    refine ⟨_, mem_functions_of_code hp hcode', rfl, ?_⟩
    obtain ⟨tree, m, -, rfl⟩ := Chunk.mem_canonicalAll hcode'
    exact congrArg Stmt.seq (Stmt.flattenAll_flatten (tree.lift m).1).symm
  · obtain ⟨i, hi⟩ := List.mem_iff_getElem?.1 hl
    obtain ⟨j, hj⟩ := Block.exists_position? (b := f.body) (by rw [← Array.getElem?_toList, hi])
    exact ⟨j, hj, (Block.position?_eq_some.1 hj).1⟩

/-- A function whose only instruction stores the sum of a call and a loop's result to an
address that a call yields, through two statements before the target. -/
def tangled : List Chunk :=
  [.data (.ofName "x") 8 [],
    .code ⟨.ofName "f", 1, [8], 24, 16⟩
      (.seq [.absent,
        .move
          (.eseq (.seq [.label (.ofName "L0"), .absent])
            (.mem (.eseq (.move (.temp ⟨2⟩) (.call (.ofName "f") [.const 0, .const 1]))
              (.binop .add (.name (.ofName "x")) (.temp ⟨2⟩)))))
          (.binop .add
            (.call (.ofName "f") [.const 0, .call (.ofName "f") [.const 0, .const 2]])
            (.eseq (.seq [.cjump (.temp ⟨2⟩) (.ofName "L0") (.ofName "L1"),
              .label (.ofName "L1")]) (.const 1)))])]

theorem flat_tangled :
    ∃ p, ofChunks (Chunk.canonicalAll tangled 3).1 = .ok p ∧ p.Flat ∧
      p.functions.map (·.body.size) = [9] := by
  have hp : ofChunks (Chunk.canonicalAll tangled 3).1 = .ok _ := rfl
  refine ⟨_, hp, (flat_of_canonicalAll hp fun frame body h => ?_).1, rfl⟩
  obtain ⟨-, rfl⟩ : _ ∧ _ := by simpa [tangled] using h
  rfl

end Program

namespace IR

/-- Whether an expression holds neither a call nor a statement. -/
def Expr.callFree : Expr → Bool
  | .const _ => true
  | .name _ => true
  | .temp _ => true
  | .mem a => a.callFree
  | .binop _ x y => x.callFree && y.callFree
  | .unop _ x => x.callFree
  | .call _ _ => false
  | .eseq _ _ => false

/-- Whether an expression is free of calls, or is a call whose arguments are. -/
def Expr.callOnTop : Expr → Bool
  | .call _ args => args.all Expr.callFree
  | e => e.callFree

/-- Whether a call stands in an instruction only as the whole source of a move into a
temp, or as the whole expression that is evaluated. -/
def Stmt.callsOnTop : Stmt → Bool
  | .exp e => e.callOnTop
  | .move (.temp _) e => e.callOnTop
  | .move d e => d.callFree && e.callFree
  | .cjump c _ _ => c.callFree
  | .jump _ => true
  | .label _ => true
  | .seq _ => false
  | .absent => false

/-- Whether the value of an expression is that of a call. -/
def Expr.endsInCall : Expr → Bool
  | .call _ _ => true
  | .eseq _ e => e.endsInCall
  | _ => false

/-- Whether an operand that ends in a call is that call. -/
def Expr.isOpen (e : Expr) : Bool :=
  e.isCall || !e.endsInCall

/-- Whether an expression is a temp, apart from statements before it. -/
def Expr.endsInTemp : Expr → Bool
  | .temp _ => true
  | .eseq _ e => e.endsInTemp
  | _ => false

mutual

/-- Whether every operand inside an expression is open. -/
def Expr.allOpen : Expr → Bool
  | .const _ => true
  | .name _ => true
  | .temp _ => true
  | .mem a => a.isOpen && a.allOpen
  | .binop _ x y => (x.isOpen && x.allOpen) && (y.isOpen && y.allOpen)
  | .unop _ x => x.isOpen && x.allOpen
  | .call _ args => Expr.argsOpen args
  | .eseq s e => s.allOpen && e.allOpen

/-- Whether the arguments of a call are open, and every operand inside them. -/
def Expr.argsOpen : List Expr → Bool
  | [] => true
  | e :: es => (e.isOpen && e.allOpen) && Expr.argsOpen es

/-- Whether every operand inside a statement is open. What is moved into memory is an
operand; what is moved into a temp is none. -/
def Stmt.allOpen : Stmt → Bool
  | .absent => true
  | .exp e => e.allOpen
  | .move d e => d.allOpen && (d.endsInTemp || e.isOpen) && e.allOpen
  | .seq ss => Stmt.listOpen ss
  | .cjump c _ _ => c.isOpen && c.allOpen
  | .jump _ => true
  | .label _ => true

/-- Whether every operand inside the statements of a list is open. -/
def Stmt.listOpen : List Stmt → Bool
  | [] => true
  | s :: ss => s.allOpen && Stmt.listOpen ss

end

/-- Instructions with calls on their tops only. -/
def Stmt.TopCalls (code : List Stmt) : Prop :=
  ∀ s ∈ code, s.callsOnTop = true

namespace Stmt.TopCalls

theorem nil : TopCalls [] :=
  fun _ hs => absurd hs List.not_mem_nil

theorem single {s : Stmt} (h : s.callsOnTop = true) : TopCalls [s] :=
  fun _ hs => List.mem_singleton.1 hs ▸ h

theorem andThen {a b : Stmt} (ha : TopCalls a.flatten) (hb : TopCalls b.flatten) :
    TopCalls (a.andThen b).flatten :=
  Stmt.forall_mem_andThen ha hb

end Stmt.TopCalls

theorem Expr.callOnTop_of_callFree {e : Expr} (h : e.callFree = true) : e.callOnTop = true := by
  cases e with
  | call f args => cases h
  | _ => exact h

namespace Lifted

/-- Lifted code whose value is a call on top at most. -/
structure TopCalls (x : Lifted) : Prop where
  pre : Stmt.TopCalls x.pre.flatten
  value : x.value.callOnTop = true

/-- Lifted code whose value is free of calls, as that of an operand is. -/
structure FreeValue (x : Lifted) : Prop where
  pre : Stmt.TopCalls x.pre.flatten
  value : x.value.callFree = true

/-- Lifting an expression leaves a call on top only if the expression ends in one. -/
structure Surfaces (e : Expr) (lifted : Fresh Lifted) : Prop where
  top : ∀ n, (lifted n).1.TopCalls
  free : e.endsInCall = false → ∀ n, (lifted n).1.value.callFree = true

theorem FreeValue.surfaces {e : Expr} {lifted : Fresh Lifted} (h : ∀ n, (lifted n).1.FreeValue) :
    Surfaces e lifted :=
  ⟨fun n => ⟨(h n).pre, Expr.callOnTop_of_callFree (h n).value⟩, fun _ n => (h n).value⟩

/-- An open operand is free of calls once it is lifted. -/
theorem Surfaces.operand {e : Expr} {lifted : Fresh Lifted} (h : Surfaces e lifted)
    (hopen : e.isOpen = true) (n : Nat) : (Lifted.operand e lifted n).1.FreeValue := by
  by_cases hcall : e.isCall = true
  · rw [operand_of_call hcall]
    exact ⟨(h.top (n + 1)).pre.andThen (.single (h.top (n + 1)).value), rfl⟩
  · rw [operand_of_not_call hcall]
    rw [Expr.isOpen, Bool.or_eq_true, Bool.not_eq_true'] at hopen
    exact ⟨(h.top n).pre, h.free (hopen.resolve_left hcall) n⟩

theorem FreeValue.before {x : Lifted} {later : Stmt} (hx : x.FreeValue)
    (hlater : Stmt.TopCalls later.flatten) (n : Nat) : (x.before later n).1.FreeValue := by
  by_cases hcomm : later.commutes x.value = true
  · rw [before_of_commutes hcomm]
    exact ⟨hx.pre.andThen hlater, hx.value⟩
  · rw [before_of_not_commutes hcomm]
    exact ⟨(hx.pre.andThen (b := .move (.temp ⟨n⟩) x.value)
      (.single (Expr.callOnTop_of_callFree hx.value))).andThen hlater, rfl⟩

end Lifted

mutual

theorem Expr.surfaces_lift : ∀ {e : Expr}, e.aimed = true → e.allOpen = true →
    Lifted.Surfaces e e.lift
  | .const _, _, _ | .name _, _, _ | .temp _, _, _ => Lifted.FreeValue.surfaces fun _ => ⟨.nil, rfl⟩
  | .mem a, haimed, h => by
    rw [Expr.allOpen, Bool.and_eq_true] at h
    have ha := (Expr.surfaces_lift (e := a) haimed h.2).operand h.1
    exact Lifted.FreeValue.surfaces fun n => ⟨(ha n).pre, (ha n).value⟩
  | .unop _ x, haimed, h => by
    rw [Expr.allOpen, Bool.and_eq_true] at h
    have hx := (Expr.surfaces_lift (e := x) haimed h.2).operand h.1
    exact Lifted.FreeValue.surfaces fun n => ⟨(hx n).pre, (hx n).value⟩
  | .binop op x y, haimed, h => by
    simp only [Expr.aimed, Expr.allOpen, Bool.and_eq_true] at haimed h
    refine Lifted.FreeValue.surfaces fun n => ?_
    have hx := (Expr.surfaces_lift haimed.1 h.1.2).operand h.1.1 n
    have hy := (Expr.surfaces_lift haimed.2 h.2.2).operand h.2.1 (x.liftOperand n).2
    have hz := hx.before hy.pre (y.liftOperand (x.liftOperand n).2).2
    rw [Expr.lift_binop]
    exact ⟨hz.pre, Bool.and_eq_true_iff.2 ⟨hz.value, hy.value⟩⟩
  | .call f args, haimed, h => by
    have hargs := Expr.topCalls_liftAll (l := args) haimed h
    exact ⟨fun n => ⟨(hargs n).1, (hargs n).2⟩, fun hend => by cases hend⟩
  | .eseq s e, haimed, h => by
    simp only [Expr.aimed, Expr.allOpen, Bool.and_eq_true] at haimed h
    have hs := Stmt.topCalls_lift haimed.1 h.1
    have he := Expr.surfaces_lift haimed.2 h.2
    exact ⟨fun n => ⟨(hs n).andThen (he.top (s.lift n).2).pre, (he.top (s.lift n).2).value⟩,
      fun hend n => he.free hend (s.lift n).2⟩

theorem Expr.topCalls_liftAll : ∀ {l : List Expr}, Expr.aimedAll l = true →
    Expr.argsOpen l = true → ∀ n,
    Stmt.TopCalls (Expr.liftAll l n).1.1.flatten ∧
      (Expr.liftAll l n).1.2.all Expr.callFree = true
  | [], _, _, _ => ⟨.nil, rfl⟩
  | e :: es, haimed, h, n => by
    simp only [Expr.aimedAll, Expr.argsOpen, Bool.and_eq_true] at haimed h
    have he := (Expr.surfaces_lift haimed.1 h.1.2).operand h.1.1 n
    have hes := Expr.topCalls_liftAll haimed.2 h.2 (e.liftOperand n).2
    have hz := he.before hes.1 (Expr.liftAll es (e.liftOperand n).2).2
    rw [Expr.liftAll_cons]
    refine ⟨hz.pre, ?_⟩
    rw [List.all_cons, Bool.and_eq_true]
    exact ⟨hz.value, hes.2⟩

/-- A move into a target is lifted to calls on top if its source is. -/
theorem Expr.topCalls_liftMove {s : MoveSource} (hsource : Lifted.Surfaces s.plain s.lifted) :
    ∀ {d : Expr}, d.isTarget = true → d.aimed = true → d.allOpen = true →
    (d.endsInTemp || s.plain.isOpen) = true → ∀ n,
    Stmt.TopCalls (d.liftMove s n).1.flatten
  | .temp t, _, _, _, _, n => (hsource.top n).pre.andThen (.single (hsource.top n).value)
  | .mem a, _, haimed, h, hopen, n => by
    rw [Expr.allOpen, Bool.and_eq_true] at h
    have ha := (Expr.surfaces_lift (e := a) haimed h.2).operand h.1 n
    have hv := hsource.operand hopen (a.liftOperand n).2
    have hz := ha.before hv.pre (Lifted.operand s.plain s.lifted (a.liftOperand n).2).2
    rw [Expr.liftMove_mem]
    exact hz.pre.andThen (.single (Bool.and_eq_true_iff.2 ⟨hz.value, hv.value⟩))
  | .eseq first d, htarget, haimed, h, hopen, n => by
    simp only [Expr.aimed, Expr.allOpen, Bool.and_eq_true] at haimed h
    have hfirst := Stmt.topCalls_lift haimed.1 h.1 n
    have hd := Expr.topCalls_liftMove hsource (d := d) htarget haimed.2 h.2 hopen
      (first.lift n).2
    exact hfirst.andThen hd

/-- Lifting brings calls to the top if no operand hides one. -/
theorem Stmt.topCalls_lift : ∀ {s : Stmt}, s.aimed = true → s.allOpen = true →
    ∀ n, Stmt.TopCalls (s.lift n).1.flatten
  | .absent, _, _, _ => .nil
  | .exp e, haimed, h, n => by
    have he := (Expr.surfaces_lift (e := e) haimed h).top n
    exact he.pre.andThen (.single he.value)
  | .move d e, haimed, h, n => by
    simp only [Stmt.aimed, Stmt.allOpen, Bool.and_eq_true] at haimed h
    exact Expr.topCalls_liftMove (s := ⟨e, e.lift⟩) (Expr.surfaces_lift haimed.2 h.2)
      haimed.1.1 haimed.1.2 h.1.1 h.1.2 n
  | .seq ss, haimed, h, n => Stmt.topCalls_liftAll (l := ss) haimed h n
  | .cjump c t f, haimed, h, n => by
    rw [Stmt.allOpen, Bool.and_eq_true] at h
    have hc := (Expr.surfaces_lift (e := c) haimed h.2).operand h.1 n
    exact hc.pre.andThen (.single hc.value)
  | .jump _, _, _, _ | .label _, _, _, _ => .single rfl

theorem Stmt.topCalls_liftAll : ∀ {l : List Stmt}, Stmt.aimedAll l = true →
    Stmt.listOpen l = true → ∀ n, Stmt.TopCalls (Stmt.liftAll l n).1.flatten
  | [], _, _, _ => .nil
  | s :: ss, haimed, h, n => by
    simp only [Stmt.aimedAll, Stmt.listOpen, Bool.and_eq_true] at haimed h
    have hs := Stmt.topCalls_lift haimed.1 h.1 n
    have hss := Stmt.topCalls_liftAll haimed.2 h.2 (s.lift n).2
    exact hs.andThen hss

end

end IR

namespace Program

/-- Calls stand on top in a program in linear form, if its chunks hide none: each is the
whole source of a move into a temp, or the whole of an evaluated expression. -/
theorem topCalls_of_canonicalAll {chunks : List Chunk} {n : Nat} {p : Program}
    (hp : ofChunks (Chunk.canonicalAll chunks n).1 = .ok p)
    (haimed : ∀ frame body, .code frame body ∈ chunks → body.aimed = true)
    (hopen : ∀ frame body, .code frame body ∈ chunks → body.allOpen = true) :
    ∀ f ∈ p.functions, Stmt.TopCalls f.body.toList := by
  intro f hf
  obtain ⟨body, m, hmem, hlist, -⟩ := exists_lift_of_mem_functions hp hf
  rw [hlist]
  exact Stmt.topCalls_lift (haimed f.frame body hmem) (hopen f.frame body hmem) m

theorem topCalls_tangled :
    ∃ p, ofChunks (Chunk.canonicalAll tangled 3).1 = .ok p ∧
      ∀ f ∈ p.functions, Stmt.TopCalls f.body.toList := by
  have hp : ofChunks (Chunk.canonicalAll tangled 3).1 = .ok _ := rfl
  refine ⟨_, hp, topCalls_of_canonicalAll hp (fun frame body h => ?_) fun frame body h => ?_⟩
  all_goals
    obtain ⟨-, rfl⟩ : _ ∧ _ := by simpa [tangled] using h
    rfl

/-- A function that loads from an address: that of a call, after a statement. -/
def hiddenCall : List Chunk :=
  [.code ⟨.ofName "f", 1, [], 16, 8⟩
    (.exp (.mem (.eseq (.exp (.const 1)) (.call (.ofName "f") [.const 0]))))]

/-- The condition on operands is needed: a call behind a statement stays in the address
that it yields, although every move goes to a target. -/
theorem hiddenCall_stays :
    (∀ frame body, .code frame body ∈ hiddenCall → body.aimed = true) ∧
      ∃ p, ofChunks (Chunk.canonicalAll hiddenCall 2).1 = .ok p ∧
        ∃ f ∈ p.functions, ¬ Stmt.TopCalls f.body.toList := by
  refine ⟨fun frame body h => ?_, _, rfl, _, List.mem_singleton.2 rfl, fun htop => ?_⟩
  · obtain ⟨-, rfl⟩ : _ ∧ _ := by simpa [hiddenCall] using h
    rfl
  · have hload := htop (.exp (.mem (.call (.ofName "f") [.const 0])))
      (List.mem_cons_of_mem _ List.mem_cons_self)
    cases hload

end Program

end TreeCode
