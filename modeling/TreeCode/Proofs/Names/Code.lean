/-
# Code that is alike

Two pieces of code are alike if they differ in labels only, and only by labels that were
drawn at the same moment. Canonical form never looks at a label, so code that is alike has
canonical forms that are alike, with the same temps.
-/

import TreeCode.IR.Canonical
import TreeCode.Proofs.Names.Draws

namespace TreeCode.IR

mutual

/-- An expression and the same one with the labels of the other side. -/
def Expr.Alike (D : Draws) : Expr → Expr → Prop
  | .const n, e => e = .const n
  | .name l, e => ∃ m, e = .name m ∧ ⟨.data, l, m⟩ ∈ D
  | .temp t, e => e = .temp t
  | .mem a, e => ∃ b, e = .mem b ∧ a.Alike D b
  | .binop op x y, e => ∃ x' y', e = .binop op x' y' ∧ x.Alike D x' ∧ y.Alike D y'
  | .unop op x, e => ∃ x', e = .unop op x' ∧ x.Alike D x'
  | .call l args, e => ∃ m args', e = .call m args' ∧ ⟨.code, l, m⟩ ∈ D ∧ Expr.AlikeAll D args args'
  | .eseq s x, e => ∃ s' x', e = .eseq s' x' ∧ s.Alike D s' ∧ x.Alike D x'
termination_by structural x => x

/-- Lists of expressions that are alike. -/
def Expr.AlikeAll (D : Draws) : List Expr → List Expr → Prop
  | [], es => es = []
  | x :: xs, es => ∃ y ys, es = y :: ys ∧ x.Alike D y ∧ Expr.AlikeAll D xs ys
termination_by structural xs => xs

/-- A statement and the same one with the labels of the other side. -/
def Stmt.Alike (D : Draws) : Stmt → Stmt → Prop
  | .absent, s => s = .absent
  | .exp e, s => ∃ e', s = .exp e' ∧ e.Alike D e'
  | .move a v, s => ∃ a' v', s = .move a' v' ∧ a.Alike D a' ∧ v.Alike D v'
  | .seq ss, s => ∃ ss', s = .seq ss' ∧ Stmt.AlikeAll D ss ss'
  | .cjump c l m, s => ∃ c' l' m', s = .cjump c' l' m' ∧ c.Alike D c' ∧ ⟨.jump, l, l'⟩ ∈ D ∧
      ⟨.jump, m, m'⟩ ∈ D
  | .jump l, s => ∃ l', s = .jump l' ∧ ⟨.jump, l, l'⟩ ∈ D
  | .label l, s => ∃ l', s = .label l' ∧ ⟨.jump, l, l'⟩ ∈ D
termination_by structural s => s

/-- Lists of statements that are alike. -/
def Stmt.AlikeAll (D : Draws) : List Stmt → List Stmt → Prop
  | [], ss => ss = []
  | x :: xs, ss => ∃ y ys, ss = y :: ys ∧ x.Alike D y ∧ Stmt.AlikeAll D xs ys
termination_by structural ss => ss

end

variable {D E : Draws}

mutual

/-- What is drawn later does no harm. -/
theorem Expr.Alike.mono (hsub : D ⊆ E) : ∀ {x y : Expr}, x.Alike D y → x.Alike E y
  | .const _, _, h => h
  | .name _, _, ⟨m, h, hm⟩ => ⟨m, h, hsub hm⟩
  | .temp _, _, h => h
  | .mem _, _, ⟨b, h, hb⟩ | .unop _ _, _, ⟨b, h, hb⟩ => ⟨b, h, Expr.Alike.mono hsub hb⟩
  | .binop _ _ _, _, ⟨x, y, h, hx, hy⟩ =>
    ⟨x, y, h, Expr.Alike.mono hsub hx, Expr.Alike.mono hsub hy⟩
  | .call _ _, _, ⟨m, args, h, hm, hargs⟩ => ⟨m, args, h, hsub hm, Expr.AlikeAll.mono hsub hargs⟩
  | .eseq _ _, _, ⟨s, x, h, hs, hx⟩ => ⟨s, x, h, Stmt.Alike.mono hsub hs, Expr.Alike.mono hsub hx⟩
termination_by structural x => x

theorem Expr.AlikeAll.mono (hsub : D ⊆ E) : ∀ {xs ys : List Expr},
    Expr.AlikeAll D xs ys → Expr.AlikeAll E xs ys
  | [], _, h => h
  | _ :: _, _, ⟨y, ys, h, hy, hys⟩ =>
    ⟨y, ys, h, Expr.Alike.mono hsub hy, Expr.AlikeAll.mono hsub hys⟩
termination_by structural x => x

theorem Stmt.Alike.mono (hsub : D ⊆ E) : ∀ {s t : Stmt}, s.Alike D t → s.Alike E t
  | .absent, _, h => h
  | .exp _, _, ⟨e, h, he⟩ => ⟨e, h, Expr.Alike.mono hsub he⟩
  | .move _ _, _, ⟨a, v, h, ha, hv⟩ =>
    ⟨a, v, h, Expr.Alike.mono hsub ha, Expr.Alike.mono hsub hv⟩
  | .seq _, _, ⟨ss, h, hss⟩ => ⟨ss, h, Stmt.AlikeAll.mono hsub hss⟩
  | .cjump _ _ _, _, ⟨c, l, m, h, hc, hl, hm⟩ =>
    ⟨c, l, m, h, Expr.Alike.mono hsub hc, hsub hl, hsub hm⟩
  | .jump _, _, ⟨l, h, hl⟩ | .label _, _, ⟨l, h, hl⟩ => ⟨l, h, hsub hl⟩
termination_by structural x => x

theorem Stmt.AlikeAll.mono (hsub : D ⊆ E) : ∀ {ss ts : List Stmt},
    Stmt.AlikeAll D ss ts → Stmt.AlikeAll E ss ts
  | [], _, h => h
  | _ :: _, _, ⟨y, ys, h, hy, hys⟩ =>
    ⟨y, ys, h, Stmt.Alike.mono hsub hy, Stmt.AlikeAll.mono hsub hys⟩
termination_by structural x => x

end

namespace Stmt

theorem AlikeAll.append : ∀ {ss ss' ts ts' : List Stmt}, AlikeAll D ss ts → AlikeAll D ss' ts' →
    AlikeAll D (ss ++ ss') (ts ++ ts')
  | [], _, _, _, h, h' => by
    cases h
    exact h'
  | _ :: _, _, _, _, ⟨t, ts, h, ht, hts⟩, h' => by
    cases h
    exact ⟨t, ts ++ _, rfl, ht, hts.append h'⟩

theorem AlikeAll.getElem? : ∀ {ss ts : List Stmt}, AlikeAll D ss ts → ∀ i : Nat,
    (ss[i]? = none ∧ ts[i]? = none) ∨
      ∃ s t, ss[i]? = some s ∧ ts[i]? = some t ∧ s.Alike D t
  | [], _, h, _ => by
    cases h
    exact .inl ⟨rfl, rfl⟩
  | s :: _, _, ⟨t, _, h, ht, _⟩, 0 => by
    cases h
    exact .inr ⟨s, t, rfl, rfl, ht⟩
  | _ :: _, _, ⟨_, _, h, _, hts⟩, i + 1 => by
    cases h
    simpa using hts.getElem? i

theorem AlikeAll.length_eq : ∀ {ss ts : List Stmt}, AlikeAll D ss ts → ts.length = ss.length
  | [], _, h => by
    cases h
    rfl
  | _ :: _, _, ⟨_, _, h, _, hts⟩ => by
    cases h
    exact congrArg (· + 1) hts.length_eq

mutual

theorem Alike.isNop_eq : ∀ {s t : Stmt}, s.Alike D t → t.isNop = s.isNop
  | .absent, _, h | .exp _, _, ⟨_, h, _⟩ | .move _ _, _, ⟨_, _, h, _, _⟩ => by cases h; rfl
  | .seq _, _, ⟨_, h, hss⟩ => by cases h; exact hss.allNop_eq
  | .cjump _ _ _, _, ⟨_, _, _, h, _, _, _⟩ | .jump _, _, ⟨_, h, _⟩ | .label _, _, ⟨_, h, _⟩ =>
    by cases h; rfl
termination_by structural s => s

theorem AlikeAll.allNop_eq : ∀ {ss ts : List Stmt}, AlikeAll D ss ts → allNop ts = allNop ss
  | [], _, h => by cases h; rfl
  | _ :: _, _, ⟨_, _, h, ht, hts⟩ => by
    cases h
    rw [allNop, allNop, ht.isNop_eq, hts.allNop_eq]
termination_by structural s => s

end

mutual

theorem Alike.flatten : ∀ {s t : Stmt}, s.Alike D t → AlikeAll D s.flatten t.flatten
  | .absent, _, h => by cases h; rfl
  | .move _ _, _, ⟨a, v, h, ha, hv⟩ => by cases h; exact ⟨_, [], rfl, ⟨a, v, rfl, ha, hv⟩, rfl⟩
  | .seq _, _, ⟨_, h, hss⟩ => by cases h; exact hss.flattenAll
  | .cjump _ _ _, _, ⟨c, l, m, h, hc⟩ => by cases h; exact ⟨_, [], rfl, ⟨c, l, m, rfl, hc⟩, rfl⟩
  | .exp _, _, ⟨l, h, hl⟩ | .jump _, _, ⟨l, h, hl⟩ | .label _, _, ⟨l, h, hl⟩ =>
    by cases h; exact ⟨_, [], rfl, ⟨l, rfl, hl⟩, rfl⟩
termination_by structural s => s

theorem AlikeAll.flattenAll : ∀ {ss ts : List Stmt}, AlikeAll D ss ts →
    AlikeAll D (Stmt.flattenAll ss) (Stmt.flattenAll ts)
  | [], _, h => by cases h; rfl
  | _ :: _, _, ⟨_, _, h, ht, hts⟩ => by
    cases h
    exact ht.flatten.append hts.flattenAll
termination_by structural s => s

end

theorem Alike.isAbsent_eq : ∀ {s t : Stmt}, s.Alike D t → t.isAbsent = s.isAbsent
  | .absent, _, h | .exp _, _, ⟨_, h, _⟩ | .move _ _, _, ⟨_, _, h, _, _⟩ | .seq _, _, ⟨_, h, _⟩
  | .cjump _ _ _, _, ⟨_, _, _, h, _, _, _⟩ | .jump _, _, ⟨_, h, _⟩ | .label _, _, ⟨_, h, _⟩ =>
    by cases h; rfl

theorem AlikeAll.join {ss ts : List Stmt} (h : AlikeAll D ss ts) : (join ss).Alike D (join ts) := by
  have hfilter : ∀ {ss ts : List Stmt}, AlikeAll D ss ts →
      AlikeAll D (ss.filter fun s => !s.isAbsent) (ts.filter fun s => !s.isAbsent) := by
    intro ss
    induction ss with
    | nil =>
      intro ts h
      cases h
      rfl
    | cons s rest ih =>
      rintro ts ⟨t, ts, rfl, ht, hts⟩
      rw [List.filter_cons, List.filter_cons, ht.isAbsent_eq]
      split
      · exact ⟨t, _, rfl, ht, ih hts⟩
      · exact ih hts
  have hkept := hfilter h
  unfold Stmt.join
  generalize (ss.filter fun s => !s.isAbsent) = xs at hkept
  generalize (ts.filter fun s => !s.isAbsent) = ys at hkept
  match xs, hkept with
  | [], hkept =>
    cases hkept
    exact ⟨_, rfl, rfl⟩
  | [x], ⟨y, _, hy, hxy, hnil⟩ =>
    cases hy
    cases hnil
    exact hxy
  | x :: x' :: rest, ⟨y, _, hy, hxy, y', ys, hy', hrest⟩ =>
    cases hy
    cases hy'
    exact ⟨_, rfl, y, _, rfl, hxy, y', ys, rfl, hrest⟩

theorem Alike.andThen {a b a' b' : Stmt} (ha : a.Alike D a') (hb : b.Alike D b') :
    (a.andThen b).Alike D (a'.andThen b') := by
  unfold Stmt.andThen
  rw [ha.isNop_eq, hb.isNop_eq]
  split
  · exact hb
  split
  · exact ha
  · exact ⟨_, rfl, a', [b'], rfl, ha, b', [], rfl, hb, rfl⟩

end Stmt

namespace Expr

theorem Alike.isFixed_eq : ∀ {x y : Expr}, x.Alike D y → y.isFixed = x.isFixed
  | .const _, _, h | .name _, _, ⟨_, h, _⟩ | .temp _, _, h | .mem _, _, ⟨_, h, _⟩
  | .binop _ _ _, _, ⟨_, _, h, _, _⟩ | .unop _ _, _, ⟨_, h, _⟩ | .call _ _, _, ⟨_, _, h, _, _⟩
  | .eseq _ _, _, ⟨_, _, h, _, _⟩ => by cases h; rfl

theorem Alike.isCall_eq : ∀ {x y : Expr}, x.Alike D y → y.isCall = x.isCall
  | .const _, _, h | .name _, _, ⟨_, h, _⟩ | .temp _, _, h | .mem _, _, ⟨_, h, _⟩
  | .binop _ _ _, _, ⟨_, _, h, _, _⟩ | .unop _ _, _, ⟨_, h, _⟩ | .call _ _, _, ⟨_, _, h, _, _⟩
  | .eseq _ _, _, ⟨_, _, h, _, _⟩ => by cases h; rfl

end Expr

/-- What is lifted out is alike, and so is what is left. -/
structure Lifted.Alike (D : Draws) (a b : Lifted) : Prop where
  pre : a.pre.Alike D b.pre
  value : a.value.Alike D b.value

/-- Two liftings that draw the same temps and end alike. -/
def Fresh.Alike {α : Type} (A : α → α → Prop) (f g : Fresh α) : Prop :=
  ∀ n, A (f n).1 (g n).1 ∧ (g n).2 = (f n).2

namespace Lifted.Alike

theorem before {a b : Lifted} (h : a.Alike D b) {s t : Stmt} (hs : s.Alike D t) :
    Fresh.Alike (Lifted.Alike D) (a.before s) (b.before t) := by
  intro n
  unfold Lifted.before Stmt.commutes
  rw [hs.isNop_eq, h.value.isFixed_eq]
  split
  · exact ⟨⟨h.pre.andThen hs, h.value⟩, rfl⟩
  · have hmove : (Stmt.move (.temp ⟨n⟩) a.value).Alike D (.move (.temp ⟨n⟩) b.value) :=
      ⟨_, _, rfl, rfl, h.value⟩
    exact ⟨⟨(h.pre.andThen hmove).andThen hs, rfl⟩, rfl⟩

theorem operand {x y : Expr} (hxy : x.Alike D y) {f g : Fresh Lifted}
    (h : Fresh.Alike (Lifted.Alike D) f g) :
    Fresh.Alike (Lifted.Alike D) (Lifted.operand x f) (Lifted.operand y g) := by
  intro n
  unfold Lifted.operand
  rw [hxy.isCall_eq]
  split
  · obtain ⟨hlift, hnext⟩ := h (n + 1)
    exact ⟨⟨hlift.pre.andThen ⟨_, _, rfl, rfl, hlift.value⟩, rfl⟩, hnext⟩
  · exact h n

end Lifted.Alike

/-- The sources of two moves are alike, as they stand and when lifted. -/
structure MoveSource.Alike (D : Draws) (a b : MoveSource) : Prop where
  plain : a.plain.Alike D b.plain
  lifted : Fresh.Alike (Lifted.Alike D) a.lifted b.lifted

mutual

/-- Lifting does not look at labels. -/
theorem Expr.Alike.lift : ∀ {x y : Expr}, x.Alike D y →
    Fresh.Alike (Lifted.Alike D) x.lift y.lift
  | .const _, _, h | .temp _, _, h => by
    cases h
    exact fun n => ⟨⟨rfl, rfl⟩, rfl⟩
  | .name _, _, ⟨m, h, hm⟩ => by
    cases h
    exact fun n => ⟨⟨rfl, ⟨m, rfl, hm⟩⟩, rfl⟩
  | .mem _, _, ⟨b, h, hab⟩ | .unop _ _, _, ⟨b, h, hab⟩ => by
    cases h
    intro n
    obtain ⟨ha, hn⟩ := Lifted.Alike.operand hab hab.lift n
    exact ⟨⟨ha.pre, ⟨_, rfl, ha.value⟩⟩, hn⟩
  | .binop op x y, _, ⟨x', y', h, hx, hy⟩ => by
    cases h
    intro n
    obtain ⟨hlx, hnx⟩ := Lifted.Alike.operand hx hx.lift n
    obtain ⟨hly, hny⟩ := Lifted.Alike.operand hy hy.lift (Lifted.operand x x.lift n).2
    obtain ⟨hb, hnb⟩ := hlx.before hly.pre
      (Lifted.operand y y.lift (Lifted.operand x x.lift n).2).2
    simp only [Expr.lift, hnx, hny]
    exact ⟨⟨hb.pre, ⟨_, _, rfl, hb.value, hly.value⟩⟩, hnb⟩
  | .call l args, _, ⟨m, args', h, hm, hargs⟩ => by
    cases h
    intro n
    obtain ⟨⟨hpre, hvalues⟩, hn⟩ := hargs.liftAll n
    exact ⟨⟨hpre, ⟨m, _, rfl, hm, hvalues⟩⟩, hn⟩
  | .eseq s x, _, ⟨s', x', h, hs, hx⟩ => by
    cases h
    intro n
    obtain ⟨hls, hns⟩ := hs.lift n
    obtain ⟨hlx, hnx⟩ := hx.lift (s.lift n).2
    simp only [Expr.lift, hns]
    exact ⟨⟨hls.andThen hlx.pre, hlx.value⟩, hnx⟩
termination_by structural x => x

theorem Expr.AlikeAll.liftAll : ∀ {xs ys : List Expr}, Expr.AlikeAll D xs ys →
    Fresh.Alike (fun a b => a.1.Alike D b.1 ∧ Expr.AlikeAll D a.2 b.2)
      (Expr.liftAll xs) (Expr.liftAll ys)
  | [], _, h => by
    cases h
    exact fun n => ⟨⟨rfl, rfl⟩, rfl⟩
  | x :: xs, _, ⟨y, ys, h, hx, hxs⟩ => by
    cases h
    intro n
    obtain ⟨hlx, hnx⟩ := Lifted.Alike.operand hx hx.lift n
    obtain ⟨⟨hlater, hvalues⟩, hnxs⟩ := hxs.liftAll (Lifted.operand x x.lift n).2
    obtain ⟨hb, hnb⟩ := hlx.before hlater (Expr.liftAll xs (Lifted.operand x x.lift n).2).2
    simp only [Expr.liftAll, hnx, hnxs]
    exact ⟨⟨hb.pre, ⟨_, _, rfl, hb.value, hvalues⟩⟩, hnb⟩
termination_by structural x => x

theorem Expr.Alike.liftMove {a b : MoveSource} (hab : a.Alike D b) : ∀ {x y : Expr},
    x.Alike D y → Fresh.Alike (Stmt.Alike D) (x.liftMove a) (y.liftMove b)
  | .temp t, _, h => by
    cases h
    intro n
    obtain ⟨hv, hn⟩ := hab.lifted n
    exact ⟨hv.pre.andThen ⟨_, _, rfl, rfl, hv.value⟩, hn⟩
  | .mem x, _, ⟨y, h, hxy⟩ => by
    cases h
    intro n
    obtain ⟨hlx, hnx⟩ := Lifted.Alike.operand hxy hxy.lift n
    obtain ⟨hlv, hnv⟩ :=
      Lifted.Alike.operand hab.plain hab.lifted (Lifted.operand x x.lift n).2
    obtain ⟨hb, hnb⟩ := hlx.before hlv.pre
      (Lifted.operand a.plain a.lifted (Lifted.operand x x.lift n).2).2
    simp only [Expr.liftMove, hnx, hnv]
    exact ⟨hb.pre.andThen ⟨_, _, rfl, ⟨_, rfl, hb.value⟩, hlv.value⟩, hnb⟩
  | .eseq s x, _, ⟨s', x', h, hs, hx⟩ => by
    cases h
    intro n
    obtain ⟨hls, hns⟩ := hs.lift n
    obtain ⟨hm, hnm⟩ := hx.liftMove hab (s.lift n).2
    simp only [Expr.liftMove, hns]
    exact ⟨hls.andThen hm, hnm⟩
  | .const _, _, h => by
    cases h
    exact fun n => ⟨⟨_, _, rfl, rfl, hab.plain⟩, rfl⟩
  | .name _, _, ⟨m, h, hm⟩ | .unop _ _, _, ⟨m, h, hm⟩ => by
    cases h
    exact fun n => ⟨⟨_, _, rfl, ⟨m, rfl, hm⟩, hab.plain⟩, rfl⟩
  | .binop _ _ _, _, ⟨x, y, h, hxy⟩ | .call _ _, _, ⟨x, y, h, hxy⟩ => by
    cases h
    exact fun n => ⟨⟨_, _, rfl, ⟨x, y, rfl, hxy⟩, hab.plain⟩, rfl⟩
termination_by structural x => x

theorem Stmt.Alike.lift : ∀ {s t : Stmt}, s.Alike D t → Fresh.Alike (Stmt.Alike D) s.lift t.lift
  | .absent, _, h => by
    cases h
    exact fun n => ⟨rfl, rfl⟩
  | .exp _, _, ⟨e, h, he⟩ => by
    cases h
    intro n
    obtain ⟨hle, hn⟩ := he.lift n
    exact ⟨hle.pre.andThen ⟨_, rfl, hle.value⟩, hn⟩
  | .move _ v, _, ⟨a', v', h, ha, hv⟩ => by
    cases h
    exact ha.liftMove ⟨hv, hv.lift⟩
  | .seq _, _, ⟨_, h, hss⟩ => by
    cases h
    exact hss.liftAll
  | .cjump _ _ _, _, ⟨c, l, m, h, hc, hl, hm⟩ => by
    cases h
    intro n
    obtain ⟨hlc, hn⟩ := Lifted.Alike.operand hc hc.lift n
    exact ⟨hlc.pre.andThen ⟨_, l, m, rfl, hlc.value, hl, hm⟩, hn⟩
  | .jump _, _, ⟨l, h, hl⟩ | .label _, _, ⟨l, h, hl⟩ => by
    cases h
    exact fun n => ⟨⟨l, rfl, hl⟩, rfl⟩
termination_by structural x => x

theorem Stmt.AlikeAll.liftAll : ∀ {ss ts : List Stmt}, Stmt.AlikeAll D ss ts →
    Fresh.Alike (Stmt.Alike D) (Stmt.liftAll ss) (Stmt.liftAll ts)
  | [], _, h => by
    cases h
    exact fun n => ⟨rfl, rfl⟩
  | s :: _, _, ⟨t, ts, h, ht, hts⟩ => by
    cases h
    intro n
    obtain ⟨hls, hns⟩ := ht.lift n
    obtain ⟨hrest, hnrest⟩ := hts.liftAll (s.lift n).2
    simp only [Stmt.liftAll, hns]
    exact ⟨hls.andThen hrest, hnrest⟩
termination_by structural x => x

end

end TreeCode.IR

namespace TreeCode

/-- Frames that differ in their label only. -/
structure Frame.Alike (D : Draws) (f g : Frame) : Prop where
  label : ⟨.code, f.label, g.label⟩ ∈ D
  level : g.level = f.level
  params : g.params = f.params
  size : g.size = f.size
  linkOffset : g.linkOffset = f.linkOffset

namespace IR

/-- Chunks that are alike. -/
inductive Chunk.Alike (D : Draws) : Chunk → Chunk → Prop
  | code {f g : Frame} {s t : Stmt} : f.Alike D g → s.Alike D t → Alike D (.code f s) (.code g t)
  | data {l m : Label} {size : Word} {init : List UInt8} : ⟨.data, l, m⟩ ∈ D →
      Alike D (.data l size init) (.data m size init)

variable {D E : Draws}

theorem Chunk.Alike.mono (hsub : D ⊆ E) {c d : Chunk} (h : c.Alike D d) : c.Alike E d := by
  cases h with
  | code hf hs => exact .code { hf with label := hsub hf.label } (hs.mono hsub)
  | data hl => exact .data (hsub hl)

theorem Chunk.Alike.label {c d : Chunk} (h : c.Alike D d) : ∃ u, ⟨u, c.label, d.label⟩ ∈ D := by
  cases h with
  | code hf _ => exact ⟨.code, hf.label⟩
  | data hl => exact ⟨.data, hl⟩

/-- The canonical forms of chunks that are alike are alike. -/
theorem Chunk.alike_canonicalAll {cs ds : List Chunk} (h : List.Forall₂ (Chunk.Alike D) cs ds) :
    Fresh.Alike (List.Forall₂ (Chunk.Alike D)) (canonicalAll cs) (canonicalAll ds) := by
  induction h with
  | nil => exact fun n => ⟨.nil, rfl⟩
  | @cons c d cs ds hcd _ ih =>
    cases hcd with
    | @code f g s t hf hs =>
      intro n
      obtain ⟨hlift, hn⟩ := hs.lift n
      obtain ⟨hrest, hnrest⟩ := ih (s.lift n).2
      simp only [canonicalAll, Stmt.canonical, hn]
      exact ⟨.cons (.code hf ⟨_, rfl, hlift.flatten⟩) hrest, hnrest⟩
    | data hl =>
      intro n
      obtain ⟨hrest, hn⟩ := ih n
      exact ⟨.cons (.data hl) hrest, hn⟩

end IR

end TreeCode
