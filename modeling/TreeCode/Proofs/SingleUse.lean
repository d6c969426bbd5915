/-
# Temps drawn by lifting are used once

Bringing chunks into canonical form draws temps, with numbers from a counter that all
functions share. Every temp that is drawn is the target of one move in the whole program and
is read once, by a later instruction of the same function. The temps that the chunks had
before are moved to and read as they were, in the same order.
-/

import Mathlib.Data.List.Forall2
import TreeCode.Proofs.IR.Plain
import TreeCode.Proofs.IR.Uses

namespace TreeCode.IR

/-- A plain expression writes no temp. -/
theorem Expr.not_writes_of_plain {e : Expr} (h : e.plain = true) :
    ∀ u ∈ e.uses, u.writes = false := by
  intro u hu
  obtain ⟨t, hread⟩ | ⟨_, _, ⟨⟩⟩ := Use.tally.of_plain u h hu
  cases List.mem_singleton.1 hread
  rfl

/-- An instruction that writes temps by moving to them only. -/
def Stmt.WritesByMove (i : Stmt) : Prop :=
  ∀ t, .write t ∈ i.uses → ∃ value, i = .move (.temp t) value

theorem Stmt.writesByMove_of_plain {i : Stmt} (h : i.plain = true) : i.WritesByMove := by
  intro t ht
  have hnone : ∀ {e : Expr}, e.plain = true → .write t ∉ e.uses := fun he hmem => by
    cases Expr.not_writes_of_plain he _ hmem
  cases i with
  | exp _ | cjump _ _ _ => exact absurd ht (hnone h)
  | jump _ | label _ => cases ht
  | seq _ | absent => cases h
  | move d e =>
    cases d with
    | temp t' =>
      rcases List.mem_append.1 ht with hmem | hmem
      · exact absurd hmem (hnone h)
      · cases List.mem_singleton.1 hmem
        exact ⟨e, rfl⟩
    | mem a =>
      rw [Stmt.plain, Bool.and_eq_true] at h
      exact ((List.mem_append.1 ht).elim (hnone h.1) (hnone h.2)).elim
    | _ => cases h

theorem Stmt.covers_writesByMove : Stmt.Covers Stmt.WritesByMove True where
  plain := Stmt.writesByMove_of_plain
  stray _ d e hd hbare t ht := by
    have hstray : ∀ us : List Use, Use.write t ∉ us.map Use.asStray := by
      intro us hmem
      obtain ⟨u, -, hu⟩ := List.mem_map.1 hmem
      cases congrArg Use.stray hu
    cases d with
    | temp _ | mem _ => cases hd
    | eseq s d => exact absurd rfl (hbare s d)
    | _ => exact absurd ht (hstray _)

/-- A temp that is the target of one move and is read once, by a later instruction. -/
def Stmt.UsedOnce (t : Temp) (code : List Stmt) : Prop :=
  ∃ before value between reader after,
    code = before ++ .move (.temp t) value :: (between ++ reader :: after) ∧
    reader.uses.filter (Use.isOf t) = [.read t] ∧
    ∀ u ∈ Stmt.usesAll before ++ value.uses ++ Stmt.usesAll between ++ Stmt.usesAll after,
      u.temp ≠ t

theorem eq_of_append_cons_eq_pair {α : Type} {a b : List α} {x y : α} (hne : x ≠ y)
    (h : a ++ x :: b = [x, y]) : a = [] ∧ b = [y] := by
  cases a with
  | nil => exact ⟨rfl, (List.cons.inj h).2⟩
  | cons z a =>
    have htail : a ++ x :: b = [y] := (List.cons.inj h).2
    cases a with
    | nil => exact absurd (List.cons.inj htail).1 hne
    | cons w a =>
      have hnil : a ++ x :: b = [] := (List.cons.inj htail).2
      cases (List.append_eq_nil_iff.1 hnil).2

theorem eq_of_append_append_eq_singleton {α : Type} {a b c : List α} {x : α} (hx : x ∈ b)
    (h : a ++ (b ++ c) = [x]) : a = [] ∧ b = [x] ∧ c = [] := by
  have hb : b ≠ [] := List.ne_nil_of_mem hx
  rcases List.append_eq_singleton_iff.1 h with ⟨ha, hbc⟩ | ⟨-, hbc⟩
  · rcases List.append_eq_singleton_iff.1 hbc with ⟨hnil, -⟩ | ⟨hsingle, hc⟩
    · exact absurd hnil hb
    · exact ⟨ha, hsingle, hc⟩
  · exact absurd (List.append_eq_nil_iff.1 hbc).1 hb

theorem Use.filter_isOf_eq_nil_iff {t : Temp} {us : List Use} :
    us.filter (Use.isOf t) = [] ↔ ∀ u ∈ us, u.temp ≠ t := by
  simp only [List.filter_eq_nil_iff, Use.isOf_iff, ne_eq]

/-- A temp that is written and then read is used once. -/
theorem Stmt.usedOnce_of_filter {t : Temp} {code : List Stmt} (hcode : ∀ i ∈ code, i.WritesByMove)
    (h : (Stmt.usesAll code).filter (Use.isOf t) = [.write t, .read t]) : UsedOnce t code := by
  have hwrite : .write t ∈ Stmt.usesAll code :=
    (List.mem_filter.1 (h ▸ List.mem_cons_self)).1
  rw [Stmt.usesAll_eq_flatMap] at hwrite
  obtain ⟨i, hi, hmem⟩ := List.mem_flatMap.1 hwrite
  obtain ⟨value, rfl⟩ := hcode i hi t hmem
  obtain ⟨before, rest, rfl⟩ := List.append_of_mem hi
  -- the move reads its source first, so what the temp is read by comes after the move
  have hmove : (Stmt.usesAll (before ++ .move (.temp t) value :: rest)).filter (Use.isOf t) =
      (Stmt.usesAll before ++ value.uses).filter (Use.isOf t) ++
        .write t :: (Stmt.usesAll rest).filter (Use.isOf t) := by
    have hof : (Use.write t).isOf t = true := Use.isOf_iff.2 rfl
    rw [Stmt.usesAll_append, Stmt.usesAll, Stmt.uses, Expr.moveUses, List.append_assoc,
      List.singleton_append, ← List.append_assoc, List.filter_append,
      List.filter_cons_of_pos hof]
  have hne : Use.write t ≠ Use.read t := fun heq => by cases congrArg Use.writes heq
  obtain ⟨hbefore, hrest⟩ := eq_of_append_cons_eq_pair hne (hmove ▸ h)
  have hread : .read t ∈ Stmt.usesAll rest :=
    (List.mem_filter.1 (hrest ▸ List.mem_cons_self)).1
  rw [Stmt.usesAll_eq_flatMap] at hread
  obtain ⟨reader, hreader, hmem⟩ := List.mem_flatMap.1 hread
  obtain ⟨between, after, rfl⟩ := List.append_of_mem hreader
  rw [Stmt.usesAll_append, Stmt.usesAll, List.filter_append, List.filter_append] at hrest
  obtain ⟨hbetween, honce, hafter⟩ := eq_of_append_append_eq_singleton
    (List.mem_filter.2 ⟨hmem, Use.isOf_iff.2 rfl⟩) hrest
  refine ⟨before, value, between, reader, after, rfl, honce, Use.filter_isOf_eq_nil_iff.1 ?_⟩
  rw [List.filter_append, List.filter_append, hbefore, hbetween, hafter]
  rfl

namespace Chunk

/-- The uses of a chunk. -/
def uses : Chunk → List Use
  | code _ body => body.uses
  | data _ _ _ => []

/-- Bringing chunks into canonical form keeps the uses of every chunk, and uses every temp that
it draws twice. -/
theorem renewal_canonicalAll (chunks : List Chunk) (n : Nat) :
    Renewal (chunks.flatMap uses) ((canonicalAll chunks n).1.flatMap uses) n
      (canonicalAll chunks n).2 := by
  induction chunks generalizing n with
  | nil => exact .refl _ n
  | cons c rest ih =>
    cases c with
    | data label size init => exact ih n
    | code frame body => exact (Stmt.renewal_lift body n).append (ih (body.lift n).2)

/-- Every chunk keeps the uses that it had. -/
theorem kept_canonicalAll {chunks : List Chunk} {k n : Nat} (hk : k ≤ n)
    (hbelow : ∀ c ∈ chunks, ∀ u ∈ c.uses, u.temp.index < k) :
    List.Forall₂ (fun c c' => c'.uses.filter (Use.isBelow k) = c.uses) chunks
      (canonicalAll chunks n).1 := by
  induction chunks generalizing n with
  | nil => exact .nil
  | cons c rest ih =>
    have hrest := fun d hd => hbelow d (List.mem_cons_of_mem c hd)
    cases c with
    | data label size init => exact .cons rfl (ih hk hrest)
    | code frame body =>
      have hbody := Stmt.renewal_lift body n
      have hle := hbody.le
      have hall : body.uses.filter (Use.isBelow k) = body.uses :=
        List.filter_eq_self.2 fun u hu => Use.isBelow_iff.2 (hbelow _ List.mem_cons_self u hu)
      exact .cons ((hbody.kept k hk).trans hall) (ih (n := (body.lift n).2) (by omega) hrest)

/-- A temp that is drawn is used in one chunk, and once there. -/
theorem usedOnce_canonicalAll {chunks : List Chunk} {n t : Nat} (hn : n ≤ t)
    (ht : t < (canonicalAll chunks n).2) (hold : ∀ u ∈ chunks.flatMap uses, u.temp ≠ ⟨t⟩) :
    ∃ before frame code after,
      (canonicalAll chunks n).1 = before ++ .code frame (.seq code) :: after ∧
      Stmt.UsedOnce ⟨t⟩ code ∧ ∀ u ∈ (before ++ after).flatMap uses, u.temp ≠ ⟨t⟩ := by
  induction chunks generalizing n with
  | nil => exact absurd ht (by simpa [canonicalAll] using hn)
  | cons c rest ih =>
    have hrest : ∀ u ∈ rest.flatMap uses, u.temp ≠ ⟨t⟩ := fun u hu =>
      hold u (by rw [List.flatMap_cons]; exact List.mem_append_right _ hu)
    cases c with
    | data label size init =>
      obtain ⟨before, frame, code, after, hcode, honce, hother⟩ := ih hn ht hrest
      exact ⟨.data label size init :: before, frame, code, after,
        congrArg (_ :: ·) hcode, honce, hother⟩
    | code frame body =>
      have hbody := Stmt.renewal_lift body n
      have holdbody : ∀ u ∈ body.uses, u.temp ≠ ⟨t⟩ := fun u hu =>
        hold u (by rw [List.flatMap_cons]; exact List.mem_append_left _ hu)
      have hwrites : ∀ i ∈ (body.lift n).1.flatten, i.WritesByMove :=
        Stmt.meets_lift Stmt.covers_writesByMove (.inl trivial) n
      by_cases hlt : t < (body.lift n).2
      · refine ⟨[], frame, (body.lift n).1.flatten, (canonicalAll rest (body.lift n).2).1, rfl,
          Stmt.usedOnce_of_filter hwrites (hbody.once t hn hlt holdbody), ?_⟩
        exact Use.filter_isOf_eq_nil_iff.1
          ((renewal_canonicalAll rest (body.lift n).2).filter_eq_nil hrest (.inl hlt))
      · obtain ⟨before, frame', code, after, hcode, honce, hother⟩ :=
          ih (n := (body.lift n).2) (by omega) ht hrest
        refine ⟨.code frame (.seq (body.lift n).1.flatten) :: before, frame', code, after,
          congrArg (_ :: ·) hcode, honce, fun u hu => ?_⟩
        rcases List.mem_append.1 hu with hu | hu
        · exact Use.filter_isOf_eq_nil_iff.1
            (hbody.filter_eq_nil holdbody (.inr (by omega))) u hu
        · exact hother u hu

/-- Temps drawn for canonical code are fresh and used once; the temps that chunks had before are
used as they were. -/
theorem drawn_temps_used_once (chunks : List Chunk) (n : Nat)
    (hbelow : ∀ c ∈ chunks, ∀ u ∈ c.uses, u.temp.index < n) :
    n ≤ (canonicalAll chunks n).2 ∧
    (∀ c' ∈ (canonicalAll chunks n).1, ∀ u ∈ c'.uses,
      (∀ c ∈ chunks, ∀ w ∈ c.uses, w.temp ≠ u.temp) →
      (n : Int) ≤ u.temp.index ∧ u.temp.index < (canonicalAll chunks n).2) ∧
    (∀ t : Nat, n ≤ t → t < (canonicalAll chunks n).2 → ∃ before frame code after,
      (canonicalAll chunks n).1 = before ++ .code frame (.seq code) :: after ∧
      Stmt.UsedOnce ⟨t⟩ code ∧ ∀ c ∈ before ++ after, ∀ u ∈ c.uses, u.temp ≠ ⟨t⟩) ∧
    List.Forall₂ (fun c c' => c'.uses.filter (Use.isBelow n) = c.uses) chunks
      (canonicalAll chunks n).1 := by
  have hrenewal := renewal_canonicalAll chunks n
  refine ⟨hrenewal.le, fun c' hc' u hu hnew => ?_, fun t hn ht => ?_, ?_⟩
  · rcases hrenewal.mem u (List.mem_flatMap.2 ⟨c', hc', hu⟩) with hold | hrange
    · obtain ⟨c, hc, hmem⟩ := List.mem_flatMap.1 hold
      exact absurd rfl (hnew c hc u hmem)
    · exact hrange
  · have hold : ∀ u ∈ chunks.flatMap uses, u.temp ≠ ⟨t⟩ := by
      intro u hu htemp
      obtain ⟨c, hc, hmem⟩ := List.mem_flatMap.1 hu
      have hlt := hbelow c hc u hmem
      rw [htemp] at hlt
      have hlt : (t : Int) < n := hlt
      omega
    obtain ⟨before, frame, code, after, hcode, honce, hother⟩ :=
      usedOnce_canonicalAll hn ht hold
    exact ⟨before, frame, code, after, hcode, honce, fun c hc u hu =>
      hother u (List.mem_flatMap.2 ⟨c, hc, hu⟩)⟩
  · exact kept_canonicalAll (Nat.le_refl n) hbelow

/-- Two functions with calls inside the operands of a store, and data between them. -/
def entangledTwice : List Chunk :=
  [.code ⟨.ofName "f", 1, [], 16, 8⟩ Stmt.entangled, .data (.ofName "d") 8 [],
    .code ⟨.ofName "g", 1, [], 16, 8⟩ Stmt.entangled]

theorem drawn_temps_used_once_entangledTwice :
    (∀ c ∈ entangledTwice, ∀ u ∈ c.uses, u.temp.index < (3 : Nat)) ∧
    (canonicalAll entangledTwice 3).2 = 11 ∧
    ∃ before frame code after,
      (canonicalAll entangledTwice 3).1 = before ++ .code frame (.seq code) :: after ∧
      Stmt.UsedOnce ⟨8⟩ code ∧ ∀ c ∈ before ++ after, ∀ u ∈ c.uses, u.temp ≠ ⟨8⟩ := by
  have hbelow : ∀ c ∈ entangledTwice, ∀ u ∈ c.uses, u.temp.index < (3 : Nat) := by decide +kernel
  have hend : (canonicalAll entangledTwice 3).2 = 11 := by decide +kernel
  have hdrawn := (drawn_temps_used_once entangledTwice 3 hbelow).2.2.1 8 (by decide)
    (by rw [hend]; decide)
  exact ⟨hbelow, hend, hdrawn⟩

end Chunk

end TreeCode.IR
