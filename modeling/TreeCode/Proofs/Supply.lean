/-
# Fresh names

Every label that a supply hands out has a name that was not handed out before. The
searches for such a name always find one: they look at one candidate more than there
are names taken, and different numbers give different candidates.

`Supply.mark` counts a name as zero or one, according to whether it has been handed
out. Freshness of many labels drawn one after the other is then one inequality: what a
stretch of drawing may use is at most what it adds to the marks.
-/

import Mathlib.Data.List.Nodup
import TreeCode.Supply

namespace TreeCode

/-- A number can be read back from its digits. -/
theorem toString_nat_inj {m n : Nat} (h : toString m = toString n) : m = n := by
  have hread := congrArg (Nat.ofDigitChars 10 ·.toList 0) h
  simpa using hread

namespace Supply

/-- The names that have been handed out. -/
def names (s : Supply) : List String :=
  s.taken.map (·.1)

theorem isFree_iff {s : Supply} {name : String} : s.isFree name = true ↔ name ∉ s.names := by
  unfold isFree names
  induction s.taken with
  | nil => simp
  | cons entry rest ih =>
    obtain ⟨n, k⟩ := entry
    rw [List.lookup_cons, List.map_cons, List.mem_cons, not_or]
    by_cases h : name = n
    · simp [h]
    · have hb : (name == n) = false := by simpa using h
      rw [hb]
      simp only [h, not_false_eq_true, true_and]
      exact ih

variable (s : Supply) (name : String) (l : Label) {candidate : Nat → String} {n : String}

/-- A search among different candidates ends: it looks at more of them than there are names
taken. -/
theorem exists_free {s : Supply} (h : Function.Injective candidate) (start : Nat) :
    ∃ j, (List.range' start (s.taken.length + 1)).find?
      (fun k => s.isFree (candidate k)) = some j := by
  rw [← Option.isSome_iff_exists, Option.isSome_iff_ne_none]
  intro hnone
  -- otherwise more candidates than there are names would all be taken
  have hsub : ((List.range' start (s.taken.length + 1)).map candidate) ⊆ s.names := by
    intro name hname
    obtain ⟨k, hk, rfl⟩ := List.mem_map.1 hname
    by_contra hfree
    exact List.find?_eq_none.1 hnone k hk (isFree_iff.2 hfree)
  have hnodup := (List.nodup_range' (s := start) (n := s.taken.length + 1)).map h
  have hlen := hnodup.length_le_of_subset hsub
  simp only [List.length_map, List.length_range', names] at hlen
  omega

/-- A search among different candidates finds a name that is not taken. -/
theorem firstFree_notMem {s : Supply} (h : Function.Injective candidate) (start : Nat) :
    candidate (s.firstFree candidate start) ∉ s.names := by
  obtain ⟨j, hfind⟩ := exists_free h start
  have hfree : s.isFree (candidate j) = true := by simpa using List.find?_some hfind
  rw [firstFree, hfind, Option.getD_some]
  exact isFree_iff.1 hfree

theorem candidate_injective (p : String) :
    Function.Injective fun k : Nat => p ++ toString k :=
  fun _ _ h => toString_nat_inj ((String.append_right_inj p).1 h)

/-- One if a label of this name has been handed out, else zero. -/
def mark (s : Supply) (l : Label) : Nat :=
  if l.name ∈ s.names then 1 else 0

theorem mark_le_one : s.mark l ≤ 1 := by
  unfold mark
  split <;> omega

/-- Handing out a label that was not taken. -/
theorem count_add_mark_le {s s' : Supply} (hnew : n ∉ s.names) (hmem : n ∈ s'.names)
    (hsub : s.names ⊆ s'.names) (l : Label) : [Label.ofName n].count l + s.mark l ≤ s'.mark l := by
  by_cases hl : l = .ofName n
  · subst hl
    have hzero : s.mark (.ofName n) = 0 := if_neg hnew
    have hone : s'.mark (.ofName n) = 1 := if_pos hmem
    exact Nat.le_of_eq (by rw [hzero, hone, List.count_singleton_self])
  · have hcount : [Label.ofName n].count l = 0 := List.count_eq_zero.2 (by simpa using hl)
    rw [hcount, Nat.zero_add]
    by_cases hs : l.name ∈ s.names
    · exact Nat.le_of_eq ((if_pos hs).trans (if_pos (hsub hs)).symm)
    · exact Nat.le_trans (Nat.le_of_eq (if_neg hs)) (Nat.zero_le _)

theorem label_count_le : [s.label.1].count l + s.mark l ≤ s.label.2.mark l :=
  count_add_mark_le (firstFree_notMem (candidate_injective "L") s.labels)
    (List.mem_cons_self ..) (List.subset_cons_self _ _) l

theorem string_count_le : [s.string.1].count l + s.mark l ≤ s.string.2.mark l :=
  count_add_mark_le (firstFree_notMem (candidate_injective "S") s.strings)
    (List.mem_cons_self ..) (List.subset_cons_self _ _) l

/-- A label for a declared name is new, too. -/
theorem named_notMem : (s.named name).1.name ∉ s.names := by
  unfold named
  split
  next h =>
    refine isFree_iff.1 ?_
    rw [Label.ofName_name, isFree, h]
    rfl
  next k _ => exact firstFree_notMem (candidate_injective (name ++ "#")) (k + 1)

theorem named_mem : (s.named name).1.name ∈ (s.named name).2.names := by
  unfold named
  split
  · exact List.mem_cons_self
  · exact List.mem_cons_self

theorem names_subset_named : s.names ⊆ (s.named name).2.names := by
  unfold named
  split
  · exact List.subset_cons_self _ _
  · exact List.Subset.trans (List.subset_cons_self _ _) (List.subset_cons_self _ _)

/-- A label for a declared name starts with that name. -/
theorem named_start : ∃ rest, (s.named name).1.name = name ++ rest := by
  unfold named
  split
  · exact ⟨"", String.append_empty.symm⟩
  next k _ => exact ⟨"#" ++ toString _, String.append_assoc⟩

/-- A declared name that is not taken is its own label. -/
theorem named_of_notMem {s : Supply} {name : String} (h : name ∉ s.names) :
    (s.named name).1 = .ofName name := by
  have hfree := isFree_iff.2 h
  rw [isFree, Option.isNone_iff_eq_none] at hfree
  rw [named, hfree]

/-- A label for another declared name takes no name without a `#`. -/
theorem notMem_named {s : Supply} {name : String} (hn : n ∉ s.names) (hne : n ≠ name)
    (hplain : '#' ∉ n.toList) : n ∉ (s.named name).2.names := by
  unfold named
  split
  · exact fun h => (List.mem_cons.1 h).elim hne hn
  · intro h
    rcases List.mem_cons.1 h with rfl | h
    · exact hplain (by simp [numbered])
    · exact (List.mem_cons.1 h).elim hne hn

theorem named_temps : (s.named name).2.temps = s.temps := by
  unfold named
  split <;> rfl

end Supply

end TreeCode
