/-
# Wrapping loses no word and wastes no line

A division of some words into lines keeps them in order and puts one blank between the
words of a line. A line may hold two or more words only if it stays within the width; a
single word may be as wide as it is, so that every text has a division, also where the
width is zero or negative.

`wrap` fills each line as far as it goes. No division has fewer lines: whatever a division
puts on its lines so far, filling has come at least as far with as many lines.
-/

import Mathlib.Data.List.Infix
import TreeCode.Text.Wrap

namespace TreeCode.Text

/-- A word has at least one character, and none that is white space. -/
structure IsWord (w : String) : Prop where
  ne_empty : w ≠ ""
  solid : ∀ c ∈ w.toList, isBlank c = false

variable {width : Int} {cs : List Char} {ws : List String} {w : String} {lines : List (List String)}

section

variable (h : ∀ c ∈ cs, isBlank c = false)
include h

/-- Characters of a word are added to the word that has begun. -/
theorem wordsFrom_append (word rest : List Char) :
    wordsFrom word (cs ++ rest) = wordsFrom (cs.reverse ++ word) rest := by
  induction cs generalizing word with
  | nil => rfl
  | cons c cs ih =>
    have hc : isBlank c = false := h c (.head _)
    rw [List.cons_append, wordsFrom, hc, if_neg Bool.false_ne_true,
      ih (fun d hd => h d (.tail _ hd)), List.reverse_cons, List.append_assoc]
    rfl

/-- A blank ends the word before it. -/
theorem wordsFrom_append_blank (hne : cs ≠ []) {b : Char} (hb : isBlank b = true)
    (rest : List Char) :
    wordsFrom [] (cs ++ b :: rest) = cs :: wordsFrom [] rest := by
  have hbegun : ¬ cs.reverse.isEmpty = true := by simpa using hne
  rw [wordsFrom_append h, List.append_nil, wordsFrom, if_pos hb, if_neg hbegun,
    List.reverse_reverse]

theorem wordsFrom_solid (hne : cs ≠ []) : wordsFrom [] cs = [cs] := by
  have hbegun : ¬ cs.reverse.isEmpty = true := by simpa using hne
  have happend := wordsFrom_append h [] []
  rw [List.append_nil, List.append_nil, wordsFrom, if_neg hbegun, List.reverse_reverse] at happend
  exact happend

end

/-- What is cut out of a text are words. -/
theorem solid_of_mem_wordsFrom {word : List Char} (hword : ∀ c ∈ word, isBlank c = false)
    {w : List Char} (hw : w ∈ wordsFrom word cs) : w ≠ [] ∧ ∀ c ∈ w, isBlank c = false := by
  have hbegun : ∀ {v : List Char}, (∀ c ∈ v, isBlank c = false) → ¬ v.isEmpty = true →
      v.reverse ≠ [] ∧ ∀ c ∈ v.reverse, isBlank c = false := fun hv hne =>
    ⟨by simpa using hne, fun c hc => hv c (List.mem_reverse.1 hc)⟩
  induction cs generalizing word with
  | nil =>
    rw [wordsFrom] at hw
    split at hw
    · cases hw
    next hne =>
      obtain rfl := List.mem_singleton.1 hw
      exact hbegun hword hne
  | cons c cs ih =>
    have hnone : ∀ d ∈ ([] : List Char), isBlank d = false := fun d hd => by cases hd
    rw [wordsFrom] at hw
    split at hw
    · split at hw
      · exact ih hnone hw
      next hne =>
        rcases List.mem_cons.1 hw with rfl | hw
        · exact hbegun hword hne
        · exact ih hnone hw
    next hc =>
      refine ih (fun d hd => ?_) hw
      rcases List.mem_cons.1 hd with rfl | hd
      · simpa using hc
      · exact hword d hd

theorem isWord_of_mem_words {s : String} (hw : w ∈ words s) : IsWord w := by
  obtain ⟨cs, hcs, rfl⟩ := List.mem_map.1 hw
  obtain ⟨hne, hsolid⟩ := solid_of_mem_wordsFrom (fun c hc => by cases hc) hcs
  refine ⟨fun hempty => hne ?_, fun c hc => hsolid c (by simpa using hc)⟩
  simpa using congrArg String.toList hempty

/-- The line that holds some words. -/
def lineOf (ws : List String) : String :=
  " ".intercalate ws

theorem lineOf_singleton (w : String) : lineOf [w] = w :=
  String.intercalate_singleton

theorem toList_ne_nil (h : IsWord w) : w.toList ≠ [] := by
  intro hnil
  exact h.ne_empty (String.toList_inj.1 hnil)

/-- The words of a line are those that it was made of. -/
theorem words_lineOf : ∀ {ws : List String}, (∀ w ∈ ws, IsWord w) → words (lineOf ws) = ws
  | [], _ => rfl
  | [w], h => by
    have hw := h w (.head _)
    rw [lineOf_singleton, words, wordsFrom_solid hw.solid (toList_ne_nil hw),
      List.map_singleton, String.ofList_toList]
  | w :: v :: ws, h => by
    have hw := h w (.head _)
    have hrest := words_lineOf fun u hu => h u (.tail _ hu)
    have hchars : (lineOf (w :: v :: ws)).toList =
        w.toList ++ ' ' :: (lineOf (v :: ws)).toList := by
      rw [lineOf, String.intercalate_cons_cons, String.toList_append, String.toList_append,
        List.append_assoc]
      rfl
    rw [words, hchars, wordsFrom_append_blank hw.solid (toList_ne_nil hw) (by decide),
      List.map_cons, String.ofList_toList]
    exact congrArg (w :: ·) hrest

/-- Whether words may stand on one line: a single word always may, more of them only within
the width. -/
def Fits (width : Int) (ws : List String) : Prop :=
  2 ≤ ws.length → ((lineOf ws).utf8ByteSize : Int) ≤ width

theorem fits_singleton (width : Int) (w : String) : Fits width [w] := by
  intro htwo
  cases htwo with
  | step h => cases h

/-- One more word makes a line longer by the word and a blank. -/
theorem utf8ByteSize_lineOf_append {vs : List String} (hws : ws ≠ []) (hvs : vs ≠ []) :
    (lineOf (ws ++ vs)).utf8ByteSize =
      (lineOf ws).utf8ByteSize + 1 + (lineOf vs).utf8ByteSize := by
  rw [lineOf, String.intercalate_append_of_ne_nil hws hvs, String.utf8ByteSize_append,
    String.utf8ByteSize_append]
  rfl

theorem lineOf_snoc (hws : ws ≠ []) (w : String) : lineOf (ws ++ [w]) = lineOf ws ++ " " ++ w := by
  rw [lineOf, String.intercalate_append_of_ne_nil hws (List.cons_ne_nil _ _),
    String.intercalate_singleton]
  rfl

/-- Words that follow each other on a line take no more room than the whole line. -/
theorem utf8ByteSize_lineOf_le (as ws bs : List String) :
    (lineOf ws).utf8ByteSize ≤ (lineOf (as ++ ws ++ bs)).utf8ByteSize := by
  have hright : (lineOf (as ++ ws)).utf8ByteSize ≤ (lineOf (as ++ ws ++ bs)).utf8ByteSize := by
    by_cases hbs : bs = []
    · rw [hbs, List.append_nil]
    by_cases hws : as ++ ws = []
    · rw [hws]
      exact Nat.zero_le _
    · rw [utf8ByteSize_lineOf_append hws hbs]
      omega
  refine Nat.le_trans ?_ hright
  by_cases has : as = []
  · rw [has, List.nil_append]
  by_cases hws : ws = []
  · rw [hws]
    exact Nat.zero_le _
  · rw [utf8ByteSize_lineOf_append has hws]
    omega

/-- A line that fits may be shortened to two or more words that follow each other on it. -/
theorem Fits.middle {as bs : List String} (h : Fits width (as ++ ws ++ bs)) : Fits width ws := by
  intro htwo
  have hle := utf8ByteSize_lineOf_le as ws bs
  have hwhole := h (by simp only [List.length_append]; omega)
  omega

/-- Words on lines: all of them, in order, and no more on a line than fit. -/
structure Division (width : Int) (ws : List String) (lines : List (List String)) : Prop where
  flatten : lines.flatten = ws
  fits : ∀ line ∈ lines, Fits width line

/-- The first line of a division ends before a given word, or goes on with it. -/
theorem Division.first_line {before rest line : List String}
    (h : Division width (before ++ w :: rest) (line :: lines)) :
    (∃ later, Division width (later ++ w :: rest) lines) ∨
      ∃ more, line = before ++ [w] ++ more := by
  have hflat := h.flatten
  have hfits : ∀ l ∈ lines, Fits width l := fun l hl => h.fits l (.tail _ hl)
  rw [List.flatten_cons, List.append_eq_append_iff] at hflat
  rcases hflat with ⟨later, -, hlines⟩ | ⟨more, hline, hlines⟩
  · exact .inl ⟨later, hlines, hfits⟩
  · cases more with
    | nil => exact .inl ⟨[], hlines.symm, hfits⟩
    | cons v more =>
      rw [List.cons_append, List.cons_eq_cons] at hlines
      refine .inr ⟨more, ?_⟩
      rw [hline, hlines.1, List.append_assoc, List.singleton_append]

/-- Whether the next word goes on the line that has begun. -/
theorem fits_snoc_iff (hws : ws ≠ []) (w : String) :
    Fits width (ws ++ [w]) ↔
      ¬ ((lineOf ws).utf8ByteSize : Int) + 1 + w.utf8ByteSize > width := by
  have hsize := utf8ByteSize_lineOf_append hws (List.cons_ne_nil w [])
  have hlen := List.length_pos_iff.2 hws
  rw [lineOf_singleton] at hsize
  have htwo : 2 ≤ (ws ++ [w]).length := by
    rw [List.length_append, List.length_singleton]
    omega
  simp only [Fits, htwo, true_imp_iff]
  omega

theorem fillLines_of_fits (hws : ws ≠ []) (h : Fits width (ws ++ [w])) (rest : List String) :
    fillLines width (lineOf ws) (w :: rest) = fillLines width (lineOf (ws ++ [w])) rest := by
  rw [fillLines, if_neg ((fits_snoc_iff hws w).1 h), lineOf_snoc hws]

theorem fillLines_of_not_fits (hws : ws ≠ []) (h : ¬ Fits width (ws ++ [w])) (rest : List String) :
    fillLines width (lineOf ws) (w :: rest) =
      lineOf ws :: fillLines width (lineOf [w]) rest := by
  have hwide := not_not.1 (mt (fits_snoc_iff hws w).2 h)
  rw [fillLines, if_pos hwide, lineOf_singleton]

/-- Filling lines divides the words, with at least one word on every line. -/
theorem fillLines_division (hws : ws ≠ []) (hfits : Fits width ws) (rest : List String) :
    ∃ lines, fillLines width (lineOf ws) rest = lines.map lineOf ∧
      Division width (ws ++ rest) lines ∧ [] ∉ lines := by
  induction rest generalizing ws with
  | nil =>
    refine ⟨[ws], rfl, ⟨rfl, fun line hline => ?_⟩, ?_⟩
    · obtain rfl := List.mem_singleton.1 hline
      exact hfits
    · simpa using hws.symm
  | cons w rest ih =>
    by_cases hw : Fits width (ws ++ [w])
    · obtain ⟨lines, hlines, hdivision, hne⟩ :=
        ih (List.append_ne_nil_of_right_ne_nil ws (List.cons_ne_nil w [])) hw
      refine ⟨lines, ?_, ?_, hne⟩
      · rw [fillLines_of_fits hws hw, hlines]
      · rwa [List.append_assoc] at hdivision
    · obtain ⟨lines, hlines, hdivision, hne⟩ :=
        ih (List.cons_ne_nil w []) (fits_singleton width w)
      refine ⟨ws :: lines, ?_, ⟨?_, ?_⟩, ?_⟩
      · rw [fillLines_of_not_fits hws hw, hlines, List.map_cons]
      · rw [List.flatten_cons, hdivision.flatten, List.singleton_append]
      · intro line hline
        rcases List.mem_cons.1 hline with rfl | hline
        · exact hfits
        · exact hdivision.fits line hline
      · simpa using ⟨hws, hne⟩

/-- Filling goes ahead of every division: a division of the same words, and perhaps of some
before them, has no fewer lines. -/
theorem fillLines_length_le (hws : ws ≠ []) (before rest : List String)
    (h : Division width (before ++ ws ++ rest) lines) :
    (fillLines width (lineOf ws) rest).length ≤ lines.length := by
  induction rest generalizing ws before lines with
  | nil =>
    have hne : lines ≠ [] := by
      rintro rfl
      have hflat := h.flatten
      rw [List.flatten_nil, List.append_nil, eq_comm, List.append_eq_nil_iff] at hflat
      exact hws hflat.2
    exact List.length_pos_iff.2 hne
  | cons w rest ih =>
    by_cases hw : Fits width (ws ++ [w])
    · rw [fillLines_of_fits hws hw]
      refine ih (List.append_ne_nil_of_right_ne_nil ws (List.cons_ne_nil w [])) before ?_
      simpa only [List.append_assoc, List.singleton_append] using h
    · rw [fillLines_of_not_fits hws hw, List.length_cons]
      cases lines with
      | nil =>
        have hflat := h.flatten
        simp at hflat
      | cons line lines =>
        rcases h.first_line with ⟨later, hlater⟩ | ⟨more, hline⟩
        · have hle := ih (List.cons_ne_nil w []) later (by simpa using hlater)
          rw [List.length_cons]
          omega
        · -- a line that goes on with `w` would hold `ws` and `w` side by side
          have hfits := h.fits line (.head _)
          rw [hline, List.append_assoc before] at hfits
          exact absurd hfits.middle hw

/-- The lines of a text are a division of its words: together they have its words, a line
with two or more words stays within the width, and no other division has fewer lines. -/
theorem wrap_optimal (width : Int) (s : String) :
    (wrap width s).flatMap words = words s ∧
    (∀ line ∈ wrap width s, 2 ≤ (words line).length → (line.utf8ByteSize : Int) ≤ width) ∧
    (∃ lines, wrap width s = lines.map lineOf ∧ Division width (words s) lines ∧ [] ∉ lines) ∧
    ∀ lines, Division width (words s) lines → (wrap width s).length ≤ lines.length := by
  have hdivided : ∃ lines, wrap width s = lines.map lineOf ∧ Division width (words s) lines ∧
      [] ∉ lines := by
    unfold wrap
    split
    next hnone =>
      rw [hnone]
      exact ⟨[], rfl, ⟨rfl, fun line hline => by cases hline⟩, List.not_mem_nil⟩
    next w rest hsome =>
      rw [hsome, ← List.singleton_append, ← lineOf_singleton w]
      exact fillLines_division (List.cons_ne_nil w []) (fits_singleton width w) rest
  obtain ⟨lines, hlines, hdivision, hne⟩ := hdivided
  have hwords : ∀ line ∈ lines, words (lineOf line) = line := fun line hline =>
    words_lineOf fun w hw => isWord_of_mem_words (s := s)
      (hdivision.flatten ▸ List.mem_flatten.2 ⟨line, hline, hw⟩)
  refine ⟨?_, fun line hline htwo => ?_, ⟨lines, hlines, hdivision, hne⟩, fun others hothers => ?_⟩
  · calc (wrap width s).flatMap words
        = lines.flatMap fun line => words (lineOf line) := by rw [hlines, List.flatMap_map]
      _ = lines.flatMap id := List.flatMap_congr hwords
      _ = words s := by rw [List.flatMap_id, hdivision.flatten]
  · rw [hlines] at hline
    obtain ⟨ws, hws, rfl⟩ := List.mem_map.1 hline
    rw [hwords ws hws] at htwo
    exact hdivision.fits ws hws htwo
  · unfold wrap
    split
    · exact Nat.zero_le _
    next w rest hsome =>
      rw [hsome] at hothers
      rw [← lineOf_singleton w]
      exact fillLines_length_le (List.cons_ne_nil w []) [] rest hothers

end TreeCode.Text
