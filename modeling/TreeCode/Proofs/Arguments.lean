/-
# Argument lists, piece by piece

An argument list is read one piece after the other: a positional argument, or an option with
the argument that holds its value if it has one. `FlagSet.Takes` says what one piece does and
`FlagSet.Reads` what pieces do that follow each other. Whatever is read without a fault is read
in this way, up to a terminator if there is one where an option may stand.

So reading is compositional: reading two lists joined together is reading one after the other.
And it does not matter how an option is spelled: all spellings of a flag and a value offer the
same value to the same flag, whatever has been read before.
-/

import TreeCode.Command.Explore
import TreeCode.Proofs.CommandLine
import TreeCode.Proofs.Index

namespace TreeCode.FlagSet

/-- An option with its value: the value stands in the same argument or is the next one. -/
inductive Offers (s : FlagSet) : List String → Recognised → String → Prop
  | attached {arg body long r text} : classify arg = .option body long →
      s.recognise body long = some r → r.value = some text → Offers s [arg] r text
  | detached {arg body long r text} : classify arg = .option body long →
      s.recognise body long = some r → r.value = none → r.flag.value.isTruth = false →
      Offers s [arg, text] r text

/-- One piece of an argument list, and what it changes. -/
inductive Takes (s : FlagSet) : List String → FlagSet → Prop
  | positional {arg} : classify arg = .positional → Takes s [arg] (s.addArgs [arg])
  | switch {arg body long r} : classify arg = .option body long →
      s.recognise body long = some r → r.value = none → r.flag.value.isTruth = true →
      Takes s [arg] (s.take ⟨r.flag.name, .truth true⟩)
  | value {taken r text v} : Offers s taken r text → r.flag.value.read text = .ok v →
      Takes s taken (s.take ⟨r.flag.name, v⟩)

/-- Pieces that are read one after the other. -/
inductive Reads : FlagSet → List String → FlagSet → Prop
  | nothing {s} : Reads s [] s
  | piece {s s' t taken rest} : Takes s taken s' → Reads s' rest t → Reads s (taken ++ rest) t

/-- A terminator stands where an option may stand: all arguments before it are whole pieces. -/
def MeetsTerminator (s : FlagSet) (args : List String) : Prop :=
  ∃ before after t, args = before ++ "--" :: after ∧ s.Reads before t

variable {s s' t : FlagSet} {arg text : String} {args rest taken : List String}
  {body : List Char} {long : Bool} {r : Recognised}

theorem eq_of_classify_terminator (h : classify arg = .terminator) : arg = "--" := by
  unfold classify at h
  split at h
  next harg => exact String.toList_injective harg
  all_goals cases h

section Reading

theorem parseMore_positional (h : classify arg = .positional) (rest : List String) :
    s.parseMore (arg :: rest) = (s.addArgs [arg]).parseMore rest := by
  rw [parseMore, h]

theorem parseMore_terminator (rest : List String) :
    s.parseMore ("--" :: rest) = (none, s.addArgs rest) := by
  rw [parseMore, show classify "--" = .terminator from rfl]

section

variable (harg : classify arg = .option body long) (hr : s.recognise body long = some r)
  (hvalue : r.value = none)
include harg hr hvalue

theorem parseMore_switch (htruth : r.flag.value.isTruth = true) (rest : List String) :
    s.parseMore (arg :: rest) = (s.take ⟨r.flag.name, .truth true⟩).parseMore rest := by
  simp only [parseMore, harg, hr, hvalue, htruth, if_true]
  rfl

theorem parseMore_needsArgument (htruth : r.flag.value.isTruth = false) :
    s.parseMore [arg] = (some (.needsArgument arg), s.markChanged r.flag.name) := by
  simp only [parseMore, harg, hr, hvalue, htruth]
  rfl

end

theorem assign_eq_error {e : ParseError} (h : s.assign r text = .error e) :
    ∃ cause, r.flag.value.read text = .error cause ∧ e = .badValue r.name cause := by
  unfold assign at h
  split at h
  next => cases h
  next cause hcause =>
    cases h
    exact ⟨cause, hcause, rfl⟩

/-- An option with its value gives the flag the value, or fails if the text stands for none. -/
theorem Offers.parseMore (h : s.Offers taken r text) (rest : List String) :
    s.parseMore (taken ++ rest) =
      match r.flag.value.read text with
      | .ok v => (s.take ⟨r.flag.name, v⟩).parseMore rest
      | .error e => (some (.badValue r.name e), s.markChanged r.flag.name) := by
  cases h with
  | attached harg hr hvalue =>
    simp only [List.cons_append, List.nil_append, FlagSet.parseMore, harg, hr, hvalue, assign]
    cases r.flag.value.read text <;> rfl
  | detached harg hr hvalue htruth =>
    simp only [List.cons_append, List.nil_append, FlagSet.parseMore, harg, hr, hvalue, htruth,
      assign]
    cases r.flag.value.read text <;> rfl

/-- Reading goes on behind a piece. -/
theorem Takes.parseMore (h : s.Takes taken s') (rest : List String) :
    s.parseMore (taken ++ rest) = s'.parseMore rest := by
  cases h with
  | positional harg => exact parseMore_positional harg rest
  | switch harg hr hvalue htruth => exact parseMore_switch harg hr hvalue htruth rest
  | value hoffers hread => rw [hoffers.parseMore, hread]

theorem Reads.parseMore (h : s.Reads args t) (rest : List String) :
    s.parseMore (args ++ rest) = t.parseMore rest := by
  induction h with
  | nothing => rfl
  | piece htakes _ ih => rw [List.append_assoc, htakes.parseMore, ih]

/-- Arguments that are read without a fault are whole pieces, up to the end or up to a
terminator. -/
theorem reads_of_parseMore (h : s.parseMore args = (none, t)) :
    s.Reads args t ∨
      ∃ before after u, args = before ++ "--" :: after ∧ s.Reads before u ∧
        t = u.addArgs after := by
  -- a piece in front of either
  have hpiece : ∀ {s s' : FlagSet} {taken args : List String}, s.Takes taken s' →
      (s'.Reads args t ∨ ∃ before after u, args = before ++ "--" :: after ∧ s'.Reads before u ∧
        t = u.addArgs after) →
      (s.Reads (taken ++ args) t ∨ ∃ before after u, taken ++ args = before ++ "--" :: after ∧
        s.Reads before u ∧ t = u.addArgs after) := by
    rintro s s' taken args htakes (hreads | ⟨before, after, u, rfl, hreads, ht⟩)
    · exact .inl (.piece htakes hreads)
    · exact .inr ⟨taken ++ before, after, u, (List.append_assoc ..).symm, .piece htakes hreads, ht⟩
  fun_induction FlagSet.parseMore s args with
  | case1 s =>
    cases h
    exact .inl .nothing
  | case2 s arg args harg ih => exact hpiece (.positional harg) (ih h)
  | case3 s arg args harg =>
    cases h
    cases eq_of_classify_terminator harg
    exact .inr ⟨[], args, s, rfl, .nothing, rfl⟩
  | case4 | case6 | case8 | case10 => cases h
  | case5 s arg args body long harg r hr s₁ text hvalue s₂ hassign ih =>
    obtain ⟨v, hread, rfl⟩ := assign_eq_ok hassign
    exact hpiece (.value (.attached harg hr hvalue) hread) (ih h)
  | case7 s arg args body long harg r hr s₁ hvalue htruth ih =>
    exact hpiece (.switch harg hr hvalue htruth) (ih h)
  | case9 s arg body long harg r hr s₁ hvalue htruth text args s₂ hassign ih =>
    obtain ⟨v, hread, rfl⟩ := assign_eq_ok hassign
    exact hpiece (.value (.detached harg hr hvalue (Bool.eq_false_iff.2 htruth)) hread) (ih h)

end Reading

section Positional

/-- A flag set with other positional arguments. -/
def withArgs (s : FlagSet) (args : List String) : FlagSet :=
  { s with args := args }

/-- Positional arguments decide nothing. -/
theorem Takes.withArgs (h : s.Takes taken s') (args : List String) :
    ∃ args', (s.withArgs args).Takes taken (s'.withArgs args') := by
  cases h with
  | positional harg => exact ⟨_, .positional harg⟩
  | switch harg hr hvalue htruth => exact ⟨_, .switch harg hr hvalue htruth⟩
  | value hoffers hread =>
    cases hoffers with
    | attached harg hr hvalue => exact ⟨_, .value (.attached harg hr hvalue) hread⟩
    | detached harg hr hvalue htruth => exact ⟨_, .value (.detached harg hr hvalue htruth) hread⟩

theorem Reads.withArgs (h : s.Reads rest t) (args : List String) :
    ∃ args', (s.withArgs args).Reads rest (t.withArgs args') := by
  induction h generalizing args with
  | nothing => exact ⟨args, .nothing⟩
  | piece htakes _ ih =>
    obtain ⟨args₁, htakes⟩ := htakes.withArgs args
    obtain ⟨args', hreads⟩ := ih args₁
    exact ⟨args', .piece htakes hreads⟩

theorem MeetsTerminator.withArgs (h : s.MeetsTerminator rest) (args : List String) :
    (s.withArgs args).MeetsTerminator rest := by
  obtain ⟨before, after, t, heq, hreads⟩ := h
  obtain ⟨args', hreads⟩ := hreads.withArgs args
  exact ⟨before, after, _, heq, hreads⟩

/-- Positional arguments that were there before stay in front. -/
theorem parseMore_withArgs (s : FlagSet) (first args : List String) :
    (s.withArgs (first ++ s.args)).parseMore args =
      ((s.parseMore args).1,
        (s.parseMore args).2.withArgs (first ++ (s.parseMore args).2.args)) := by
  fun_induction parseMore s args with
  | case1 s => rfl
  | case2 s arg args harg ih =>
    rw [parseMore_positional harg, ← ih, addArgs, withArgs, List.append_assoc]
    rfl
  | case3 s arg args harg =>
    cases eq_of_classify_terminator harg
    rw [parseMore_terminator, addArgs, withArgs, List.append_assoc]
    rfl
  | case4 s arg args body long harg hr =>
    have hr' : (s.withArgs (first ++ s.args)).recognise body long = none := hr
    simp only [parseMore, harg, hr']
  | case5 s arg args body long harg r hr s₁ text hvalue s₂ hassign ih =>
    obtain ⟨v, hread, rfl⟩ := assign_eq_ok hassign
    have hoffers : (s.withArgs (first ++ s.args)).Offers [arg] r text := .attached harg hr hvalue
    rw [← ih]
    exact (Takes.value hoffers hread).parseMore args
  | case6 s arg args body long harg r hr s₁ text hvalue e hassign =>
    obtain ⟨cause, hread, rfl⟩ := assign_eq_error hassign
    have hoffers : (s.withArgs (first ++ s.args)).Offers [arg] r text := .attached harg hr hvalue
    exact (hoffers.parseMore args).trans (by rw [hread]; rfl)
  | case7 s arg args body long harg r hr s₁ hvalue htruth ih =>
    rw [← ih]
    exact parseMore_switch (s := s.withArgs (first ++ s.args)) harg hr hvalue htruth args
  | case8 s arg body long harg r hr s₁ hvalue htruth =>
    exact parseMore_needsArgument (s := s.withArgs (first ++ s.args)) harg hr hvalue
      (Bool.eq_false_iff.2 htruth)
  | case9 s arg body long harg r hr s₁ hvalue htruth text args s₂ hassign ih =>
    obtain ⟨v, hread, rfl⟩ := assign_eq_ok hassign
    have hoffers : (s.withArgs (first ++ s.args)).Offers [arg, text] r text :=
      .detached harg hr hvalue (Bool.eq_false_iff.2 htruth)
    rw [← ih]
    exact (Takes.value hoffers hread).parseMore args
  | case10 s arg body long harg r hr s₁ hvalue htruth text args e hassign =>
    obtain ⟨cause, hread, rfl⟩ := assign_eq_error hassign
    have hoffers : (s.withArgs (first ++ s.args)).Offers [arg, text] r text :=
      .detached harg hr hvalue (Bool.eq_false_iff.2 htruth)
    exact (hoffers.parseMore args).trans (by rw [hread]; rfl)

end Positional

section Composition

theorem addArgs_addArgs (s : FlagSet) (first second : List String) :
    (s.addArgs first).addArgs second = s.addArgs (first ++ second) :=
  congrArg s.withArgs (List.append_assoc ..)

/-- Arguments that are whole pieces can be read before all others. -/
theorem Reads.parse_eq (h : (s.withArgs []).Reads args t) (rest : List String) :
    s.parse (args ++ rest) =
      ((t.parse rest).1, (t.parse rest).2.withArgs (t.args ++ (t.parse rest).2.args)) := by
  have hfirst := parseMore_withArgs (t.withArgs []) t.args rest
  have hargs : (t.withArgs []).withArgs (t.args ++ (t.withArgs []).args) = t :=
    congrArg t.withArgs (List.append_nil t.args)
  rw [hargs] at hfirst
  exact (h.parseMore rest).trans hfirst

/-- Behind a terminator all further arguments are positional. -/
theorem MeetsTerminator.parse_eq (h : s.MeetsTerminator args)
    (hargs : s.parse args = (none, t)) (rest : List String) :
    s.parse (args ++ rest) = (none, t.addArgs rest) := by
  obtain ⟨before, after, u, rfl, hreads⟩ := h.withArgs []
  have hmore : ∀ rest, s.parse (before ++ "--" :: rest) = (none, u.addArgs rest) := fun rest =>
    (hreads.parseMore _).trans (parseMore_terminator rest)
  rw [hmore after] at hargs
  cases hargs
  rw [List.append_assoc, List.cons_append, hmore, addArgs_addArgs]

theorem reads_of_parse (h : s.parse args = (none, t)) (hnot : ¬ s.MeetsTerminator args) :
    (s.withArgs []).Reads args t := by
  rcases reads_of_parseMore h with hreads | ⟨before, after, u, heq, hreads, -⟩
  · exact hreads
  · have hmeets : (s.withArgs []).MeetsTerminator args := ⟨before, after, u, heq, hreads⟩
    exact absurd (hmeets.withArgs s.args) hnot

/-- Reading declares nothing. -/
theorem names_take (s : FlagSet) (g : Given) :
    (s.take g).flags.map (·.name) = s.flags.map (·.name) := by
  change (s.flags.map _).map _ = _
  rw [List.map_map]
  refine List.map_congr_left fun f _ => ?_
  rw [Function.comp_apply]
  split <;> rfl

theorem Takes.names_eq (h : s.Takes taken s') : s'.flags.map (·.name) = s.flags.map (·.name) := by
  cases h with
  | positional _ => rfl
  | switch _ _ _ _ | value _ _ => exact names_take s _

theorem Reads.names_eq (h : s.Reads args t) : t.flags.map (·.name) = s.flags.map (·.name) := by
  induction h with
  | nothing => rfl
  | piece htakes _ ih => exact ih.trans htakes.names_eq

/-- Reading is compositional. Arguments that are read without a fault and without a terminator
can be followed by any others: reading both lists at once is reading the second one after the
first, and the positional arguments are those of the first and then those of the second. So the
last value of a flag wins: it is that of the second list if there is one. If there is a
terminator, the second list is positional as it stands. -/
theorem parse_compositional {s t : FlagSet} {a : List String} (h : s.parse a = (none, t))
    (b : List String) :
    (¬ s.MeetsTerminator a →
      s.parse (a ++ b) =
          ((t.parse b).1, { (t.parse b).2 with args := t.args ++ (t.parse b).2.args }) ∧
        ((s.flags.map (·.name)).Nodup → ∀ u, t.parse b = (none, u) →
          ∃ given, t.Gives b given u.args ∧ ∀ name, (s.parse (a ++ b)).2.find? name =
            (t.find? name).map fun f =>
              { f with value := (Given.latest? given name).getD f.value })) ∧
      (s.MeetsTerminator a → s.parse (a ++ b) = (none, { t with args := t.args ++ b })) := by
  refine ⟨fun hnot => ?_, fun hmeets => hmeets.parse_eq h b⟩
  have hreads := reads_of_parse h hnot
  have hboth := hreads.parse_eq b
  refine ⟨hboth, fun hnames u hu => ?_⟩
  obtain ⟨given, hgives, -, hfind⟩ := parse_gives (hreads.names_eq ▸ hnames) hu
  refine ⟨given, hgives, fun name => ?_⟩
  rw [hboth, hu]
  exact hfind name

/-- A file named `--` is not a terminator. The file that is given after it counts, and what
stands behind a terminator is positional. -/
theorem parse_config_twice :
    (¬ Explore.flags.MeetsTerminator ["-c", "--", "fib"] ∧
      (Explore.flags.parse (["-c", "--", "fib"] ++ ["--config=new", "2"])).1 = none ∧
      (Explore.flags.parse (["-c", "--", "fib"] ++ ["--config=new", "2"])).2.args = ["fib", "2"] ∧
      ((Explore.flags.parse (["-c", "--", "fib"] ++ ["--config=new", "2"])).2.find? "config").map
        (·.value) = some (.text "new")) ∧
    Explore.flags.MeetsTerminator ["fib", "--"] ∧
      (Explore.flags.parse (["fib", "--"] ++ ["-c", "--"])).2.args = ["fib", "-c", "--"] := by
  have hfirst : Explore.flags.parse ["-c", "--", "fib"] =
      (none, (Explore.flags.parse ["-c", "--", "fib"]).2) := Prod.ext (by decide +kernel) rfl
  have hnot : ¬ Explore.flags.MeetsTerminator ["-c", "--", "fib"] := fun hmeets =>
    absurd (congrArg Prod.fst (hmeets.parse_eq hfirst ["--none"])) (by decide +kernel)
  have hsecond : Explore.flags.parse ["fib", "--"] =
      (none, (Explore.flags.parse ["fib", "--"]).2) := Prod.ext (by decide +kernel) rfl
  have hmeets : Explore.flags.MeetsTerminator ["fib", "--"] :=
    ⟨["fib"], [], _, rfl, .piece (.positional rfl) .nothing⟩
  obtain ⟨heq, -⟩ := (parse_compositional hfirst ["--config=new", "2"]).1 hnot
  have heq' := (parse_compositional hsecond ["-c", "--"]).2 hmeets
  rw [heq, heq']
  exact ⟨⟨hnot, by decide +kernel, by decide +kernel, by decide +kernel⟩, hmeets,
    by decide +kernel⟩

end Composition

section Spelling

/-- Flags as they can be declared: with different names, none of them empty. -/
structure Lawful (s : FlagSet) : Prop where
  named : ∀ f ∈ s.flags, f.name ≠ ""
  names : (s.flags.map (·.name)).Nodup

namespace Lawful

theorem find? (h : s.Lawful) {f : Flag} (hf : f ∈ s.flags) : s.find? f.name = some f :=
  find?_of_nodup h.names hf

theorem find?_empty (h : s.Lawful) : s.find? "" = none :=
  List.find?_eq_none.2 fun f hf heq => h.named f hf (beq_iff_eq.1 heq)

theorem empty : FlagSet.empty.Lawful :=
  ⟨fun _ hf => absurd hf List.not_mem_nil, List.nodup_nil⟩

theorem concat (h : s.Lawful) {f : Flag} (hname : f.name ≠ "") (hfree : s.find? f.name = none) :
    { s with flags := s.flags ++ [f] }.Lawful := by
  constructor
  · intro g hg
    rcases List.mem_append.1 hg with hg | hg
    · exact h.named g hg
    · rw [List.mem_singleton.1 hg]
      exact hname
  · rw [List.map_append, List.map_singleton]
    refine List.nodup_append'.2 ⟨h.names, List.nodup_singleton _, List.disjoint_singleton.2 ?_⟩
    intro hmem
    obtain ⟨g, hg, heq⟩ := List.mem_map.1 hmem
    exact List.find?_eq_none.1 hfree g hg (beq_iff_eq.2 heq)

/-- Flags stay lawful whatever is declared, even if something is wrong with it. -/
theorem define (h : s.Lawful) (f : Flag) : (s.define f).2.Lawful := by
  unfold FlagSet.define
  split
  · exact h
  next hname =>
    have hname' : f.name ≠ "" := by simpa using hname
    split
    · exact h
    next hfree =>
      have hlawful := h.concat hname' (Option.not_isSome_iff_eq_none.1 hfree)
      split <;> exact hlawful

theorem defineAll (h : s.Lawful) (flags : List Flag) : (s.defineAll flags).2.Lawful := by
  induction flags generalizing s with
  | nil => exact h
  | cons f flags ih =>
    have hfirst := h.define f
    rw [FlagSet.defineAll]
    split
    next s₁ heq =>
      rw [heq] at hfirst
      exact ih hfirst
    next => exact hfirst

theorem defineGroup (h : s.Lawful) (g : FlagGroup) : (s.defineGroup g).2.Lawful := by
  have hall := h.defineAll (g.toggles.flatMap Toggle.flags)
  unfold FlagSet.defineGroup
  split
  next s₁ heq =>
    rw [heq] at hall
    exact ⟨hall.named, hall.names⟩
  next => exact hall

end Lawful

/-- The ways to write that a flag with a name and a shorthand is to have a value. A value that
is not empty may stand right behind the shorthand, unless what stands before the first `=` is
then the name of a flag. -/
inductive Spells (s : FlagSet) (name : String) (x : Char) (value : String) : List String → Prop
  | longAttached : Spells s name x value ["--" ++ name ++ "=" ++ value]
  | shortAttached : Spells s name x value ["-" ++ name ++ "=" ++ value]
  | long : Spells s name x value ["--" ++ name, value]
  | short : Spells s name x value ["-" ++ name, value]
  | letter : Spells s name x value ["-" ++ String.singleton x, value]
  | letterAttached : value ≠ "" →
      s.find? (String.ofList ((x :: value.toList).takeWhile (· != '='))) = none →
      Spells s name x value ["-" ++ String.singleton x ++ value]

theorem classify_long (h : arg.toList = '-' :: '-' :: body) (hbody : body ≠ []) :
    classify arg = .option body true := by
  obtain ⟨c, cs, rfl⟩ := List.exists_cons_of_ne_nil hbody
  rw [classify, h]
  rfl

theorem classify_short {c : Char} (h : arg.toList = '-' :: c :: body) (hc : c ≠ '-') :
    classify arg = .option (c :: body) false := by
  unfold classify
  rw [h]
  split
  next heq =>
    simp only [List.cons.injEq] at heq
    exact absurd heq.2.1 hc
  next heq =>
    simp only [List.cons.injEq] at heq
    exact absurd heq.2.1 hc
  next heq =>
    simp only [List.cons.injEq, true_and] at heq
    rw [heq.1, heq.2]
  next hne => exact absurd rfl (hne c body)

/-- The part of an option before its first `=`. -/
theorem cutAtEquals_fst (body : List Char) :
    (cutAtEquals body).1 = body.takeWhile (· != '=') := by
  unfold cutAtEquals
  split
  next heq =>
    have happend := List.takeWhile_append_dropWhile (p := (· != '=')) (l := body)
    rw [heq, List.append_nil] at happend
    exact happend.symm
  next => rfl

section

variable {name : List Char} (hname : '=' ∉ name)

include hname

theorem bne_equals_of_notMem : ∀ c ∈ name, (c != '=') = true := fun _ hc =>
  bne_iff_ne.2 fun heq => hname (heq ▸ hc)

theorem cutAtEquals_of_notMem : cutAtEquals name = (name, none) := by
  have hdrop : (name ++ []).dropWhile (· != '=') = [] :=
    List.dropWhile_append_of_pos (bne_equals_of_notMem hname)
  rw [List.append_nil] at hdrop
  rw [cutAtEquals, hdrop]

theorem cutAtEquals_append (value : List Char) :
    cutAtEquals (name ++ '=' :: value) = (name, some value) := by
  have hall := bne_equals_of_notMem hname
  have hdrop : (name ++ '=' :: value).dropWhile (· != '=') = '=' :: value :=
    List.dropWhile_append_of_pos hall
  have htake : (name ++ '=' :: value).takeWhile (· != '=') = name :=
    (List.takeWhile_append_of_pos hall).trans (List.append_nil name)
  rw [cutAtEquals, hdrop, htake]

variable {f : Flag}

/-- A flag is recognised by its name, with a value behind an `=` or without. -/
theorem recognise_name (hf : s.find? (String.ofList name) = some f) (long : Bool) :
    s.recognise name long = some ⟨f, String.ofList name, none⟩ := by
  simp only [recognise, cutAtEquals_of_notMem hname, hf]
  rfl

theorem recognise_nameEquals (hf : s.find? (String.ofList name) = some f) (value : List Char)
    (long : Bool) : s.recognise (name ++ '=' :: value) long =
      some ⟨f, String.ofList name, some (String.ofList value)⟩ := by
  simp only [recognise, cutAtEquals_append hname, hf]
  rfl

end

/-- A flag is recognised by its shorthand, unless something that starts with it is a name. -/
theorem recognise_letter {f : Flag} {x : Char} {value : List Char}
    (hfree : s.find? (String.ofList ((x :: value).takeWhile (· != '='))) = none)
    (hf : s.findShorthand? (String.singleton x) = some f) (hx : x.toNat < 0x80) :
    s.recognise (x :: value) false =
      some ⟨f, String.singleton x, if value.isEmpty then none else some (String.ofList value)⟩ := by
  rw [← cutAtEquals_fst] at hfree
  simp only [recognise, hfree, hf, if_pos hx, Option.map_some]

/-- A flag that takes a value and can be given by its name and by a letter. The letter is no
name of a flag itself. -/
structure Lettered (s : FlagSet) (f : Flag) (x : Char) : Prop where
  valued : f.value.isTruth = false
  noEquals : '=' ∉ f.name.toList
  noDash : f.name.toList.head? ≠ some '-'
  shorthand : s.findShorthand? (String.singleton x) = some f
  byte : x.toNat < 0x80
  letter : x ≠ '-'
  free : s.find? (String.singleton x) = none

namespace Lettered

variable {f : Flag} {x : Char} (h : s.Lettered f x) (hs : s.Lawful)

include h

theorem mem : f ∈ s.flags := by
  have hfind := h.shorthand
  unfold findShorthand? at hfind
  split at hfind
  · cases hfind
  · exact List.mem_of_find?_eq_some hfind

include hs

theorem name_eq_cons : ∃ c cs, f.name.toList = c :: cs ∧ c ≠ '-' := by
  cases hname : f.name.toList with
  | nil => exact absurd (String.toList_injective hname) (hs.named f h.mem)
  | cons c cs =>
    refine ⟨c, cs, rfl, fun hc => h.noDash ?_⟩
    rw [hname, hc, List.head?_cons]

theorem find? : s.find? (String.ofList f.name.toList) = some f := by
  rw [String.ofList_toList]
  exact hs.find? h.mem

/-- A lone letter is no name of a flag, and if it is `=`, what stands before it is none. -/
theorem free_letter : s.find? (String.ofList ([x].takeWhile (· != '='))) = none := by
  by_cases hx : x = '='
  · subst hx
    exact hs.find?_empty
  · have htake : [x].takeWhile (· != '=') = [x] := by simp [hx]
    rw [htake]
    exact h.free

/-- However it is spelled, the value is offered to the flag. -/
theorem offers {value : String} (hspells : s.Spells f.name x value taken) :
    ∃ r, s.Offers taken r value ∧ r.flag = f := by
  obtain ⟨c, cs, hcons, hc⟩ := h.name_eq_cons hs
  have htext : some (String.ofList value.toList) = some value := by rw [String.ofList_toList]
  cases hspells with
  | longAttached =>
    have harg : ("--" ++ f.name ++ "=" ++ value).toList =
        '-' :: '-' :: (f.name.toList ++ '=' :: value.toList) := by simp
    exact ⟨_, .attached (classify_long harg (by simp))
      (recognise_nameEquals h.noEquals (h.find? hs) _ _) htext, rfl⟩
  | shortAttached =>
    have harg : ("-" ++ f.name ++ "=" ++ value).toList =
        '-' :: c :: (cs ++ '=' :: value.toList) := by simp [hcons]
    have hr := recognise_nameEquals h.noEquals (h.find? hs) value.toList false
    rw [hcons] at hr
    exact ⟨_, .attached (classify_short harg hc) hr htext, rfl⟩
  | long =>
    have harg : ("--" ++ f.name).toList = '-' :: '-' :: f.name.toList := by simp
    exact ⟨_, .detached (classify_long harg (by simp [hcons]))
      (recognise_name h.noEquals (h.find? hs) _) rfl h.valued, rfl⟩
  | short =>
    have harg : ("-" ++ f.name).toList = '-' :: c :: cs := by simp [hcons]
    have hr := recognise_name h.noEquals (h.find? hs) false
    rw [hcons] at hr
    exact ⟨_, .detached (classify_short harg hc) hr rfl h.valued, rfl⟩
  | letter =>
    have harg : ("-" ++ String.singleton x).toList = '-' :: x :: [] := by simp
    exact ⟨_, .detached (classify_short harg h.letter)
      (recognise_letter (h.free_letter hs) h.shorthand h.byte) rfl h.valued, rfl⟩
  | letterAttached hvalue hfree =>
    have harg : ("-" ++ String.singleton x ++ value).toList = '-' :: x :: value.toList := by simp
    have hempty : value.toList.isEmpty = false := by simpa using hvalue
    have hr := recognise_letter hfree h.shorthand h.byte
    rw [hempty] at hr
    exact ⟨_, .attached (classify_short harg h.letter) hr htext, rfl⟩

end Lettered

/-- Flags that are declared alike are offered the same values. -/
theorem Offers.congr (h : s.Offers taken r text) (hdeclared : s.declared = t.declared) :
    ∃ r', t.Offers taken r' text ∧ r'.flag.blank = r.flag.blank := by
  cases h with
  | attached harg hr hvalue =>
    obtain ⟨r', hr', hblank, hvalue'⟩ := recognise_of_declared hdeclared hr
    exact ⟨r', .attached harg hr' (hvalue'.trans hvalue), hblank⟩
  | detached harg hr hvalue htruth =>
    obtain ⟨r', hr', hblank, hvalue'⟩ := recognise_of_declared hdeclared hr
    obtain ⟨-, -, htruth'⟩ := Flag.alike_of_blank hblank
    exact ⟨r', .detached harg hr' (hvalue'.trans hvalue) (htruth'.trans htruth), hblank⟩

theorem Offers.mem (h : s.Offers taken r text) : r.flag ∈ s.flags := by
  cases h with
  | attached _ hr _ | detached _ hr _ _ => exact mem_of_recognise hr

/-- Reading changes nothing about what is declared. -/
theorem Takes.declared_eq (h : s.Takes taken s') (hnames : (s.flags.map (·.name)).Nodup) :
    s'.declared = s.declared := by
  cases h with
  | positional _ => rfl
  | switch _ hr _ htruth =>
    exact declared_take hnames (mem_of_recognise hr) (FlagValue.blank_of_isTruth htruth true)
  | value hoffers hread => exact declared_take hnames hoffers.mem (FlagValue.blank_of_read hread)

theorem Reads.declared_eq (h : s.Reads args t) (hnames : (s.flags.map (·.name)).Nodup) :
    t.declared = s.declared := by
  induction h with
  | nothing => rfl
  | piece htakes _ ih => exact (ih (htakes.names_eq ▸ hnames)).trans (htakes.declared_eq hnames)

/-- An option that is spelled in some way gives the flag the value that the text stands for, and
fails if it stands for none. -/
theorem parse_of_spells {f : Flag} {x : Char} {value : String} (hs : s.Lawful)
    (hf : s.Lettered f x) (hspells : s.Spells f.name x value taken)
    (hbefore : (s.withArgs []).Reads args t) (after : List String) :
    (∀ v, f.value.read value = .ok v →
      s.parse (args ++ taken ++ after) = (t.take ⟨f.name, v⟩).parseMore after) ∧
    (∀ e, f.value.read value = .error e → (s.parse (args ++ taken ++ after)).1 ≠ none) := by
  obtain ⟨r, hoffers, rfl⟩ := hf.offers hs hspells
  obtain ⟨r', hoffers', hblank⟩ := hoffers.congr (hbefore.declared_eq hs.names).symm
  obtain ⟨hname, hread, -⟩ := Flag.alike_of_blank hblank
  have hparse : s.parse (args ++ taken ++ after) = t.parseMore (taken ++ after) := by
    rw [List.append_assoc]
    exact hbefore.parseMore _
  rw [hparse, hoffers'.parseMore, hname, hread]
  constructor
  · intro v hv
    rw [hv]
  · intro e he
    rw [he]
    exact Option.some_ne_none _

/-- All spellings of an option mean the same. Whatever arguments are read before it and follow
it, one spelling is read without a fault if and only if any other is, and then with the same
result: the same values of all flags, the same flags that count as given and the same positional
arguments. What they mean is that the flag takes the value. -/
theorem spellings_agree {s t : FlagSet} (hs : s.Lawful) {f : Flag} {x : Char}
    (hf : s.Lettered f x) (value : String) {before : List String}
    (hbefore : s.parse before = (none, t)) (hnot : ¬ s.MeetsTerminator before)
    (after : List String) {p q : List String} (hp : s.Spells f.name x value p)
    (hq : s.Spells f.name x value q) :
    ((s.parse (before ++ p ++ after)).1 = none ↔ (s.parse (before ++ q ++ after)).1 = none) ∧
      ((s.parse (before ++ p ++ after)).1 = none →
        (s.parse (before ++ p ++ after)).2 = (s.parse (before ++ q ++ after)).2) ∧
      ∀ v, f.value.read value = .ok v →
        s.parse (before ++ p ++ after) = (t.take ⟨f.name, v⟩).parseMore after := by
  have hreads := reads_of_parse hbefore hnot
  obtain ⟨hok, herror⟩ := parse_of_spells hs hf hp hreads after
  obtain ⟨hok', herror'⟩ := parse_of_spells hs hf hq hreads after
  cases hread : f.value.read value with
  | ok v =>
    rw [hok v hread, hok' v hread]
    refine ⟨Iff.rfl, fun _ => rfl, fun w hw => ?_⟩
    cases hw
    rfl
  | error e =>
    have hfails := herror e hread
    refine ⟨⟨fun h => absurd h hfails, fun h => absurd h (herror' e hread)⟩,
      fun h => absurd h hfails, fun v hv => by cases hv⟩

/-- The size of the memory as `--memory-size=0x40` and as `-m0x40`, between an option before it
and a switch and an argument after it. -/
theorem memorySize_spellings_agree :
    Explore.flags.Spells "memory-size" 'm' "0x40" ["-m0x40"] ∧
      (Explore.flags.parse (["-p", "layout"] ++ ["-m0x40"] ++ ["-d", "fib"])).1 = none ∧
      (Explore.flags.parse (["-p", "layout"] ++ ["-m0x40"] ++ ["-d", "fib"])).2 =
        (Explore.flags.parse
          (["-p", "layout"] ++ ["--memory-size=0x40"] ++ ["-d", "fib"])).2 := by
  have hlawful : Explore.flags.Lawful := (Lawful.empty.defineAll _).defineGroup _
  have hm : (Explore.flags.findShorthand? (String.singleton 'm')).map
      (fun f => (f.name, f.value.isTruth)) = some ("memory-size", false) := by decide +kernel
  obtain ⟨f, hf, hboth⟩ := Option.map_eq_some_iff.1 hm
  obtain ⟨hname, hvalued⟩ := Prod.ext_iff.1 hboth
  change f.name = "memory-size" at hname
  have hfree : Explore.flags.find? (String.singleton 'm') = none :=
    Option.isNone_iff_eq_none.1 (by decide +kernel)
  have hlettered : Explore.flags.Lettered f 'm' :=
    ⟨hvalued, by rw [hname]; decide, by rw [hname]; decide, hf, by decide, by decide, hfree⟩
  have hbefore : Explore.flags.parse ["-p", "layout"] =
      (none, (Explore.flags.parse ["-p", "layout"]).2) := Prod.ext (by decide +kernel) rfl
  have hnot : ¬ Explore.flags.MeetsTerminator ["-p", "layout"] := fun hmeets =>
    absurd (congrArg Prod.fst (hmeets.parse_eq hbefore ["--none"])) (by decide +kernel)
  have hp : Explore.flags.Spells "memory-size" 'm' "0x40" ["-m0x40"] :=
    .letterAttached (by decide) (Option.isNone_iff_eq_none.1 (by decide +kernel))
  have hok : (Explore.flags.parse (["-p", "layout"] ++ ["-m0x40"] ++ ["-d", "fib"])).1 = none := by
    decide +kernel
  refine ⟨hp, hok, ?_⟩
  rw [← hname] at hp
  have hq : Explore.flags.Spells f.name 'm' "0x40" ["--memory-size=0x40"] := hname ▸ .longAttached
  exact (spellings_agree hlawful hlettered "0x40" hbefore hnot ["-d", "fib"] hp hq).2.1 hok

end Spelling

end TreeCode.FlagSet
