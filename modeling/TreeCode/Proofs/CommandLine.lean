/-
# What a command line gives

`FlagSet.Gives` says what a command line gives: values to flags, in the order of the
arguments, and the positional arguments. It looks at the declared flags only, not at what has
been read before. `FlagSet.parse_gives` is what reading arguments comes to: flags take the
values that they are given, one after the other.

So the last value wins: a flag that is looked up after the arguments have been read has the
value that it is given last, and counts as given if there is one.
-/

import Mathlib.Data.List.Nodup
import TreeCode.Flag

namespace TreeCode

/-- A value that a command line gives to a flag. -/
structure Given where
  flag : String
  value : FlagValue
deriving DecidableEq, Repr

/-- The value that a flag is given last. -/
def Given.latest? : List Given → String → Option FlagValue
  | [], _ => none
  | g :: rest, name => (latest? rest name).or (if g.flag = name then some g.value else none)

namespace FlagValue

/-- A value of the same kind, whatever the value is. -/
def blank : FlagValue → FlagValue
  | text _ => text ""
  | truth _ => truth false
  | word _ => word 0
  | count _ => count 0

theorem read_blank (v : FlagValue) : v.blank.read = v.read := by
  funext s
  cases v <;> rfl

theorem isTruth_blank (v : FlagValue) : v.blank.isTruth = v.isTruth := by
  cases v <;> rfl

/-- A text is read as a value of the same kind. -/
theorem blank_of_read {v w : FlagValue} {s : String} (h : v.read s = .ok w) :
    w.blank = v.blank := by
  cases v with
  | text _ =>
    cases h
    rfl
  | truth _ =>
    simp only [read] at h
    split at h
    · cases h
      rfl
    · split at h
      · cases h
        rfl
      · cases h
  | word _ | count _ =>
    simp only [read] at h
    split at h
    · cases h
      rfl
    · cases h

theorem blank_of_isTruth {v : FlagValue} (h : v.isTruth = true) (b : Bool) :
    (truth b).blank = v.blank := by
  cases v with
  | truth _ => rfl
  | _ => cases h

end FlagValue

/-- A flag as it is declared, whatever its value is. -/
def Flag.blank (f : Flag) : Flag :=
  { f with value := f.value.blank }

/-- Flags that are declared alike have the same name and read texts alike. -/
theorem Flag.alike_of_blank {f g : Flag} (h : g.blank = f.blank) :
    g.name = f.name ∧ g.value.read = f.value.read ∧ g.value.isTruth = f.value.isTruth := by
  have hname : g.blank.name = f.blank.name := congrArg Flag.name h
  have hvalue : g.value.blank = f.value.blank := congrArg Flag.value h
  refine ⟨hname, ?_, ?_⟩
  · rw [← g.value.read_blank, hvalue, f.value.read_blank]
  · rw [← g.value.isTruth_blank, hvalue, f.value.isTruth_blank]

namespace FlagSet

variable {s t : FlagSet}

/-- A command line gives values to flags, and positional arguments. -/
inductive Gives (s : FlagSet) : List String → List Given → List String → Prop
  | nothing : Gives s [] [] []
  | positional {arg args given rest} : classify arg = .positional → Gives s args given rest →
      Gives s (arg :: args) given (arg :: rest)
  | terminator {arg args} : classify arg = .terminator → Gives s (arg :: args) [] args
  /-- The value stands in the same argument. -/
  | attached {arg body long r text v args given rest} : classify arg = .option body long →
      s.recognise body long = some r → r.value = some text → r.flag.value.read text = .ok v →
      Gives s args given rest → Gives s (arg :: args) (⟨r.flag.name, v⟩ :: given) rest
  /-- A Boolean flag without a value is turned on. -/
  | switch {arg body long r args given rest} : classify arg = .option body long →
      s.recognise body long = some r → r.value = none → r.flag.value.isTruth = true →
      Gives s args given rest → Gives s (arg :: args) (⟨r.flag.name, .truth true⟩ :: given) rest
  /-- The value is the next argument. -/
  | detached {arg body long r text v args given rest} : classify arg = .option body long →
      s.recognise body long = some r → r.value = none → r.flag.value.isTruth = false →
      r.flag.value.read text = .ok v → Gives s args given rest →
      Gives s (arg :: text :: args) (⟨r.flag.name, v⟩ :: given) rest

/-- The flags as they are declared. -/
def declared (s : FlagSet) : List Flag :=
  s.flags.map Flag.blank

theorem map_find? (s : FlagSet) (name : String) :
    (s.find? name).map Flag.blank = s.declared.find? fun f => f.name == name := by
  rw [declared, List.find?_map]
  rfl

theorem map_findShorthand? (h : s.declared = t.declared) (shorthand : String) :
    (s.findShorthand? shorthand).map Flag.blank = (t.findShorthand? shorthand).map Flag.blank := by
  have hmap : ∀ u : FlagSet, (u.flags.find? fun f => f.shorthand == shorthand).map Flag.blank =
      u.declared.find? fun f => f.shorthand == shorthand := by
    intro u
    rw [declared, List.find?_map]
    rfl
  unfold findShorthand?
  split
  · rfl
  · rw [hmap, hmap, h]

variable (given : List Given) {args : List String} {body : List Char} {long : Bool} {r : Recognised}

/-- A declared flag is recognised whatever has been read before. -/
theorem recognise_of_declared (h : s.declared = t.declared) (hr : s.recognise body long = some r) :
    ∃ r', t.recognise body long = some r' ∧ r'.flag.blank = r.flag.blank ∧ r'.value = r.value := by
  have hname : ∀ name, (s.find? name).map Flag.blank = (t.find? name).map Flag.blank := by
    intro name
    rw [map_find?, map_find?, h]
  have hnone : ∀ {a b : Option Flag}, a.map Flag.blank = b.map Flag.blank → a = none →
      b = none := by
    rintro a b hab rfl
    exact Option.map_eq_none_iff.1 hab.symm
  have hsome : ∀ {a b : Option Flag} {f : Flag}, a.map Flag.blank = b.map Flag.blank → a = some f →
      ∃ g, b = some g ∧ g.blank = f.blank := by
    rintro a b f hab rfl
    obtain ⟨g, hg, hblank⟩ := Option.map_eq_some_iff.1 hab.symm
    exact ⟨g, hg, hblank⟩
  unfold recognise at hr ⊢
  simp only at hr ⊢
  split at hr
  next f hf =>
    cases hr
    obtain ⟨g, hg, hblank⟩ := hsome (hname _) hf
    rw [hg]
    exact ⟨_, rfl, hblank, rfl⟩
  next hf =>
    rw [hnone (hname _) hf]
    split at hr
    next c rest =>
      split at hr
      next hc =>
        obtain ⟨f, hf, rfl⟩ := Option.map_eq_some_iff.1 hr
        obtain ⟨g, hg, hblank⟩ := hsome (map_findShorthand? h _) hf
        simp only [if_pos hc, hg]
        exact ⟨_, rfl, hblank, rfl⟩
      next => cases hr
    next => cases hr

theorem Gives.congr {rest : List String} {given : List Given} (hg : s.Gives args given rest)
    (h : s.declared = t.declared) : t.Gives args given rest := by
  induction hg with
  | nothing => exact .nothing
  | positional harg _ ih => exact .positional harg ih
  | terminator harg => exact .terminator harg
  | attached harg hr hvalue hread _ ih =>
    obtain ⟨r', hr', hblank, hvalue'⟩ := recognise_of_declared h hr
    obtain ⟨hname, hreads, -⟩ := Flag.alike_of_blank hblank
    rw [← hname]
    exact .attached harg hr' (hvalue'.trans hvalue) (hreads ▸ hread) ih
  | switch harg hr hvalue htruth _ ih =>
    obtain ⟨r', hr', hblank, hvalue'⟩ := recognise_of_declared h hr
    obtain ⟨hname, -, htruth'⟩ := Flag.alike_of_blank hblank
    rw [← hname]
    exact .switch harg hr' (hvalue'.trans hvalue) (htruth'.trans htruth) ih
  | detached harg hr hvalue htruth hread _ ih =>
    obtain ⟨r', hr', hblank, hvalue'⟩ := recognise_of_declared h hr
    obtain ⟨hname, hreads, htruth'⟩ := Flag.alike_of_blank hblank
    rw [← hname]
    exact .detached harg hr' (hvalue'.trans hvalue) (htruth'.trans htruth) (hreads ▸ hread) ih

/-- A flag takes a value that it is given. -/
def take (s : FlagSet) (g : Given) : FlagSet :=
  (s.markChanged g.flag).setValue g.flag g.value

theorem addArgs_nil (s : FlagSet) : s.addArgs [] = s := by
  rw [addArgs, List.append_nil]

theorem foldl_take_addArgs (s : FlagSet) (args : List String) :
    given.foldl take (s.addArgs args) = (given.foldl take s).addArgs args := by
  induction given generalizing s with
  | nil => rfl
  | cons g given ih => exact ih (s.take g)

/-- A flag that is recognised is one of the set. -/
theorem mem_of_recognise (h : s.recognise body long = some r) : r.flag ∈ s.flags := by
  unfold recognise at h
  simp only at h
  split at h
  next f hf =>
    cases h
    exact List.mem_of_find?_eq_some hf
  next =>
    split at h
    next =>
      split at h
      next =>
        obtain ⟨f, hf, rfl⟩ := Option.map_eq_some_iff.1 h
        unfold findShorthand? at hf
        split at hf
        · cases hf
        · exact List.mem_of_find?_eq_some hf
      next => cases h
    next => cases h

/-- Values of the right kind change nothing about what is declared. -/
theorem declared_take (hnames : (s.flags.map (·.name)).Nodup) {f : Flag} (hf : f ∈ s.flags)
    {v : FlagValue} (hv : v.blank = f.value.blank) :
    (s.take ⟨f.name, v⟩).declared = s.declared := by
  change (s.flags.map _).map Flag.blank = s.flags.map Flag.blank
  rw [List.map_map]
  refine List.map_congr_left fun g hg => ?_
  rw [Function.comp_apply]
  split
  next hname =>
    obtain rfl : g = f := List.inj_on_of_nodup_map hnames hg hf hname
    simp only [Flag.blank, hv]
  next => rfl

theorem names_declared (s : FlagSet) : s.declared.map (·.name) = s.flags.map (·.name) := by
  rw [declared, List.map_map]
  rfl

theorem assign_eq_ok {text : String} (h : s.assign r text = .ok t) :
    ∃ v, r.flag.value.read text = .ok v ∧ t = s.setValue r.flag.name v := by
  unfold assign at h
  split at h
  next v hv =>
    cases h
    exact ⟨v, hv, rfl⟩
  next => cases h

/-- Reading further arguments gives flags the values of these. -/
theorem parseMore_gives (hnames : (s.flags.map (·.name)).Nodup) (h : s.parseMore args = (none, t)) :
    ∃ given rest, s.Gives args given rest ∧ t = (given.foldl take s).addArgs rest := by
  -- how a value for a flag of the set goes on
  have hnext : ∀ {s : FlagSet} {f : Flag} {v : FlagValue} {args : List String},
      (s.flags.map (·.name)).Nodup → f ∈ s.flags → v.blank = f.value.blank →
      (((s.take ⟨f.name, v⟩).flags.map (·.name)).Nodup → ∃ given rest,
        (s.take ⟨f.name, v⟩).Gives args given rest ∧
          t = (given.foldl take (s.take ⟨f.name, v⟩)).addArgs rest) →
      ∃ given rest, s.Gives args given rest ∧
        t = ((⟨f.name, v⟩ :: given).foldl take s).addArgs rest := by
    intro s f v args hnames hf hv hlater
    have hdeclared := declared_take hnames hf hv
    obtain ⟨given, rest, hgives, ht⟩ := hlater (by
      rw [← names_declared, hdeclared, names_declared]
      exact hnames)
    exact ⟨given, rest, hgives.congr hdeclared, ht⟩
  fun_induction parseMore s args with
  | case1 s =>
    cases h
    exact ⟨[], [], .nothing, (addArgs_nil _).symm⟩
  | case2 s arg args harg ih =>
    obtain ⟨given, rest, hgives, ht⟩ := ih hnames h
    refine ⟨given, arg :: rest, .positional harg (hgives.congr rfl), ?_⟩
    rw [ht, foldl_take_addArgs, addArgs, addArgs, addArgs, List.append_assoc]
    rfl
  | case3 s arg args harg =>
    cases h
    exact ⟨[], args, .terminator harg, rfl⟩
  | case4 | case6 | case8 | case10 => cases h
  | case5 s arg args body long harg r hr s₁ text hvalue s₂ hassign ih =>
    obtain ⟨v, hread, rfl⟩ := assign_eq_ok hassign
    obtain ⟨given, rest, hgives, ht⟩ := hnext hnames (mem_of_recognise hr)
      (FlagValue.blank_of_read hread) fun hnames => ih hnames h
    exact ⟨_, rest, .attached harg hr hvalue hread hgives, ht⟩
  | case7 s arg args body long harg r hr s₁ hvalue htruth ih =>
    obtain ⟨given, rest, hgives, ht⟩ := hnext hnames (mem_of_recognise hr)
      (FlagValue.blank_of_isTruth htruth true) fun hnames => ih hnames h
    exact ⟨_, rest, .switch harg hr hvalue htruth hgives, ht⟩
  | case9 s arg body long harg r hr s₁ hvalue htruth text args s₂ hassign ih =>
    obtain ⟨v, hread, rfl⟩ := assign_eq_ok hassign
    obtain ⟨given, rest, hgives, ht⟩ := hnext hnames (mem_of_recognise hr)
      (FlagValue.blank_of_read hread) fun hnames => ih hnames h
    exact ⟨_, rest, .detached harg hr hvalue (Bool.eq_false_iff.2 htruth) hread hgives, ht⟩

theorem isChanged_take (s : FlagSet) (g : Given) (name : String) :
    (s.take g).isChanged name = (s.isChanged name || decide (g.flag = name)) := by
  change (if s.changed.contains g.flag then s.changed else s.changed ++ [g.flag]).contains name =
    (s.changed.contains name || decide (g.flag = name))
  by_cases hname : g.flag = name
  · subst hname
    split <;> simp_all
  · have hother : ¬ name = g.flag := fun h => hname h.symm
    split <;> simp [hname, hother]

/-- A flag counts as given if it counted as given before, or is given a value. -/
theorem isChanged_foldl_take (s : FlagSet) (name : String) :
    (given.foldl take s).isChanged name =
      (s.isChanged name || (Given.latest? given name).isSome) := by
  induction given generalizing s with
  | nil => simp [Given.latest?]
  | cons g given ih =>
    rw [List.foldl_cons, ih, isChanged_take, Given.latest?]
    by_cases hname : g.flag = name <;> cases Given.latest? given name <;> simp [hname]

theorem find?_take (s : FlagSet) (g : Given) (name : String) :
    (s.take g).find? name = (s.find? name).map fun f =>
      { f with value := if g.flag = name then g.value else f.value } := by
  change (s.flags.map _).find? _ = (s.flags.find? _).map _
  rw [List.find?_map]
  have hname : ((fun f : Flag => f.name == name) ∘ fun f =>
      if f.name = g.flag then { f with value := g.value } else f) = fun f => f.name == name := by
    funext f
    rw [Function.comp_apply]
    split <;> rfl
  rw [hname]
  cases hf : s.flags.find? fun f => f.name == name with
  | none => rfl
  | some f =>
    have hfound := List.find?_some hf
    obtain rfl : f.name = name := beq_iff_eq.1 hfound
    rw [Option.map_some, Option.map_some]
    by_cases hgiven : f.name = g.flag
    · rw [if_pos hgiven, if_pos hgiven.symm]
    · rw [if_neg hgiven, if_neg fun h => hgiven h.symm]

/-- A flag has the value that it is given last. -/
theorem find?_foldl_take (s : FlagSet) (name : String) :
    (given.foldl take s).find? name = (s.find? name).map fun f =>
      { f with value := (Given.latest? given name).getD f.value } := by
  induction given generalizing s with
  | nil => exact Option.map_id'.symm
  | cons g given ih =>
    rw [List.foldl_cons, ih, find?_take, Option.map_map]
    congr 1
    funext f
    rw [Function.comp_apply, Given.latest?]
    by_cases hname : g.flag = name <;> cases Given.latest? given name <;> simp [hname]

/-- Arguments that are read without a fault give values to flags, and a flag has the last of
its values. -/
theorem parse_gives (hnames : (s.flags.map (·.name)).Nodup) (h : s.parse args = (none, t)) :
    ∃ given, s.Gives args given t.args ∧
      (∀ name, t.isChanged name = (s.isChanged name || (Given.latest? given name).isSome)) ∧
      ∀ name, t.find? name = (s.find? name).map fun f =>
        { f with value := (Given.latest? given name).getD f.value } := by
  obtain ⟨given, rest, hgives, rfl⟩ := parseMore_gives (s := { s with args := [] }) hnames h
  have hargs : ∀ (given : List Given) (u : FlagSet), (given.foldl take u).args = u.args := by
    intro given
    induction given with
    | nil => exact fun _ => rfl
    | cons g given ih => exact fun u => ih (u.take g)
  refine ⟨given, ?_, isChanged_foldl_take given _, find?_foldl_take given _⟩
  change s.Gives args given ((given.foldl take { s with args := [] }).args ++ rest)
  rw [hargs, List.nil_append]
  exact hgives.congr rfl

end FlagSet

end TreeCode
