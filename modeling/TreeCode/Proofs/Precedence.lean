/-
# Flags and settings files

Settings come from a file and from the flags of a command line. `Settings.overriddenBy` says
which go before: the phase and the limits that a command line gives, the switches that it turns
on, and the phases whose results it turns on or off. Everything else is left as the file has
it. `Explore.follow` explores a sample with just these settings, or complains about the
command line, whatever the file says.

A switch that a command line turns off explicitly is no exception to the latter: the file may
still turn it on. `Explore.stats_stay_on` is such a run.
-/

import TreeCode.Command.Explore
import TreeCode.Proofs.CommandLine

namespace TreeCode

namespace Given

/-- Whether a command line turns a Boolean flag on. -/
def turnsOn (given : List Given) (name : String) : Bool :=
  latest? given name == some (.truth true)

/-- The phase that a command line decides on. -/
def phase? (given : List Given) : Option Phase :=
  (latest? given "phase").bind fun v => Phase.ofName? v.asText

/-- The size of memory that a command line decides on. -/
def memorySize? (given : List Given) : Option Word :=
  (latest? given "memory-size").map (·.asWord)

/-- The depth of calls that a command line decides on. -/
def maxDepth? (given : List Given) : Option Int :=
  (latest? given "stack-depth").map (·.asWord.toInt)

/-- What a command line decides about a switch. It cannot turn a switch off. -/
def switch? (given : List Given) (name : String) : Option Bool :=
  if turnsOn given name then some true else none

/-- What a command line decides about the results of a phase. Turning them off goes before
turning them on. -/
def dump? (given : List Given) (p : Phase) : Option Bool :=
  if turnsOn given ("D" ++ "no-" ++ p.name) then some false else switch? given ("D" ++ p.name)

/-- The phase that a command line gives is none. -/
def unknownPhase? (given : List Given) : Option SettingsError :=
  (latest? given "phase").bind fun v =>
    if (Phase.ofName? v.asText).isNone then some (.unknownPhase v.asText) else none

/-- What is wrong with the settings that a command line decides on. -/
def fault? (given : List Given) : Option SettingsError :=
  (unknownPhase? given).or
    (if (memorySize? given).any (· < 0) || (maxDepth? given).any (· < 0) then some .negativeLimit
      else none)

end Given

namespace Settings

/-- The settings of a file where a command line goes before. -/
def overriddenBy (s : Settings) (given : List Given) : Settings where
  stopAfter := (Given.phase? given).getD s.stopAfter
  memorySize := (Given.memorySize? given).getD s.memorySize
  maxDepth := (Given.maxDepth? given).getD s.maxDepth
  debug := (Given.switch? given "debug").getD s.debug
  tree := (Given.switch? given "tree").getD s.tree
  stats := (Given.switch? given "stats").getD s.stats
  dumps p := (Given.dump? given p).getD (s.dumps p)

/-- The limits are those of a machine. -/
def Bounded (s : Settings) : Prop :=
  0 ≤ s.memorySize ∧ 0 ≤ s.maxDepth

theorem Bounded.applyDumps {names : List String} {s t : Settings} (hs : s.Bounded)
    (h : s.applyDumps names = (none, t)) : t.Bounded := by
  induction names generalizing s with
  | nil =>
    cases h
    exact hs
  | cons name names ih =>
    rw [Settings.applyDumps] at h
    split at h
    next p _ => exact ih (s := s.setDump p true) hs h
    next => cases h

theorem Bounded.applyMachine {s t : Settings} {m : MachineSection} (hs : s.Bounded)
    (h : s.applyMachine m = .ok t) : t.Bounded := by
  unfold Settings.applyMachine at h
  split at h
  next => cases h
  next hlimits =>
    simp only [Bool.or_eq_true, decide_eq_true_eq, not_or, Int64.not_lt] at hlimits
    cases h
    constructor
    · dsimp only
      split
      · exact hlimits.1
      · exact hs.1
    · dsimp only
      split
      next hdepth => exact Int64.le_iff_toInt_le.1 hlimits.2
      next => exact hs.2

/-- A file that is loaded without a fault leaves limits that a machine can have. -/
theorem Bounded.load {s t : Settings} {bytes : List UInt8}
    {read? : List UInt8 → Option SettingsFile} (hs : s.Bounded)
    (h : s.load bytes read? = (none, t)) : t.Bounded := by
  unfold Settings.load at h
  split at h
  next => cases h
  next f _ =>
    unfold Settings.applyFile at h
    simp only at h
    split at h
    next => cases h
    next s₁ hs₁ =>
      have hmachine : s₁.Bounded := by
        split at hs₁
        next =>
          cases hs₁
          exact hs
        next m _ => exact hs.applyMachine hs₁
      split at h
      next =>
        cases h
        exact hmachine
      next p _ =>
        unfold Settings.applyPhases at h
        split at h
        next => exact hmachine.applyDumps h
        next =>
          unfold Settings.setPhase at h
          split at h
          next s₂ hs₂ =>
            split at hs₂
            next q _ =>
              cases hs₂
              exact Bounded.applyDumps (s := { s₁ with stopAfter := q }) hmachine h
            next => cases hs₂
          next => cases h

end Settings

/-- A flag set holds what a command line gives to the flags of another one. -/
structure FlagSet.Holds (base flags : FlagSet) (given : List Given) : Prop where
  isChanged : ∀ name, flags.isChanged name = (Given.latest? given name).isSome
  find? : ∀ name, flags.find? name = (base.find? name).map fun f =>
    { f with value := (Given.latest? given name).getD f.value }

namespace FlagSet.Holds

variable {base flags : FlagSet} {given : List Given} (h : Holds base flags given) {name : String}
  {v : FlagValue}

include h

theorem textOf (hname : (base.find? name).isSome) (hv : Given.latest? given name = some v) :
    flags.textOf name = v.asText := by
  obtain ⟨f, hf⟩ := Option.isSome_iff_exists.1 hname
  rw [FlagSet.textOf, h.find?, hf, hv]
  rfl

theorem wordOf (hname : (base.find? name).isSome) (hv : Given.latest? given name = some v) :
    flags.wordOf name = v.asWord := by
  obtain ⟨f, hf⟩ := Option.isSome_iff_exists.1 hname
  rw [FlagSet.wordOf, h.find?, hf, hv]
  rfl

/-- A Boolean flag that is off by default is on if the command line turns it on. -/
theorem isOn (hname : (base.find? name).map (·.value) = some (.truth false)) :
    flags.isOn name = Given.turnsOn given name := by
  obtain ⟨f, hf, hvalue⟩ := Option.map_eq_some_iff.1 hname
  rw [FlagSet.isOn, h.find?, hf, Given.turnsOn, Option.map_some, Option.any_some, hvalue]
  cases Given.latest? given name with
  | none => rfl
  | some w => rw [Option.getD_some, Option.some_beq_some]

end FlagSet.Holds

namespace Explore

/-- The flags that arguments are read for. -/
def commandFlags : FlagSet :=
  (flags.define App.helpFlag).2

theorem commandFlags_names : (commandFlags.flags.map (·.name)).Nodup := by
  decide +kernel

/-- The switches and the toggles of phases are off by default. -/
theorem commandFlags_off : ∀ name ∈ ["debug", "tree", "stats"] ++ Phase.all.flatMap (fun p =>
      ["D" ++ p.name, "D" ++ "no-" ++ p.name]),
    (commandFlags.find? name).map (·.value) = some (.truth false) := by
  decide +kernel

variable {year : String} {args : List String} {flags : FlagSet}

/-- Arguments that lead anywhere are read without a fault. -/
theorem parse_of_request (h : request year args = .follow flags)
    : commandFlags.parse args = (none, flags) := by
  have hdefine : app.flags.define App.helpFlag = (none, commandFlags) :=
    Prod.ext (by decide +kernel) rfl
  unfold request App.run at h
  rw [hdefine] at h
  simp only at h
  cases hparse : commandFlags.parse args with
  | mk e flags' =>
    rw [hparse] at h
    cases e with
    | some e => cases h
    | none =>
      simp only at h
      by_cases hhelp : flags'.isOn App.helpFlag.name = true
      · simp only [if_pos hhelp] at h
        split at h <;> cases h
      · simp only [if_neg hhelp] at h
        cases h
        rfl

theorem holds_of_request (h : request year args = .follow flags) :
    ∃ given, commandFlags.Gives args given flags.args ∧ commandFlags.Holds flags given := by
  obtain ⟨given, hgives, hchanged, hfind⟩ :=
    FlagSet.parse_gives commandFlags_names (parse_of_request h)
  exact ⟨given, hgives, fun name => (hchanged name).trans (Bool.false_or _), hfind⟩

end Explore

namespace Settings

variable {flags : FlagSet} {given : List Given}

theorem applyToggle_eq (flags : FlagSet) (s : Settings) (p : Phase) :
    applyToggle flags s p = s.setDump p
      (if flags.isOn ("D" ++ "no-" ++ p.name) then false
        else if flags.isOn ("D" ++ p.name) then true else s.dumps p) := by
  have hkeep : s.setDump p (s.dumps p) = s := by
    unfold setDump
    congr 1
    funext q
    split
    next hq => rw [hq]
    next => rfl
  have htwice : ∀ a b, (s.setDump p a).setDump p b = s.setDump p b := by
    intro a b
    unfold setDump
    congr 1
    funext q
    dsimp only
    split <;> rfl
  unfold applyToggle
  change (if flags.isOn ("D" ++ "no-" ++ p.name) then
      (if flags.isOn ("D" ++ p.name) then s.setDump p true else s).setDump p false
    else if flags.isOn ("D" ++ p.name) then s.setDump p true else s) = _
  by_cases hoff : flags.isOn ("D" ++ "no-" ++ p.name) = true
  · rw [if_pos hoff, if_pos hoff]
    split
    · exact htwice true false
    · rfl
  · rw [if_neg hoff, if_neg hoff]
    split
    · rfl
    · exact hkeep.symm

section

variable (h : Explore.commandFlags.Holds flags given)
include h

theorem applyToggles_eq (s : Settings) :
    s.applyToggles flags =
      { s with dumps := fun p => (Given.dump? given p).getD (s.dumps p) } := by
  have hphase : ∀ p : Phase, flags.isOn ("D" ++ "no-" ++ p.name) =
        Given.turnsOn given ("D" ++ "no-" ++ p.name) ∧
      flags.isOn ("D" ++ p.name) = Given.turnsOn given ("D" ++ p.name) := by
    intro p
    have hoff := Explore.commandFlags_off
    exact ⟨h.isOn (hoff _ (by cases p <;> decide)), h.isOn (hoff _ (by cases p <;> decide))⟩
  have hdump : ∀ (p : Phase) (b : Bool), (if flags.isOn ("D" ++ "no-" ++ p.name) then false
      else if flags.isOn ("D" ++ p.name) then true else b) = (Given.dump? given p).getD b := by
    intro p b
    rw [(hphase p).1, (hphase p).2, Given.dump?, Given.switch?]
    split
    · rfl
    · split <;> rfl
  unfold applyToggles
  simp only [applyToggle_eq, hdump, Phase.all, List.foldl_cons, List.foldl_nil, setDump]
  congr 1
  funext p
  cases p <;> rfl

theorem setPhase_eq (s : Settings) :
    (if flags.isChanged "phase" || !true then s.setPhase (flags.textOf "phase") else .ok s) =
      (Given.unknownPhase? given).elim
        (.ok { s with stopAfter := (Given.phase? given).getD s.stopAfter }) .error := by
  rw [h.isChanged, Given.phase?, Given.unknownPhase?]
  cases hv : Given.latest? given "phase" with
  | none => rfl
  | some v =>
    have htext : flags.textOf "phase" = v.asText := h.textOf (by decide +kernel) hv
    rw [htext, Option.bind_some, Option.bind_some, setPhase]
    cases Phase.ofName? v.asText <;> rfl

theorem limits_eq (s : Settings) :
    (if flags.isChanged "memory-size" then flags.wordOf "memory-size" else s.memorySize) =
        (Given.memorySize? given).getD s.memorySize ∧
      (if flags.isChanged "stack-depth" then (flags.wordOf "stack-depth").toInt
        else s.maxDepth) = (Given.maxDepth? given).getD s.maxDepth := by
  rw [h.isChanged, h.isChanged, Given.memorySize?, Given.maxDepth?]
  constructor
  · cases hv : Given.latest? given "memory-size" with
    | none => rfl
    | some v =>
      rw [h.wordOf (by decide +kernel) hv]
      rfl
  · cases hv : Given.latest? given "stack-depth" with
    | none => rfl
    | some v =>
      rw [h.wordOf (by decide +kernel) hv]
      rfl

/-- Following the flags comes to going before the file where the command line decides. -/
theorem applyFlags_eq {s : Settings} (hs : s.Bounded) :
    s.applyFlags flags true = (Given.fault? given).elim (.ok (s.overriddenBy given)) .error := by
  have hoff := Explore.commandFlags_off
  have hswitch : ∀ name ∈ ["debug", "tree", "stats"], ∀ b : Bool,
      (b || flags.isOn name) = (Given.switch? given name).getD b := by
    intro name hname b
    rw [h.isOn (hoff name (List.mem_append_left _ hname)), Given.switch?]
    cases b <;> cases Given.turnsOn given name <;> rfl
  have hlimit : (decide ((Given.memorySize? given).getD s.memorySize < 0) ||
        decide ((Given.maxDepth? given).getD s.maxDepth < 0)) =
      ((Given.memorySize? given).any (· < 0) || (Given.maxDepth? given).any (· < 0)) := by
    have hmemory : ¬ s.memorySize < 0 := Int64.not_lt.2 hs.1
    have hdepth : ¬ s.maxDepth < 0 := Int.not_lt.2 hs.2
    cases Given.memorySize? given <;> cases Given.maxDepth? given <;> simp [hmemory, hdepth]
  have hsteps : s.applyFlags flags true =
      (if flags.isChanged "phase" || !true then s.setPhase (flags.textOf "phase")
        else .ok s).bind fun s =>
      let s := { s with
        memorySize :=
          if flags.isChanged "memory-size" then flags.wordOf "memory-size" else s.memorySize
        maxDepth := if flags.isChanged "stack-depth" then (flags.wordOf "stack-depth").toInt
          else s.maxDepth }
      s.validate.bind fun _ => .ok (applyToggles { s with
        debug := s.debug || flags.isOn "debug"
        tree := s.tree || flags.isOn "tree"
        stats := s.stats || flags.isOn "stats" } flags) := by
    unfold applyFlags
    by_cases hphase : (flags.isChanged "phase" || !true) = true
    · simp only [if_pos hphase]
      rfl
    · simp only [if_neg hphase]
      rfl
  rw [hsteps, setPhase_eq h, Given.fault?]
  cases Given.unknownPhase? given with
  | some e => rfl
  | none =>
    simp only [Option.elim_none, Option.none_or, Except.bind, validate, (limits_eq h _).1,
      (limits_eq h _).2, hlimit]
    by_cases hnegative : ((Given.memorySize? given).any (· < 0) ||
        (Given.maxDepth? given).any (· < 0)) = true
    · simp only [if_pos hnegative, Option.elim_some]
    · simp only [Option.elim_none, if_neg hnegative, applyToggles_eq h, overriddenBy,
        hswitch "debug" (by decide), hswitch "tree" (by decide), hswitch "stats" (by decide)]

end

/-- Settings agree on everything that a command line decides. -/
structure AgreeOn (given : List Given) (s t : Settings) : Prop where
  stopAfter : (Given.latest? given "phase").isSome → s.stopAfter = t.stopAfter
  memorySize : (Given.latest? given "memory-size").isSome → s.memorySize = t.memorySize
  maxDepth : (Given.latest? given "stack-depth").isSome → s.maxDepth = t.maxDepth
  debug : Given.turnsOn given "debug" → s.debug = t.debug
  tree : Given.turnsOn given "tree" → s.tree = t.tree
  stats : Given.turnsOn given "stats" → s.stats = t.stats
  dumps : ∀ p : Phase, Given.turnsOn given ("D" ++ p.name) ∨
    Given.turnsOn given ("D" ++ "no-" ++ p.name) → s.dumps p = t.dumps p

/-- Whatever two files say, settings that a command line goes before agree on what it
decides. -/
theorem agreeOn_overriddenBy (hfault : Given.fault? given = none) (s t : Settings) :
    AgreeOn given (s.overriddenBy given) (t.overriddenBy given) := by
  have hdecided : ∀ {α : Type} {a : Option α} {x y : α}, a.isSome → a.getD x = a.getD y := by
    intro α a x y ha
    obtain ⟨b, rfl⟩ := Option.isSome_iff_exists.1 ha
    rfl
  have hswitch : ∀ {name : String}, Given.turnsOn given name →
      (Given.switch? given name).isSome := by
    intro name hname
    rw [Given.switch?, if_pos hname]
    rfl
  constructor
  case stopAfter =>
    intro hgiven
    refine hdecided ?_
    obtain ⟨v, hv⟩ := Option.isSome_iff_exists.1 hgiven
    rw [Given.phase?, hv, Option.bind_some]
    cases hp : Phase.ofName? v.asText with
    | some p => rfl
    | none => simp [Given.fault?, Given.unknownPhase?, hv, hp] at hfault
  case memorySize =>
    intro hgiven
    exact hdecided (by rwa [Given.memorySize?, Option.isSome_map])
  case maxDepth =>
    intro hgiven
    exact hdecided (by rwa [Given.maxDepth?, Option.isSome_map])
  case debug => exact fun h => hdecided (hswitch h)
  case tree => exact fun h => hdecided (hswitch h)
  case stats => exact fun h => hdecided (hswitch h)
  case dumps =>
    intro p hp
    refine hdecided ?_
    rw [Given.dump?]
    split
    next => rfl
    next hoff => exact hswitch (hp.resolve_right hoff)

end Settings

namespace Explore

/-- What is said about a file that has been loaded. -/
def loadedNotice (file : String) : String :=
  Notice.info s!"settings loaded from '{file}'"

/-- Explore the sample that the arguments name. -/
def exploreNamed (fuel : Nat) (flags : FlagSet) (s : Settings) : Console Unit :=
  match flags.args with
  | [name] =>
    match Sample.find? name with
    | none => Console.fail s!"unknown sample '{name}' (try --list)"
    | some sample =>
      explore fuel s (if flags.isChanged "arg" then flags.wordOf "arg" else sample.arg)
        sample.program
  | args => Console.fail s!"expected exactly one sample name, got {args.length} (try --list)"

/-- Go on with the settings that were found, or complain. -/
def conclude (fuel : Nat) (flags : FlagSet) : Except SettingsError Settings → Console Unit
  | .ok s => exploreNamed fuel flags s
  | .error e => Console.fail e.message

variable {flags : FlagSet} {file : String} {read? : List UInt8 → Option SettingsFile}

theorem isOn_list_of_file (h : settingsFile? flags = some file) : flags.isOn "list" = false := by
  unfold settingsFile? at h
  split at h
  next => cases h
  next hneither =>
    rw [Bool.or_eq_true, not_or] at hneither
    exact Bool.eq_false_iff.2 hneither.1

/-- A file that is loaded without a fault is followed, then the flags, and then a sample is
explored. -/
theorem follow_of_loaded {bytes : List UInt8} {s : Settings}
    (hfile : settingsFile? flags = some file)
    (hload : Settings.default.load bytes read? = (none, s)) (fuel : Nat) :
    follow fuel flags (.ok bytes) read? = (do
      Console.report (loadedNotice file)
      conclude fuel flags (s.applyFlags flags true)) := by
  have hlist := isOn_list_of_file hfile
  unfold follow
  simp only [hlist, hfile, loadSettings, hload, Option.isSome_some, Bool.false_eq_true, if_false,
    bind_assoc, pure_bind]
  refine congrArg (Console.report (loadedNotice file) >>= ·) (funext fun _ => ?_)
  cases s.applyFlags flags true with
  | ok _ | error _ => rfl

/-- Without a file to read, the contents of files do not matter. -/
theorem follow_of_no_file (h : settingsFile? flags = none) (fuel : Nat)
    (a b : Except FileError (List UInt8)) :
    follow fuel flags a read? = follow fuel flags b read? := by
  unfold follow
  rw [h]

/-- What flags that a command line gives come to, however files are read. -/
structure Prevails (flags : FlagSet) (given : List Given) : Prop where
  changed : ∀ name, flags.isChanged name = (Given.latest? given name).isSome
  unread : settingsFile? flags = none →
    ∀ fuel a b read?, follow fuel flags a read? = follow fuel flags b read?
  /-- A fault of the command line is complained about whatever the file says. -/
  faulted : ∀ file read? bytes s e, settingsFile? flags = some file →
    Settings.default.load bytes read? = (none, s) → Given.fault? given = some e →
    ∀ fuel, follow fuel flags (.ok bytes) read? = do
      Console.report (loadedNotice file)
      Console.fail e.message
  /-- Otherwise a sample is explored with the settings of the file where the command line goes
  before. -/
  explored : ∀ file read? bytes s, settingsFile? flags = some file →
    Settings.default.load bytes read? = (none, s) → Given.fault? given = none →
    ∀ fuel, follow fuel flags (.ok bytes) read? = do
      Console.report (loadedNotice file)
      exploreNamed fuel flags (s.overriddenBy given)
  /-- These settings agree for any two files on everything that the command line decides. -/
  agreed : Given.fault? given = none → ∀ read? a b s t,
    Settings.default.load a read? = (none, s) → Settings.default.load b read? = (none, t) →
    Settings.AgreeOn given (s.overriddenBy given) (t.overriddenBy given)

/-- Flags go before files. Whenever the arguments are read without a fault, the phase and the
limits that they give, the switches that they turn on and the phases that they toggle are
followed, and all other settings are those of the file, whatever decodes it. -/
theorem given_flags_prevail {year : String} {args : List String} {flags : FlagSet}
    (h : request year args = .follow flags) :
    ∃ given, commandFlags.Gives args given flags.args ∧ Prevails flags given := by
  obtain ⟨given, hgives, hholds⟩ := holds_of_request h
  have hdefault : Settings.default.Bounded := ⟨by decide, by decide⟩
  refine ⟨given, hgives, hholds.isChanged, fun hfile fuel a b _ => follow_of_no_file hfile fuel a b,
    ?_, ?_, ?_⟩
  · intro file read? bytes s e hfile hload hfault fuel
    rw [follow_of_loaded hfile hload, Settings.applyFlags_eq hholds (hdefault.load hload), hfault]
    rfl
  · intro file read? bytes s hfile hload hfault fuel
    rw [follow_of_loaded hfile hload, Settings.applyFlags_eq hholds (hdefault.load hload), hfault]
    rfl
  · exact fun hfault _ _ _ s t _ _ => Settings.agreeOn_overriddenBy hfault s t

/-- The flags that a request is to be answered by. -/
def Request.flags? : Request → Option FlagSet
  | .follow flags => some flags
  | .answered _ => none

theorem Request.eq_follow {r : Request} (h : r.flags? = some flags) : r = .follow flags := by
  cases r with
  | follow flags' => exact congrArg Request.follow (Option.some.inj h)
  | answered _ => cases h

/-- A command line that gives the size of memory twice. -/
def smallMemory : List String :=
  ["-c", "gprev.toml", "-m", "64", "--memory-size=4096", "-Dno-layout", "--stats=false",
    "factorial"]

/-- The size that is given last is followed. -/
theorem small_memory_prevails : ∃ flags, request "" smallMemory = .follow flags ∧
    settingsFile? flags = some "gprev.toml" ∧ flags.wordOf "memory-size" = 4096 ∧
    ∃ given, commandFlags.Gives smallMemory given flags.args ∧ Prevails flags given := by
  have hread : ((request "" smallMemory).flags?.map fun flags =>
      (settingsFile? flags, flags.wordOf "memory-size")) = some (some "gprev.toml", 4096) := by
    decide +kernel
  obtain ⟨flags, hflags, hread⟩ := Option.map_eq_some_iff.1 hread
  have hrequest := Request.eq_follow hflags
  exact ⟨flags, hrequest, congrArg Prod.fst hread, congrArg Prod.snd hread,
    given_flags_prevail hrequest⟩

/-- A file that turns the counts on: a section for the interpreter with `stats = true`. -/
def countsOn : List UInt8 :=
  Text.encode "[interpreter]\nstats = true\n"

/-- Counts that a command line turns off are shown nevertheless if the file turns them on, and
not shown if it does not. -/
theorem stats_stay_on : ∃ flags s t,
    request "" ["-c", "gprev.toml", "--stats=false", "factorial"] = .follow flags ∧
    settingsFile? flags = some "gprev.toml" ∧ flags.isChanged "stats" = true ∧
    flags.isOn "stats" = false ∧
    Settings.default.load countsOn = (none, s) ∧ Settings.default.load [] = (none, t) ∧
    (s.applyFlags flags true).toOption.map (·.stats) = some true ∧
    (t.applyFlags flags true).toOption.map (·.stats) = some false := by
  have hread : ((request "" ["-c", "gprev.toml", "--stats=false", "factorial"]).flags?.map
      fun flags => (settingsFile? flags, flags.isChanged "stats", flags.isOn "stats",
        ((Settings.default.load countsOn).2.applyFlags flags true).toOption.map (·.stats),
        ((Settings.default.load []).2.applyFlags flags true).toOption.map (·.stats))) =
      some (some "gprev.toml", true, false, some true, some false) := by
    decide +kernel
  obtain ⟨flags, hflags, hread⟩ := Option.map_eq_some_iff.1 hread
  simp only [Prod.mk.injEq] at hread
  obtain ⟨hfile, hchanged, hoff, hon, hnot⟩ := hread
  exact ⟨flags, _, _, Request.eq_follow hflags, hfile, hchanged, hoff,
    Prod.ext (by decide +kernel) rfl, Prod.ext (by decide +kernel) rfl, hon, hnot⟩

end Explore

end TreeCode
