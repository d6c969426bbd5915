/-
# Settings of a run

The settings say after which phase to stop, which phases show their results, how much
memory and depth the machine has, and what else is shown. They start from defaults
and are changed by a settings file and by flags.

A file changes what it mentions. A limit of zero counts as not mentioned, and a
switch can be turned on by a file but not off. A file at fault is followed up to its
fault.
-/

import TreeCode.Flag
import TreeCode.Machine.Run
import TreeCode.Toml.Document

namespace TreeCode

/-- The phases of a run, in order. -/
inductive Phase where
  | layout
  | imcode
  | lincode
  | interpret
deriving DecidableEq, Repr

namespace Phase

/-- All phases in order. -/
def all : List Phase :=
  [layout, imcode, lincode, interpret]

/-- The position of a phase. -/
def rank : Phase → Nat
  | layout => 0
  | imcode => 1
  | lincode => 2
  | interpret => 3

/-- The name of a phase. -/
def name : Phase → String
  | layout => "layout"
  | imcode => "imcode"
  | lincode => "lincode"
  | interpret => "interpret"

/-- What a phase shows. -/
def description : Phase → String
  | layout => "Print frames and the storage of every declaration."
  | imcode => "Print the tree intermediate code."
  | lincode => "Print the linearized code and data offsets."
  | interpret => "Print the result and final state of the interpreter."

/-- The phase of a name. -/
def ofName? (s : String) : Option Phase :=
  all.find? fun p => p.name == s

/-- The phase at a position. -/
def ofRank? (n : Int) : Option Phase :=
  all.find? fun p => (p.rank : Int) == n

end Phase

/-- What a settings file says about the machine. -/
structure MachineSection where
  memorySize : Word
  stackDepth : Word
  debug : Bool
  tree : Bool
  stats : Bool

/-- What a settings file says about the phases. -/
structure PhaseSection where
  phase : String
  dumps : List String

/-- The contents of a settings file. -/
structure SettingsFile where
  machine : Option MachineSection
  phases : Option PhaseSection

namespace SettingsFile

open Toml

/-- The value of a setting, whose name is written in small letters or in capitals. -/
def entry? (t : Table) (name : String) : Option Value :=
  (t.get? name).or (t.get? name.toUpper)

/-- Read a setting. One that is missing has a default. -/
def setting? {α : Type} (t : Table) (name : String) (default : α) (read : Value → Option α) :
    Option α :=
  match entry? t name with
  | none => some default
  | some v => read v

/-- A word. Integers that are too large for one wrap around. -/
def word? : Value → Option Word
  | .scalar (.integer w) => some w
  | .scalar (.large n) => some n.toInt64
  | _ => none

/-- A truth value. -/
def truth? : Value → Option Bool
  | .scalar (.truth b) => some b
  | _ => none

/-- A text. An integer that is too large for a word is taken for the code of a
character, which there is not. -/
def text? : Value → Option String
  | .scalar (.text s) => some s
  | .scalar (.large _) => some (String.singleton Text.replacement)
  | _ => none

/-- A list of texts. -/
def texts? : Value → Option (List String)
  | .list items => items.mapM text?
  | _ => none

/-- Read what is said about the machine. -/
def machineSection? (v : Value) : Option MachineSection := do
  let t ← v.asTable?
  return {
    memorySize := ← setting? t "memory-size" 0 word?
    stackDepth := ← setting? t "stack-depth" 0 word?
    debug := ← setting? t "debug" false truth?
    tree := ← setting? t "tree" false truth?
    stats := ← setting? t "stats" false truth? }

/-- Read what is said about the phases. -/
def phaseSection? (v : Value) : Option PhaseSection := do
  let t ← v.asTable?
  return {
    phase := ← setting? t "phase" "" text?
    dumps := ← setting? t "dump" [] texts? }

/-- Read the contents of a table. Other settings than those known are left alone. -/
def ofTable? (t : Table) : Option SettingsFile := do
  return {
    machine := ← setting? t "interpreter" none fun v => (machineSection? v).map some
    phases := ← setting? t "compiler" none fun v => (phaseSection? v).map some }

/-- Read the contents of a file. -/
def read? (bytes : List UInt8) : Option SettingsFile := do
  ofTable? (← Toml.read? bytes)

end SettingsFile

/-- What is wrong with settings. -/
inductive SettingsError where
  | malformed
  | negativeLimit
  | unknownPhase (name : String)
  | unknownDump (name : String)
deriving DecidableEq, Repr

/-- The wording of a cause. -/
def SettingsError.message : SettingsError → String
  | malformed => "malformed configuration"
  | negativeLimit => "interpreter limits must not be negative"
  | unknownPhase name =>
    s!"unknown phase '{name}'. Supported: " ++ ", ".intercalate (Phase.all.map Phase.name)
  | unknownDump name => s!"unknown dump phase '{name}'"

/-- The settings of a run. -/
structure Settings where
  /-- The last phase that is run. -/
  stopAfter : Phase
  memorySize : Word
  maxDepth : Int
  /-- Whether every instruction is traced. -/
  debug : Bool
  /-- Whether the tree code is run. -/
  tree : Bool
  /-- Whether counts are shown. -/
  stats : Bool
  /-- The phases that show their results. -/
  dumps : Phase → Bool

namespace Settings

/-- The settings to start from. -/
def default : Settings where
  stopAfter := .interpret
  memorySize := Options.defaultMemorySize
  maxDepth := Options.defaultMaxDepth
  debug := false
  tree := false
  stats := false
  dumps := fun _ => false

/-- Whether a phase at some position is run. -/
def reaches (s : Settings) (rank : Int) : Bool :=
  rank ≤ s.stopAfter.rank

/-- Whether a phase shows its results. -/
def setDump (s : Settings) (p : Phase) (shown : Bool) : Settings :=
  { s with dumps := fun q => if q = p then shown else s.dumps q }

/-- Stop after the phase of a name. -/
def setPhase (s : Settings) (name : String) : Except SettingsError Settings :=
  match Phase.ofName? name with
  | some p => .ok { s with stopAfter := p }
  | none => .error (.unknownPhase name)

/-- Check the limits. -/
def validate (s : Settings) : Except SettingsError Unit :=
  if s.memorySize < 0 || s.maxDepth < 0 then .error .negativeLimit else .ok ()

/-- Follow what a file says about the machine. -/
def applyMachine (s : Settings) (m : MachineSection) : Except SettingsError Settings :=
  if m.memorySize < 0 || m.stackDepth < 0 then .error .negativeLimit
  else
    .ok { s with
      memorySize := if 0 < m.memorySize then m.memorySize else s.memorySize
      maxDepth := if 0 < m.stackDepth then m.stackDepth.toInt else s.maxDepth
      debug := s.debug || m.debug
      tree := s.tree || m.tree
      stats := s.stats || m.stats }

/-- Show the results of phases, up to a name of none. -/
def applyDumps (s : Settings) : List String → Option SettingsError × Settings
  | [] => (none, s)
  | name :: rest =>
    match Phase.ofName? name with
    | some p => (s.setDump p true).applyDumps rest
    | none => (some (.unknownDump name), s)

/-- Follow what a file says about the phases. No phase at all is not mentioned. -/
def applyPhases (s : Settings) (p : PhaseSection) : Option SettingsError × Settings :=
  if p.phase.isEmpty then s.applyDumps p.dumps
  else
    match s.setPhase p.phase with
    | .ok s => s.applyDumps p.dumps
    | .error e => (some e, s)

/-- Follow a file. -/
def applyFile (s : Settings) (f : SettingsFile) : Option SettingsError × Settings :=
  let followed : Except SettingsError Settings := match f.machine with
    | none => .ok s
    | some m => s.applyMachine m
  match followed with
  | .error e => (some e, s)
  | .ok s =>
    match f.phases with
    | none => (none, s)
    | some p => s.applyPhases p

/-- Follow the bytes of a file, as they are read. -/
def load (s : Settings) (bytes : List UInt8)
    (read? : List UInt8 → Option SettingsFile := SettingsFile.read?) :
    Option SettingsError × Settings :=
  match read? bytes with
  | none => (some .malformed, s)
  | some f => s.applyFile f

/-- The toggle that shows the results of a phase. -/
def dumpToggle (s : Settings) (p : Phase) : Toggle :=
  ⟨p.name, "D", p.description, some (s.dumps p), some false⟩

/-- The group of toggles that show the results of phases. -/
def dumpGroup (s : Settings) : FlagGroup :=
  ⟨"Dumps", "phase", "Available Phases:", Phase.all.map s.dumpToggle⟩

/-- Follow the toggle of a phase. Turning it off goes before turning it on. -/
def applyToggle (flags : FlagSet) (s : Settings) (p : Phase) : Settings :=
  let t := s.dumpToggle p
  let s := if flags.turnedOn t then s.setDump p true else s
  if flags.turnedOff t then s.setDump p false else s

/-- Follow the toggles of all phases. -/
def applyToggles (s : Settings) (flags : FlagSet) : Settings :=
  Phase.all.foldl (applyToggle flags) s

end Settings

end TreeCode
