/-
# Exploring a sample

The command takes a sample through the phases: it checks the entry, lays out frames,
lowers to tree code, brings the code into canonical form and runs it. Every phase is
announced and may show its results; the settings say where to stop.

Settings come from a file, if one is named, and then from the flags. A flag that is
given replaces the phase and the limits of the file, and adds to its switches. The
toggles of the phases are followed last.

The command is in two parts, for a file may have to be read in between. The first part
reads the arguments, and the second does the work.
-/

import TreeCode.Command.Console
import TreeCode.Command.Host
import TreeCode.Compilation
import TreeCode.Flag.App
import TreeCode.IR.Outline
import TreeCode.Layout.Report
import TreeCode.Machine.Run
import TreeCode.Program.Listing
import TreeCode.Quantity
import TreeCode.Sample
import TreeCode.Settings

namespace TreeCode

/-- Follow the flags that were given. The phase is followed in any case if no file
was read. -/
def Settings.applyFlags (s : Settings) (flags : FlagSet) (fileRead : Bool) :
    Except SettingsError Settings := do
  let s ←
    if flags.isChanged "phase" || !fileRead then s.setPhase (flags.textOf "phase") else .ok s
  let s := { s with
    memorySize :=
      if flags.isChanged "memory-size" then flags.wordOf "memory-size" else s.memorySize
    maxDepth :=
      if flags.isChanged "stack-depth" then (flags.wordOf "stack-depth").toInt else s.maxDepth }
  s.validate
  let s := { s with
    debug := s.debug || flags.isOn "debug"
    tree := s.tree || flags.isOn "tree"
    stats := s.stats || flags.isOn "stats" }
  return s.applyToggles flags

namespace Explore

/-- The flags of the command, the toggles of the phases apart. -/
def flagList : List Flag :=
  [.make "phase" "p" "Stop after the given phase (layout, imcode, lincode, interpret)." "phase"
      (.text "interpret"),
    .make "config" "c" "Read settings from a TOML file. Command line flags take precedence." "file"
      (.text ""),
    .make "memory-size" "m" "Size of the interpreter's memory in bytes." "bytes"
      (.word Settings.default.memorySize),
    .make "stack-depth" "s" "Maximum call depth before a stack overflow fault." "calls"
      (.count (Int64.ofInt Settings.default.maxDepth)),
    .make "arg" "a" "Argument passed to _main (defaults to the sample's own)." "int" (.word 0),
    .make "debug" "d" "Trace every executed instruction." "" (.truth false),
    .make "tree" "t" "Interpret the tree intermediate code instead of the linearized code." ""
      (.truth false),
    .make "stats" "" "Print execution statistics." "" (.truth false),
    .make "list" "l" "List the available samples and exit." "" (.truth false)]

/-- The flags of the command. -/
def flags : FlagSet :=
  ((FlagSet.empty.defineAll flagList).2.defineGroup Settings.default.dumpGroup).2

/-- The command. -/
def app : App where
  name := "gprev"
  synopsis := "[options] <sample>"
  description := "Back end and interpreter for the PREV language. Lays out frames, generates " ++
    "tree intermediate code, linearizes it and runs it on a flat-memory machine."
  authors := ["xplshn"]
  repository := "<https://github.com/xplshn/gprev>"
  flags := flags

/-- What the arguments ask for. -/
inductive Request where
  /-- Nothing is left to do. -/
  | answered (result : CommandResult)
  /-- The flags are to be followed. -/
  | follow (flags : FlagSet)

/-- Read the arguments. -/
def request (year : String) (args : List String) : Request :=
  match app.run args with
  | (.undefinable _, _) => .answered (Console.exit Console.defectCode).result
  | (.fault e, a) => .answered (Console.result do
      Console.report (a.faultReport e)
      Console.exit Console.failureCode)
  | (.help, a) =>
    match a.help? year with
    | some page => .answered (Console.write page).result
    | none => .answered (Console.exit Console.defectCode).result
  | (.act _, a) => .follow a.flags

/-- The file that the settings are read from. Nothing is read for a list of samples. -/
def settingsFile? (flags : FlagSet) : Option String :=
  if flags.isOn "list" || (flags.textOf "config").isEmpty then none
  else some (flags.textOf "config")

/-- The line about a sample in the list of samples. -/
def sampleLine (s : Sample) : String :=
  Text.padRight 12 s.name ++ s!" {s.description} (arg {s.arg.text})\n"

/-- The counts of a run. -/
def statsText (s : Settings) (stats : Stats) : String :=
  s!"instructions: {Quantity.countText (Int64.ofNat stats.instructions)}\n" ++
  s!"calls:        {Quantity.countText (Int64.ofNat stats.calls)}\n" ++
  s!"max depth:    {stats.maxDepth}\n" ++
  s!"peak stack:   {Quantity.bytesText stats.peakStack} of {Quantity.bytesText s.memorySize}\n"

/-- The warnings about functions that cannot be called. -/
def externalWarnings (l : Layout) : String :=
  String.join (l.frames.toList.map fun f =>
    if f.isExternal && (Builtin.ofName? f.label.name).isNone then
      Notice.warning (s!"'{f.label.name}' has no body and is not provided by the interpreter; " ++
        "calling it will fault")
    else "")

/-- Go on with a result, or end over a defect. -/
def expect {ε α : Type} (r : Except ε α) : Console α :=
  match r with
  | .ok a => pure a
  | .error _ => Console.exit Console.defectCode

/-- Run the code of a sample. -/
def interpret (fuel : Nat) (s : Settings) (arg : Word) (p : Program) : Console Unit := do
  let machine ← match Machine.new p ⟨s.memorySize, s.maxDepth, s.debug⟩ with
    | .ok m => pure m
    | .error e =>
      match e.message? with
      | some text => Console.fail text
      | none => Console.exit Console.defectCode
  Console.write (Notice.stage s!"Running {entryName}({arg.text})...")
  let (value, machine) := machine.run fuel entryName arg
  Console.report (String.join machine.state.trace.toList)
  Console.writeBytes machine.state.output
  match value with
  | .error (.stopped (.defect _)) => Console.exit Console.defectCode
  | .error (.stopped .outOfFuel) => Console.exit Console.defectCode
  | _ => pure ()
  if s.dumps .interpret then
    Console.write s!"state={machine.state.status.name} digest={Digest.text machine.digest}\n"
  if s.stats then
    Console.write (statsText s machine.state.stats)
  match value with
  | .ok w => Console.write s!"{entryName} returned {w.text}\n"
  | .error (.stopped (.fault f)) => Console.fail s!"runtime fault: {f.message}"
  | .error _ => Console.fail RunError.alreadyRunMessage

/-- Take a program through the phases. -/
def explore (fuel : Nat) (s : Settings) (arg : Word) (p : Source.Program) : Console Unit := do
  Console.write (Notice.stage "Checking entry point...")
  match p.checkEntry with
  | .ok _ => pure ()
  | .error e => Console.fail e.message
  Console.write (Notice.stage "Laying out frames...")
  let (layout, supply) ← expect (Layout.build .empty p)
  Console.report (externalWarnings layout)
  if s.dumps .layout then
    Console.write layout.report
  if !s.reaches Phase.imcode.rank then
    return
  Console.write (Notice.stage "Creating intermediate representation...")
  let code ← expect (p.generate layout supply)
  if s.dumps .imcode then
    Console.write (IR.Chunk.outlines code.chunks)
  if !s.reaches Phase.lincode.rank then
    return
  Console.write (Notice.stage "Linearizing...")
  let (_, linear) ← expect code.linearize
  if s.dumps .lincode then
    Console.write linear.listing
  if !s.reaches Phase.interpret.rank then
    return
  interpret fuel s arg (if s.tree then code.program else linear)

/-- Follow the file of the settings, as it is read. -/
def loadSettings (s : Settings) (file : String) (contents : Except FileError (List UInt8))
    (read? : List UInt8 → Option SettingsFile) : Console Settings := do
  let loaded : Except String Settings := match contents with
    | .error e => .error e.message
    | .ok bytes =>
      match s.load bytes read? with
      | (none, s) => .ok s
      | (some e, _) => .error e.message
  match loaded with
  | .error text => Console.fail s!"could not load '{file}': {text}"
  | .ok s =>
    Console.report (Notice.info s!"settings loaded from '{file}'")
    return s

/-- Follow the flags. The contents of the settings file, and the way they are read, are
needed only if there is one. -/
def follow (fuel : Nat) (flags : FlagSet) (contents : Except FileError (List UInt8))
    (read? : List UInt8 → Option SettingsFile := SettingsFile.read?) : Console Unit := do
  if flags.isOn "list" then
    Console.write (String.join (Sample.all.map sampleLine))
    return
  let file := settingsFile? flags
  let s ← match file with
    | none => pure Settings.default
    | some file => loadSettings Settings.default file contents read?
  let s ← match s.applyFlags flags file.isSome with
    | .ok s => pure s
    | .error e => Console.fail e.message
  match flags.args with
  | [name] =>
    match Sample.find? name with
    | none => Console.fail s!"unknown sample '{name}' (try --list)"
    | some sample =>
      let arg := if flags.isChanged "arg" then flags.wordOf "arg" else sample.arg
      explore fuel s arg sample.program
  | args => Console.fail s!"expected exactly one sample name, got {args.length} (try --list)"

/-- Run the command on a host. -/
def run {m : Type → Type} [Monad m] [Host m] (fuel : Nat) (year : String) (args : List String) :
    m CommandResult := do
  match request year args with
  | .answered r => return r
  | .follow flags =>
    let contents ← match settingsFile? flags with
      | some path => Host.read path
      | none => pure (.ok [])
    return (follow fuel flags contents).result

end Explore

end TreeCode
