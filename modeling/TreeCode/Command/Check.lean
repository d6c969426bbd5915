/-
# Checking the samples

The command tests samples against golden files. It names every sample with its
status, counts them, and leaves a report. It fails if some test does.

The golden files are read and written around the tests: the arguments say which, and
every test says what is to be written. The directory of the golden files is made
before all else.
-/

import TreeCode.Command.Console
import TreeCode.Command.Host
import TreeCode.Flag.Leading
import TreeCode.Golden
import TreeCode.Path
import TreeCode.Text.Markup
import TreeCode.Text.Pad
import TreeCode.Text.Wrap

namespace TreeCode.Check

/-- The name of the command. -/
def command : String :=
  "gtest"

/-- The flags of the command. -/
def flags : FlagSet :=
  (FlagSet.empty.defineAll
    [.make "dir" "" "Directory to store/read golden JSON files." "" (.text "testdata/golden"),
      .make "update" "" "Rewrite golden files with the current results." "" (.truth false),
      .make "run" ""
        "Only test samples whose name contains one of these substrings (space-separated)." ""
        (.text ""),
      .make "j" "" "Number of parallel test jobs." "" (.word 4),
      .make "memory-size" "" "Interpreter memory size in bytes." ""
        (.word Options.defaultMemorySize),
      .make "stack-depth" "" "Interpreter call depth limit." ""
        (.word (Int64.ofInt Options.defaultMaxDepth)),
      .make "output" "" "Output file for the JSON test report." "" (.text ".test_results.json"),
      .make "v" "" "Enable verbose logging." "" (.truth false)]).2

/-- A text in a colour. -/
def colored (code text : String) : String :=
  s!"\x1b[{code}m{text}\x1b[0m"

/-- The colour of things gone wrong. -/
def red : String :=
  "91"

/-- The colour of things that went well. -/
def green : String :=
  "92"

/-- The colour of things to take note of. -/
def yellow : String :=
  "93"

/-- The colour of progress. -/
def cyan : String :=
  "96"

/-- The code of a heavy face. -/
def heavy : String :=
  "1"

/-- Report an error and end the command. -/
def fail {α : Type} (text : String) : Console α := do
  Console.report (colored red "[ERROR]" ++ s!" {text}\n")
  Console.exit Console.failureCode

/-- The exit code of a command whose flags cannot be read. -/
def usageCode : Nat :=
  2

/-- Whether a sample is to be tested: its name contains one of the words asked for, if
any are. -/
def isSelected (only : String) (s : Sample) : Bool :=
  only.isEmpty || (Text.words only).any fun word => Text.occursIn word.toList s.name.toList

/-- What the arguments ask for. -/
structure Plan where
  /-- The directory of the golden files. -/
  directory : String
  /-- The file of the report. -/
  output : String
  /-- The words that samples are chosen by. -/
  only : String
  options : Options
  /-- Whether golden files are written anew. -/
  renew : Bool
  verbose : Bool

/-- Read the arguments. -/
def plan (args : List String) : Except CommandResult Plan :=
  match flags.parseLeading args with
  | .error e => .error (Console.result do
      match e.message? with
      | some text =>
        Console.report (text ++ "\n" ++ flags.leadingUsage command)
        Console.exit usageCode
      | none => Console.report (flags.leadingUsage command))
  | .ok flags =>
    .ok { directory := flags.textOf "dir"
          output := flags.textOf "output"
          only := flags.textOf "run"
          options := ⟨flags.wordOf "memory-size", (flags.wordOf "stack-depth").toInt, false⟩
          renew := flags.isOn "update"
          verbose := flags.isOn "v" }

/-- The samples to be tested. -/
def Plan.samples (p : Plan) : List Sample :=
  Sample.all.filter (isSelected p.only)

/-- The golden file of a sample. -/
def Plan.goldenPath (p : Plan) (s : Sample) : String :=
  Path.join p.directory ("." ++ s.name ++ ".json")

/-- Test a sample of a plan. -/
def Plan.test (p : Plan) (fuel : Nat) (s : Sample) (file : Except FileError (List UInt8)) :
    Tested :=
  s.test fuel p.options p.renew (p.goldenPath s) file

/-- A test, and the time that it took in nanoseconds. -/
structure Timed where
  result : TestResult
  nanoseconds : Nat

/-- A number of thousandths without needless zeros. -/
def thousandths (n : Nat) : String :=
  let digits := (toString (1000 + n % 1000)).toList.drop 1
  let kept := (digits.reverse.dropWhile (· == '0')).reverse
  toString (n / 1000) ++ if kept.isEmpty then "" else "." ++ String.ofList kept

/-- A time, to the nearest microsecond. -/
def timeText (nanoseconds : Nat) : String :=
  let micros := (nanoseconds + 500) / 1000
  if micros = 0 then "0s"
  else if micros < 1000 then s!"{micros}µs"
  else if micros < 1000000 then thousandths micros ++ "ms"
  else thousandths (micros / 1000) ++ "s"

/-- The colour of a status. -/
def statusColor : TestStatus → String
  | .pass => green
  | .new => yellow
  | .fail | .error => red

/-- The lines of a difference, in colours. -/
def differenceLines (want got : Execution) : String :=
  let lines := (TestResult.differenceText want got).splitOn "\n"
  String.join ((lines.filter (· ≠ "")).map fun line =>
    match line.toList.head? with
    | some '-' => colored red ("    " ++ line) ++ "\n"
    | some '+' => colored green ("    " ++ line) ++ "\n"
    | _ => "    " ++ line ++ "\n")

/-- What is said about a test. -/
def resultLines (t : Timed) : String :=
  let r := t.result
  let head := colored (statusColor r.status) s!"[{r.status.name}]" ++ " " ++
    Text.padRight 12 r.sample ++ " " ++ Text.padLeft 8 (timeText t.nanoseconds)
  let outcome :=
    if r.linear.fault.isEmpty then s!"  return: {r.linear.value.text}"
    else s!"  fault: {r.linear.fault}"
  let remark := if r.remark.message.isEmpty then "" else s!"  ({r.remark.message})"
  let difference := match r.difference? with
    | some (want, got) => differenceLines want got ++ "\n"
    | none => ""
  head ++ outcome ++ remark ++ "\n" ++ difference

/-- The counts of all tests. -/
def summaryLine (results : List TestResult) : String :=
  let count (s : TestStatus) : Nat := results.countP fun r => r.status == s
  colored heavy (s!"{count .pass} passed, {count .fail} failed, {count .new} new, " ++
    s!"{count .error} errors")

/-- The report on all tests. -/
def reportText (results : List Timed) : String :=
  (Json.Value.object (results.map fun t =>
    (t.result.sample, t.result.toJson t.nanoseconds))).render

/-- What is said about all tests, given how the writing of the report went. -/
def Plan.conclude (p : Plan) (results : List Timed) (written : Except FileError Unit) :
    Console Unit := do
  if p.verbose then
    Console.report (String.join (results.map fun t =>
      colored cyan s!"[{t.result.status.name}]" ++ s!" {t.result.sample}\n"))
  Console.write (String.join (results.map resultLines))
  Console.write ("\n" ++ summaryLine (results.map Timed.result) ++ "\n")
  if let .error e := written then
    Console.report (colored yellow "[WARN]" ++ s!" could not write report: {e.message}\n")
  if results.any fun t => t.result.status.isBad then
    Console.exit Console.failureCode

variable {m : Type → Type} [Monad m] [Host m]

/-- Test a sample on a host, and write its golden file where that is called for. -/
def Plan.testOn (p : Plan) (fuel : Nat) (s : Sample) : m Timed := do
  let start ← Host.now
  let tested := p.test fuel s (← Host.read (p.goldenPath s))
  let written ← match tested.golden with
    | some golden => Host.write (p.goldenPath s) (Text.encode golden.render)
    | none => pure (.ok ())
  let stop ← Host.now
  return ⟨tested.resultAfter written, stop - start⟩

/-- Run the command on a host. -/
def run (fuel : Nat) (args : List String) : m CommandResult := do
  match plan args with
  | .error r => return r
  | .ok p =>
    match ← Host.makeDirectories p.directory with
    | .error e => return (fail s!"Failed to create golden directory: {e.message}").result
    | .ok _ =>
      if p.samples.isEmpty then return (fail s!"No samples match '{p.only}'").result
      else
        let results ← p.samples.mapM (p.testOn fuel)
        let written ← Host.write p.output (Text.encode (reportText results))
        return (p.conclude results written).result

end TreeCode.Check
