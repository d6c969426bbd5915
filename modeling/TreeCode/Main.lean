/-
# The command line

One program under two names. As `gtest` it checks the samples, and under any other
name it explores one. Here the system is made a host of the commands, which decide
all else.
-/

import Std.Time.DateTime
import TreeCode.Command.Check
import TreeCode.Command.Explore

namespace TreeCode.CommandLine

/-- How many instructions a run may take: more than anyone waits for. -/
def fuel : Nat :=
  1000000000000000

/-- The current year. -/
def currentYear : IO String := do
  let now ← Std.Time.Timestamp.now
  return toString (Std.Time.PlainDate.ofEpochDay now.toDaysSinceUnixEpoch).year.toInt

/-- Show what a command leaves behind. -/
def present (r : CommandResult) : IO UInt32 := do
  let stdout ← IO.getStdout
  stdout.write ⟨r.stdout⟩
  stdout.flush
  (← IO.getStderr).putStr r.stderr
  return r.exitCode.toUInt32

/-- The cause of a failure. -/
def faultOf : IO.Error → PathFault
  | .noFileOrDirectory .. => .missing
  | .inappropriateType _ _ details =>
    if details == "Is a directory" then .isDirectory else .notDirectory
  | .alreadyExists .. => .alreadyThere
  | .permissionDenied .. => .other "permission denied"
  | e => .other (toString e)

/-- Try an action on a file. -/
def attempt {α : Type} (action : FileAction) (path : String) (activity : IO α) :
    IO (Except FileError α) := do
  try
    return .ok (← activity)
  catch e =>
    return .error ⟨action, path, faultOf e⟩

/-- The system that the program runs on. -/
instance : Host IO where
  read path := do
    match ← attempt .access path (IO.FS.readBinFile path) with
    | .ok bytes => return .ok bytes.toList
    | .error e => return .error (if e.fault = .isDirectory then { e with action := .read } else e)
  write path contents := attempt .access path (IO.FS.writeBinFile path ⟨contents.toArray⟩)
  makeDirectories path := attempt .makeDirectory path (IO.FS.createDirAll path)
  now := IO.monoNanosNow

end TreeCode.CommandLine

/-- Run the command of the name that the program was called by. -/
def main (args : List String) : IO UInt32 := do
  let name := (← IO.appPath).fileName
  if name == some TreeCode.Check.command then
    TreeCode.CommandLine.present (← TreeCode.Check.run TreeCode.CommandLine.fuel args)
  else
    let year ← TreeCode.CommandLine.currentYear
    TreeCode.CommandLine.present (← TreeCode.Explore.run TreeCode.CommandLine.fuel year args)
