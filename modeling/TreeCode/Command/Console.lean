/-
# The console of a command

A command writes to two outputs and ends with an exit code. An activity on the
console is a sequence of writings that may end the command before its time.
-/

import TreeCode.Notice
import TreeCode.Text.Utf8

namespace TreeCode

/-- What was written. -/
structure Transcript where
  stdout : Array UInt8
  stderr : String

/-- What a command leaves behind. -/
structure CommandResult where
  stdout : Array UInt8
  stderr : String
  exitCode : Nat

/-- An activity on the console, which an exit code may end. -/
abbrev Console := EStateM Nat Transcript

namespace Console

/-- Write bytes. -/
def writeBytes (bytes : Array UInt8) : Console Unit := fun t =>
  .ok () { t with stdout := t.stdout ++ bytes }

/-- Write a text. -/
def write (s : String) : Console Unit :=
  writeBytes (Text.encode s).toArray

/-- Write a text beside the results. -/
def report (s : String) : Console Unit := fun t =>
  .ok () { t with stderr := t.stderr ++ s }

/-- End the command. -/
def exit {α : Type} (code : Nat) : Console α := fun t =>
  .error code t

/-- The exit code of a command that could not do its work. -/
def failureCode : Nat :=
  1

/-- The exit code of a command that met a defect of its own. -/
def defectCode : Nat :=
  2

/-- Give an error notice and end the command. -/
def fail {α : Type} (text : String) : Console α := do
  report (Notice.error text)
  exit failureCode

/-- What an activity leaves behind. -/
def result (activity : Console Unit) : CommandResult :=
  match activity ⟨#[], ""⟩ with
  | .ok _ t => ⟨t.stdout, t.stderr, 0⟩
  | .error code t => ⟨t.stdout, t.stderr, code⟩

end Console

end TreeCode
