/-
# Commands with flags

A command has a name, a synopsis, a description and a flag set. Running it adds the
help flag, reads the arguments and then either reports a fault with a short usage
note, shows the help page, or hands the positional arguments on.

The help page sets flags in two columns. The left one is as wide as its widest
entry; usage texts are wrapped in the right one, and defaults stand at its end.
Widths are counted in bytes, but padding in code points, so a text with other than
ASCII characters may stand out.
-/

import TreeCode.Flag
import TreeCode.Quicksort
import TreeCode.Text.Pad
import TreeCode.Text.Wrap

namespace TreeCode

/-- A command. -/
structure App where
  name : String
  synopsis : String
  description : String
  authors : List String
  repository : String
  flags : FlagSet

namespace App

open Text (padRight)

/-- The width of the help page. -/
def pageWidth : Nat :=
  80

/-- One step of indentation on the help page. -/
def indentUnit : String :=
  "    "

/-- The indentation of entries on the help page. -/
def entryIndent : String :=
  indentUnit ++ indentUnit

/-- The flag that asks for the help page. -/
def helpFlag : Flag :=
  .make "help" "h" "Display this information" "" (.truth false)

/-- The usage note that follows a fault. -/
def usage (a : App) : String :=
  s!"Usage: {a.name} {a.synopsis}\n" ++
    s!"\nRun '{a.name} --help' for all available options and flags.\n"

/-- Whether a flag belongs to a group. -/
def isGroupFlag (a : App) (name : String) : Bool :=
  a.flags.groups.any fun g => g.toggles.any fun t => name == t.onName || name == t.offName

/-- The flags outside of groups, by name. -/
def options (a : App) : List Flag :=
  Quicksort.sort (fun f g => f.name < g.name)
    (a.flags.flags.filter fun f => !a.isGroupFlag f.name)

/-- How a flag is shown in the left column. -/
def flagText (f : Flag) : String :=
  (if f.shorthand.isEmpty then "" else s!"-{f.shorthand}, ") ++ "--" ++ f.name ++
    if !f.value.isTruth && !f.expected.isEmpty then "=" ++ f.expected else ""

/-- An entry of the help page: its left text, its usage, and what stands at the end
of its first line. -/
def entry (leftWidth : Nat) (left usage right : String) : List String :=
  let available : Int :=
    (pageWidth : Int) - entryIndent.length - leftWidth - 1 - right.utf8ByteSize - 2
  let available := max 10 available
  let (first, more) := match Text.wrap available usage with
    | [] => ("", [])
    | line :: lines => (line, lines)
  let head := entryIndent ++ padRight leftWidth left ++ " "
  let head :=
    if right.isEmpty then head ++ first
    else head ++ padRight available.toNat first ++ "  " ++ right
  head :: more.map fun line =>
    entryIndent ++ String.ofList (List.replicate (leftWidth + 1) ' ') ++ line

/-- The width of the left column. A group without members has none. -/
def leftWidth? (a : App) : Option Nat := do
  let groups ← a.flags.groups.mapM fun g => do
    let first ← g.toggles.head?
    let heads := first.stem.utf8ByteSize + g.member.utf8ByteSize + 6
    return (heads :: g.toggles.map (·.name.utf8ByteSize)).foldl max 0
  return (groups ++ a.options.map fun f => (flagText f).utf8ByteSize).foldl max 0

/-- The lines about the command itself. -/
def headLines (a : App) (year : String) : List String :=
  [""] ++
  (if a.authors.isEmpty then []
    else [s!"{indentUnit}Copyright (c) {year}: " ++ ", ".intercalate a.authors ++
      " and contributors"]) ++
  (if a.repository.isEmpty then []
    else [s!"{indentUnit}For more details refer to {a.repository}"]) ++
  (if a.synopsis.isEmpty then []
    else ["", s!"{indentUnit}Synopsis", s!"{entryIndent}{a.name} {a.synopsis}"]) ++
  (if a.description.isEmpty then []
    else ["", s!"{indentUnit}Description"] ++
      (Text.wrap ((pageWidth : Int) - entryIndent.length) a.description).map (entryIndent ++ ·))

/-- The lines about the flags outside of groups. -/
def optionLines (a : App) (leftWidth : Nat) : List String :=
  match a.options with
  | [] => []
  | options =>
    ["", s!"{indentUnit}Options"] ++ options.flatMap fun f =>
      let default := if f.value.isTruth || f.default.isEmpty then "" else s!"|{f.default}|"
      entry leftWidth (flagText f) f.usage default

/-- The lines about a group. -/
def groupLines (a : App) (leftWidth : Nat) (g : FlagGroup) : List String :=
  let stem := ((g.toggles.head?).map (·.stem)).getD ""
  ["", indentUnit ++ g.name] ++
  entry leftWidth s!"-{stem}<{g.member}>" s!"Enable a specific {g.member}" "" ++
  entry leftWidth s!"-{stem}no-<{g.member}>" s!"Disable a specific {g.member}" "" ++
  (if g.heading.isEmpty then [] else [indentUnit ++ g.heading]) ++
  (Quicksort.sort (fun t u => t.name < u.name) g.toggles).flatMap fun t =>
    let isOn := a.flags.turnedOn t && !a.flags.turnedOff t
    entry leftWidth t.name t.usage (if isOn then "|x|" else "|-|")

/-- The help page. There is none if a group has no members. -/
def help? (a : App) (year : String) : Option String := do
  let leftWidth ← a.leftWidth?
  let groups := Quicksort.sort (fun g h => g.name < h.name) a.flags.groups
  let lines := a.headLines year ++ a.optionLines leftWidth ++
    groups.flatMap (a.groupLines leftWidth)
  return String.join (lines.map (· ++ "\n"))

/-- What running a command leads to. -/
inductive Outcome where
  /-- The help flag cannot be declared. -/
  | undefinable (error : DefineError)
  /-- The arguments are at fault. -/
  | fault (error : ParseError)
  /-- The help page is asked for. -/
  | help
  /-- The positional arguments are to be acted on. -/
  | act (args : List String)

/-- Run a command with arguments. -/
def run (a : App) (args : List String) : Outcome × App :=
  match a.flags.define helpFlag with
  | (some e, flags) => (.undefinable e, { a with flags := flags })
  | (none, flags) =>
    match flags.parse args with
    | (some e, flags) => (.fault e, { a with flags := flags })
    | (none, flags) =>
      let a := { a with flags := flags }
      (if flags.isOn helpFlag.name then .help else .act flags.args, a)

/-- What is reported about a fault. -/
def faultReport (a : App) (e : ParseError) : String :=
  e.message ++ "\n" ++ a.usage

end App

end TreeCode
