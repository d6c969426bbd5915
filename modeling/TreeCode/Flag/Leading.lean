/-
# Leading flags

A plainer way to read arguments: flags come first, with one dash or two, and the
first argument that is no flag ends them, as does `--`. There are no shorthands. A
Boolean flag takes a value only after `=`; integers are literals.

Reading ends at the first fault, which is reported together with all flags.
-/

import TreeCode.Flag

namespace TreeCode

/-- Why leading flags cannot be read. -/
inductive LeadingError where
  | badForm (arg : String)
  | undefined (name : String)
  /-- Help is asked for. -/
  | help
  | needsArgument (name : String)
  | notTruth (name value : String)
  | notInteger (name value : String) (cause : Text.NumeralError)
deriving DecidableEq, Repr

namespace LeadingError

/-- What is said about a numeral that cannot be read. -/
def numeralReport : Text.NumeralError → String
  | .syntaxError => "parse error"
  | .outOfRange => "value out of range"

/-- The wording of a cause, if there is anything to say. -/
def message? : LeadingError → Option String
  | badForm arg => some s!"bad flag syntax: {arg}"
  | undefined name => some s!"flag provided but not defined: -{name}"
  | help => none
  | needsArgument name => some s!"flag needs an argument: -{name}"
  | notTruth name value =>
    some s!"invalid boolean value {Text.quoted value} for -{name}: parse error"
  | notInteger name value cause =>
    some s!"invalid value {Text.quoted value} for flag -{name}: {numeralReport cause}"

end LeadingError

namespace FlagSet

/-- The body of a flag without its dashes. The body of `--` is empty. -/
def leadingBody? (arg : String) : Option (List Char) :=
  match arg.toList with
  | '-' :: '-' :: body => some body
  | '-' :: c :: body => some (c :: body)
  | _ => none

/-- Cut the body of a flag at its first `=`, but for one at its start. -/
def cutLeading : List Char → List Char × Option (List Char)
  | [] => ([], none)
  | c :: cs =>
    let (name, value) := cutAtEquals cs
    (c :: name, value)

/-- Give a flag the value that a text stands for. -/
def assignLeading (s : FlagSet) (f : Flag) (value : String) : Except LeadingError FlagSet :=
  match f.value with
  | .text _ => .ok (s.setValue f.name (.text value))
  | .truth _ =>
    match Text.readTruth? value with
    | some b => .ok (s.setValue f.name (.truth b))
    | none => .error (.notTruth f.name value)
  | .word _ | .count _ =>
    match Text.readLiteral value with
    | .ok w => .ok (s.setValue f.name (.word w))
    | .error e => .error (.notInteger f.name value e)

/-- Read the flags at the start of arguments. What is left is positional. -/
def parseLeading (s : FlagSet) : List String → Except LeadingError FlagSet
  | [] => .ok { s with args := [] }
  | arg :: rest =>
    match leadingBody? arg with
    | none => .ok { s with args := arg :: rest }
    | some body =>
      if arg == "--" then .ok { s with args := rest }
      else if body.isEmpty || body.head? == some '-' || body.head? == some '=' then
        .error (.badForm arg)
      else
        let (name, value) := cutLeading body
        let name := String.ofList name
        match s.find? name with
        | none => .error (if name == "help" || name == "h" then .help else .undefined name)
        | some f =>
          match value with
          | some value => do
            let s ← s.assignLeading f (String.ofList value)
            (s.markChanged name).parseLeading rest
          | none =>
            if f.value.isTruth then
              ((s.setValue name (.truth true)).markChanged name).parseLeading rest
            else
              match rest with
              | [] => .error (.needsArgument name)
              | value :: rest => do
                let s ← s.assignLeading f value
                (s.markChanged name).parseLeading rest

/-- What the list of flags says about one. Defaults that are nothing, false or zero
are left out. -/
def leadingEntry (f : Flag) : String :=
  let (kind, default) := match f.value with
    | .text _ => (" string", if f.default.isEmpty then "" else Text.quoted f.default)
    | .truth _ => ("", if f.default == "false" then "" else f.default)
    | .word _ | .count _ => (" int", if f.default == "0" then "" else f.default)
  let head := s!"  -{f.name}{kind}"
  let head := if head.utf8ByteSize ≤ 4 then head ++ "\t" else head ++ "\n    \t"
  head ++ f.usage ++ (if default.isEmpty then "" else s!" (default {default})") ++ "\n"

/-- The list of flags. -/
def leadingUsage (s : FlagSet) (command : String) : String :=
  let flags := s.flags.mergeSort fun f g => f.name ≤ g.name
  s!"Usage of {command}:\n" ++ String.join (flags.map leadingEntry)

end FlagSet

end TreeCode
