/-
# Flags

A flag set declares the options of a command. Every flag has a name, perhaps a
one-letter shorthand, and a value with a default. A group of flags toggles the
members of a family on and off: `-Xname` and `-Xno-name`.

Arguments are read from left to right. An argument that does not start with a dash,
and a lone dash, is positional; everything after `--` is positional. Other arguments
are options: `--name`, `-name`, with a value after `=` or in the next argument, or
`-x`, with a value right behind it or in the next argument. A Boolean flag takes a
value only after `=` or right behind its shorthand. Names go before shorthands, and
two dashes never introduce a shorthand.

Reading stops at the first fault. What was read before it remains read, and the
flag at fault counts as given.
-/

import TreeCode.Text.Numeral

namespace TreeCode

/-- The value of a flag. -/
inductive FlagValue where
  | text (value : String)
  | truth (value : Bool)
  /-- An integer that is written as a literal. -/
  | word (value : Word)
  /-- An integer that is written as a decimal numeral. -/
  | count (value : Word)
deriving DecidableEq, Repr

/-- Why a text is no value of a flag. -/
inductive ValueError where
  | notTruth (text : String)
  | notLiteral (text : String) (cause : Text.NumeralError)
  | notDecimal (text : String) (cause : Text.NumeralError)
deriving DecidableEq, Repr

namespace ValueError

/-- The report of a reader about a text that it refused. -/
def readerReport (reader text : String) (cause : Text.NumeralError) : String :=
  "strconv." ++ reader ++ ": parsing " ++ Text.quoted text ++ ": " ++ cause.message

/-- The wording of a cause. -/
def message : ValueError → String
  | notTruth text =>
    s!"invalid boolean value '{text}': " ++ readerReport "ParseBool" text .syntaxError
  | notLiteral text cause =>
    s!"invalid integer value '{text}': " ++ readerReport "ParseInt" text cause
  | notDecimal text cause =>
    s!"invalid integer value '{text}': " ++ readerReport "Atoi" text cause

end ValueError

namespace FlagValue

/-- Whether a value is a truth value. -/
def isTruth : FlagValue → Bool
  | truth _ => true
  | _ => false

/-- The text that a value is, or no text. -/
def asText : FlagValue → String
  | text s => s
  | _ => ""

/-- The integer that a value is, or zero. -/
def asWord : FlagValue → Word
  | word w => w
  | count w => w
  | _ => 0

/-- The printed form of a value. -/
def render : FlagValue → String
  | text s => s
  | truth b => if b then "true" else "false"
  | word w => w.text
  | count w => w.text

/-- The value of the same kind that a text stands for. No text at all stands for
true. -/
def read (v : FlagValue) (s : String) : Except ValueError FlagValue :=
  match v with
  | text _ => .ok (text s)
  | truth _ =>
    if s.isEmpty then .ok (truth true)
    else
      match Text.readTruth? s with
      | some b => .ok (truth b)
      | none => .error (.notTruth s)
  | word _ =>
    match Text.readLiteral s with
    | .ok w => .ok (word w)
    | .error e => .error (.notLiteral s e)
  | count _ =>
    match Text.readDecimal s with
    | .ok w => .ok (count w)
    | .error e => .error (.notDecimal s e)

end FlagValue

/-- An option of a command. -/
structure Flag where
  name : String
  /-- The shorthand, or nothing. -/
  shorthand : String
  usage : String
  /-- What the help page shows as the kind of value expected. -/
  expected : String
  value : FlagValue
  /-- The printed form of the default. -/
  default : String

namespace Flag

/-- A flag with its default as its value. -/
def make (name shorthand usage expected : String) (value : FlagValue) : Flag :=
  ⟨name, shorthand, usage, expected, value, value.render⟩

end Flag

/-- A member of a group of toggles. A toggle that is not there has no initial value. -/
structure Toggle where
  name : String
  /-- What stands before the name in the flags of the toggle. -/
  stem : String
  usage : String
  on : Option Bool
  off : Option Bool

namespace Toggle

/-- The name of the flag that turns a member on. -/
def onName (t : Toggle) : String :=
  t.stem ++ t.name

/-- The name of the flag that turns a member off. -/
def offName (t : Toggle) : String :=
  t.stem ++ "no-" ++ t.name

/-- The flags of a toggle. -/
def flags (t : Toggle) : List Flag :=
  (t.on.map fun b => Flag.make t.onName "" t.usage "" (.truth b)).toList ++
    (t.off.map fun b => Flag.make t.offName "" s!"Disable '{t.name}'" "" (.truth b)).toList

end Toggle

/-- A group of toggles. -/
structure FlagGroup where
  name : String
  /-- What the members are called. -/
  member : String
  /-- The heading above the members. -/
  heading : String
  toggles : List Toggle

/-- The options of a command, and what was read for them. -/
structure FlagSet where
  flags : List Flag
  groups : List FlagGroup
  /-- The names of the flags that were given. -/
  changed : List String
  /-- The positional arguments. -/
  args : List String

/-- Why a flag cannot be declared. -/
inductive DefineError where
  | emptyName
  | nameTwice (name : String)
  | shorthandTwice (shorthand : String)
deriving DecidableEq, Repr

/-- The wording of a cause. -/
def DefineError.message : DefineError → String
  | emptyName => "flag name cannot be empty"
  | nameTwice name => "flag redefined: " ++ name
  | shorthandTwice shorthand => "shorthand flag redefined: " ++ shorthand

/-- Why arguments cannot be read. -/
inductive ParseError where
  | unknown (arg : String)
  | needsArgument (arg : String)
  | badValue (name : String) (cause : ValueError)
deriving DecidableEq, Repr

/-- The wording of a cause. -/
def ParseError.message : ParseError → String
  | unknown arg => "unknown flag: " ++ arg
  | needsArgument arg => "flag needs an argument: " ++ arg
  | badValue name cause => s!"flag {name}: " ++ cause.message

namespace FlagSet

/-- A flag set without flags. -/
def empty : FlagSet :=
  ⟨[], [], [], []⟩

/-- The flag of a name. -/
def find? (s : FlagSet) (name : String) : Option Flag :=
  s.flags.find? fun f => f.name == name

/-- The flag of a shorthand. -/
def findShorthand? (s : FlagSet) (shorthand : String) : Option Flag :=
  if shorthand.isEmpty then none else s.flags.find? fun f => f.shorthand == shorthand

/-- Whether a flag was given. -/
def isChanged (s : FlagSet) (name : String) : Bool :=
  s.changed.contains name

/-- Declare a flag. A flag whose shorthand is taken is declared nevertheless, but
its shorthand keeps its earlier meaning. -/
def define (s : FlagSet) (f : Flag) : Option DefineError × FlagSet :=
  if f.name.isEmpty then (some .emptyName, s)
  else if (s.find? f.name).isSome then (some (.nameTwice f.name), s)
  else
    let extended := { s with flags := s.flags ++ [f] }
    if (s.findShorthand? f.shorthand).isSome then
      (some (.shorthandTwice f.shorthand), extended)
    else
      (none, extended)

/-- Declare flags up to the first that cannot be declared. -/
def defineAll (s : FlagSet) : List Flag → Option DefineError × FlagSet
  | [] => (none, s)
  | f :: rest =>
    match s.define f with
    | (none, s) => s.defineAll rest
    | failed => failed

/-- Declare a group of toggles. -/
def defineGroup (s : FlagSet) (g : FlagGroup) : Option DefineError × FlagSet :=
  match s.defineAll (g.toggles.flatMap Toggle.flags) with
  | (none, s) => (none, { s with groups := s.groups ++ [g] })
  | failed => failed

/-- Give a flag a value. -/
def setValue (s : FlagSet) (name : String) (v : FlagValue) : FlagSet :=
  { s with flags := s.flags.map fun f => if f.name = name then { f with value := v } else f }

/-- Count a flag as given. -/
def markChanged (s : FlagSet) (name : String) : FlagSet :=
  { s with changed := if s.changed.contains name then s.changed else s.changed ++ [name] }

/-- Add positional arguments. -/
def addArgs (s : FlagSet) (args : List String) : FlagSet :=
  { s with args := s.args ++ args }

/-- What an argument is. -/
inductive Argument where
  | positional
  | terminator
  /-- An option without its dashes, and whether it had two of them. -/
  | option (body : List Char) (long : Bool)

/-- Tell what an argument is. -/
def classify (arg : String) : Argument :=
  match arg.toList with
  | ['-', '-'] => .terminator
  | '-' :: '-' :: body => .option body true
  | '-' :: c :: body => .option (c :: body) false
  | _ => .positional

/-- An option that was recognised: the flag, the name it was given by, and the value
that came with it. -/
structure Recognised where
  flag : Flag
  name : String
  value : Option String

/-- Cut a text at its first `=`. -/
def cutAtEquals (body : List Char) : List Char × Option (List Char) :=
  match body.dropWhile (· != '=') with
  | [] => (body, none)
  | _ :: value => (body.takeWhile (· != '='), some value)

/-- Recognise an option by its name, or else by a shorthand. -/
def recognise (s : FlagSet) (body : List Char) (long : Bool) : Option Recognised :=
  let (name, value) := cutAtEquals body
  match s.find? (String.ofList name) with
  | some f => some ⟨f, String.ofList name, value.map String.ofList⟩
  | none =>
    match long, body with
    | false, c :: rest =>
      if c.toNat < 0x80 then
        (s.findShorthand? (String.singleton c)).map fun f =>
          ⟨f, String.singleton c, if rest.isEmpty then none else some (String.ofList rest)⟩
      else none
    | _, _ => none

/-- Give a flag the value that a text stands for. -/
def assign (s : FlagSet) (r : Recognised) (value : String) : Except ParseError FlagSet :=
  match r.flag.value.read value with
  | .ok v => .ok (s.setValue r.flag.name v)
  | .error e => .error (.badValue r.name e)

/-- Read arguments after those read before. -/
def parseMore (s : FlagSet) : List String → Option ParseError × FlagSet
  | [] => (none, s)
  | arg :: rest =>
    match classify arg with
    | .positional => (s.addArgs [arg]).parseMore rest
    | .terminator => (none, s.addArgs rest)
    | .option body long =>
      match s.recognise body long with
      | none => (some (.unknown arg), s)
      | some r =>
        let s := s.markChanged r.flag.name
        match r.value with
        | some value =>
          match s.assign r value with
          | .ok s => s.parseMore rest
          | .error e => (some e, s)
        | none =>
          if r.flag.value.isTruth then
            (s.setValue r.flag.name (.truth true)).parseMore rest
          else
            match rest with
            | [] => (some (.needsArgument arg), s)
            | value :: rest =>
              match s.assign r value with
              | .ok s => s.parseMore rest
              | .error e => (some e, s)

/-- Read arguments. The positional arguments of an earlier reading are dropped. -/
def parse (s : FlagSet) (args : List String) : Option ParseError × FlagSet :=
  { s with args := [] }.parseMore args

/-- Whether a flag is on. -/
def isOn (s : FlagSet) (name : String) : Bool :=
  (s.find? name).any fun f => f.value == .truth true

/-- The text of a flag. -/
def textOf (s : FlagSet) (name : String) : String :=
  match s.find? name with
  | some f => f.value.asText
  | none => ""

/-- The word of a flag. -/
def wordOf (s : FlagSet) (name : String) : Word :=
  match s.find? name with
  | some f => f.value.asWord
  | none => 0

/-- Whether a member of a group was turned on, as far as it can be. -/
def turnedOn (s : FlagSet) (t : Toggle) : Bool :=
  t.on.isSome && s.isOn t.onName

/-- Whether a member of a group was turned off, as far as it can be. -/
def turnedOff (s : FlagSet) (t : Toggle) : Bool :=
  t.off.isSome && s.isOn t.offName

end FlagSet

end TreeCode
