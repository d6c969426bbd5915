/-
# How a run ends early

A run ends early for one of three reasons, which are kept apart:

* a *fault* is an error of the running program: it has a kind, a place in the code
  and the machine's registers at that moment, and it puts the machine out of
  action;
* a *defect* is code that the machine was never meant to be given, such as a move
  into a constant; it leaves the machine as it was when the defect was met;
* running *out of fuel* says nothing about the program: it only means that the
  bound on the length of the run was too small.
-/

import TreeCode.IR.Text

namespace TreeCode

/-- A place in running code: a function and the number of one of its instructions. -/
structure Location where
  function : String
  index : Nat
deriving DecidableEq, Repr

/-- The printed form of a location. -/
def Location.text (l : Location) : String :=
  l.function ++ "+" ++ toString l.index

/-- The kinds of fault. -/
inductive FaultKind where
  | badAddress
  | unresolvedLabel
  | divideByZero
  | stackOverflow
deriving DecidableEq, Repr

/-- The name of a kind of fault. -/
def FaultKind.name : FaultKind → String
  | badAddress => "bad address"
  | unresolvedLabel => "unresolved label"
  | divideByZero => "divide by zero"
  | stackOverflow => "stack overflow"

/-- The kinds of fault in the order of their numbers. -/
def FaultKind.table : List FaultKind :=
  [badAddress, unresolvedLabel, divideByZero, stackOverflow]

/-- The name of the kind of fault with a number. -/
def FaultKind.nameOfCode (code : Int) : Except TextError String :=
  Text.ofCode (table.map name) "FaultKind" code

/-- What a program did to cause a fault. -/
inductive FaultCause where
  | load (addr : Word)
  | store (addr : Word)
  | stringAt (addr : Word)
  | unterminatedString (addr : Word)
  | noEntry (name : String)
  | noTarget (name : String)
  | noData (name : String)
  | noFunction (name : String)
  | zeroDivisor (dividend : Word) (op : IR.Op)
  | depthLimit (limit : Int) (function : String)
  | frameTooLarge (function : String) (size : Word)
deriving DecidableEq, Repr

namespace FaultCause

/-- The kind of fault a cause leads to. -/
def kind : FaultCause → FaultKind
  | load _ | store _ | stringAt _ | unterminatedString _ => .badAddress
  | noEntry _ | noTarget _ | noData _ | noFunction _ => .unresolvedLabel
  | zeroDivisor _ _ => .divideByZero
  | depthLimit _ _ | frameTooLarge _ _ => .stackOverflow

/-- The wording of a cause. -/
def detail : FaultCause → String
  | load addr => "load from " ++ addr.text
  | store addr => "store to " ++ addr.text
  | stringAt addr => "string at " ++ addr.text
  | unterminatedString addr => "unterminated string at " ++ addr.text
  | noEntry name => s!"entry function '{name}' not found"
  | noTarget name => "jump to " ++ name
  | noData name => "no data at " ++ name
  | noFunction name => "call to " ++ name
  | zeroDivisor dividend op => dividend.text ++ " " ++ op.symbol ++ " 0"
  | depthLimit limit function => s!"call depth limit {limit} reached calling {function}"
  | frameTooLarge function size => s!"frame of {function} ({size.text} bytes) does not fit"

end FaultCause

/-- A fault: its cause, the instruction that was running and the registers then. -/
structure Fault where
  cause : FaultCause
  location : Location
  fp : Word
  sp : Word
deriving DecidableEq, Repr

namespace Fault

/-- The kind of a fault. -/
def kind (f : Fault) : FaultKind :=
  f.cause.kind

/-- The message of a fault. -/
def message (f : Fault) : String :=
  s!"{f.kind.name} at {f.location.text} (fp={f.fp.text} sp={f.sp.text}): {f.cause.detail}"

end Fault

/-- Code that the machine was never meant to be given. -/
inductive Defect where
  | argumentCount (function : String) (expected actual : Nat)
  | moveIntoFramePointer
  | moveInto (target : String)
  | unaryOperator (op : IR.Op)
  | binaryOperator (op : IR.Op)
  | nestedSequence (stmt : String)
  /-- A call without the number of links to follow, or a built-in function called
  with too few arguments. -/
  | missingArgument
deriving DecidableEq, Repr

namespace Defect

/-- The wording of a defect, if it has one. -/
def message? : Defect → Option String
  | argumentCount function expected actual =>
    some s!"internal: {function} takes {expected} arguments, got {actual}"
  | moveIntoFramePointer => some "internal: move into the frame pointer"
  | moveInto target => some s!"internal: move into {target}"
  | unaryOperator op => some ("internal: unary operator " ++ TextError.embed op.text)
  | binaryOperator op => some ("internal: binary operator " ++ TextError.embed op.text)
  | nestedSequence stmt => some s!"internal: unexpected {stmt} in instruction list"
  | missingArgument => none

end Defect

/-- The reasons for which a run ends early. -/
inductive Stop where
  | fault (fault : Fault)
  | defect (defect : Defect)
  | outOfFuel
deriving DecidableEq, Repr

end TreeCode
