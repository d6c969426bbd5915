/-
# Report of a layout

The report lists the static variables with their places, then every frame with the
places of its parameters and of the variables declared in its body. Variables of
inner functions stand under those functions.
-/

import TreeCode.Layout
import TreeCode.Text.Pad

namespace TreeCode

open Source (Node Symbol)

mutual

/-- The variables declared in a tree outside of inner functions, from the top
down. -/
def Source.Node.declared : Node → List Symbol
  | .varDecl s => [s]
  | .binary _ left right => left.declared ++ right.declared
  | .unary _ operand => operand.declared
  | .member operand _ => operand.declared
  | .call _ args => Source.Node.declaredAll args
  | .sequence items => Source.Node.declaredAll items
  | .within body defs => Source.Node.declaredAll defs ++ body.declared
  | .branch _ condition thenArm none => condition.declared ++ thenArm.declared
  | .branch _ condition thenArm (some elseArm) =>
    condition.declared ++ thenArm.declared ++ elseArm.declared
  | .whileLoop condition body => condition.declared ++ body.declared
  | .forLoop counter lo hi step body =>
    counter.declared ++ lo.declared ++ hi.declared ++ step.declared ++ body.declared
  | _ => []

/-- The variables declared in a list of trees outside of inner functions. -/
def Source.Node.declaredAll : List Node → List Symbol
  | [] => []
  | n :: rest => n.declared ++ Source.Node.declaredAll rest

end

namespace Layout

/-- The line of a symbol with its place, the name padded to a width. -/
def symbolLine (l : Layout) (width : Nat) (s : Symbol) : String :=
  Text.padRight width s.name ++ " " ++
    match l.access? s with
    | some a => a.text
    | none => TextError.absentText

/-- The lines of a frame. -/
def frameLines (l : Layout) (f : FrameRecord) : List String :=
  let indent := Text.indent (f.level - 1)
  let kind := if f.isExternal then "extern" else "fun"
  let inner := match f.body with
    | none => []
    | some body => body.declared
  s!"{indent}{kind} {f.label.name} level={f.level} size={f.size.text} link=+{f.linkOffset.text}" ::
    (f.params ++ inner).map fun s => indent ++ "  " ++ l.symbolLine 14 s

/-- The report of a layout. -/
def report (l : Layout) : String :=
  let lines := l.globals.map (l.symbolLine 16) ++ l.frames.toList.flatMap l.frameLines
  String.join (lines.map (· ++ "\n"))

end Layout

end TreeCode
