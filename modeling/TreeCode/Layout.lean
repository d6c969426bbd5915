/-
# Storage layout

Laying out a program gives every function a frame and every variable a place.
Functions that are listed together get their frames before any of their bodies is
looked at, so that they can call each other. Variables on top level are static
data; those of a `where`, however deep, belong to the frame of the function around
it. Parameters take one word each; a parameter of aggregate type holds the address
of its argument.

A frame is sealed once the body of its function has been laid out: no variable is
added to it afterwards.
-/

import TreeCode.Frame
import TreeCode.Source.Node
import TreeCode.Supply

namespace TreeCode

open Source (Kind Node Symbol)

/-- Where a variable or parameter lives. -/
inductive Access where
  | global (label : Label) (size : Word)
  | localSlot (frame : Nat) (offset size : Word)
  /-- A parameter slot; with `byRef` it holds the address of an aggregate. -/
  | paramSlot (frame : Nat) (offset : Word) (byRef : Bool)
deriving DecidableEq, Repr

/-- The printed form of a place. -/
def Access.text : Access → String
  | global label size => s!"global {label.name} [{size.text}]"
  | localSlot frame offset size => s!"local frame#{frame} +{offset.text} [{size.text}]"
  | paramSlot frame offset byRef =>
    s!"param frame#{frame} +{offset.text}" ++ if byRef then " (ref)" else ""

/-- The frame of a function in the making. -/
structure FrameRecord where
  id : Nat
  /-- The frame of the function around this one. -/
  parent : Option Nat
  level : Nat
  label : Label
  decl : Symbol
  params : List Symbol
  body : Option Node
  /-- The bytes taken by variables, those of every inner `where` included. -/
  localSize : Word
  sealed : Bool

namespace FrameRecord

/-- Whether the function has no body to run. -/
def isExternal (f : FrameRecord) : Bool :=
  f.body.isNone

/-- The offset of a parameter slot. -/
def paramOffset (index : Nat) : Word :=
  Word.size * Int64.ofNat (index + 1)

/-- The offset of the first variable. -/
def localBase (f : FrameRecord) : Word :=
  Word.size * Int64.ofNat (f.params.length + 1)

/-- The offset of the saved frame pointer. -/
def linkOffset (f : FrameRecord) : Word :=
  f.localBase + f.localSize

/-- The size of the frame. -/
def size (f : FrameRecord) : Word :=
  f.linkOffset + Word.size

/-- The shape of the frame as the machine sees it. -/
def frame (f : FrameRecord) : Frame where
  label := f.label
  level := f.level
  params := (List.range f.params.length).map paramOffset
  size := f.size
  linkOffset := f.linkOffset

/-- The printed form of a frame. -/
def text (f : FrameRecord) : String :=
  s!"{f.label.name}(level={f.level} size={f.size.text})"

end FrameRecord

/-- The frames of all functions and the places of all variables. -/
structure Layout where
  frames : Array FrameRecord
  globals : List Symbol
  /-- The places by symbol number. A later entry replaces an earlier one. -/
  accesses : List (Nat × Access)

namespace Layout

/-- Nothing has been laid out. -/
def empty : Layout :=
  ⟨#[], [], []⟩

/-- The frame of a function. -/
def frameOf? (l : Layout) (s : Symbol) : Option FrameRecord :=
  l.frames.find? fun f => f.decl.id == s.id

/-- The place of a variable or parameter. -/
def access? (l : Layout) (s : Symbol) : Option Access :=
  l.accesses.lookup s.id

/-- The nesting level of a frame. -/
def frameLevel (l : Layout) (id : Nat) : Nat :=
  ((l.frames[id]?).map (·.level)).getD 0

/-- The nesting level of the function that owns a place; static data is at level
zero. -/
def level (l : Layout) : Access → Nat
  | .global _ _ => 0
  | .localSlot frame _ _ => l.frameLevel frame
  | .paramSlot frame _ _ => l.frameLevel frame

end Layout

/-- Why a program has no layout. -/
inductive LayoutError where
  | functionTwice (name : String)
  | unexpected (kind : Kind)
  | sealedFrame (label : String)
deriving DecidableEq, Repr

/-- The wording of a cause. -/
def LayoutError.message : LayoutError → String
  | functionTwice name => s!"internal: function '{name}' declared twice"
  | unexpected kind => s!"internal: unexpected {kind.name} among definitions"
  | sealedFrame label => s!"internal: local allocated in sealed frame '{label}'"

/-- A layout in the making and the names left for it. -/
structure LayoutState where
  layout : Layout
  supply : Supply

/-- A step of laying out a program. -/
abbrev LayOut := StateT LayoutState (Except LayoutError)

namespace LayOut

/-- A label for a declared name. -/
def named (name : String) : LayOut Label := fun s =>
  let (l, supply) := s.supply.named name
  .ok (l, { s with supply := supply })

/-- Give a symbol a place. -/
def setAccess (decl : Symbol) (a : Access) : LayOut Unit :=
  modify fun s => { s with layout.accesses := (decl.id, a) :: s.layout.accesses }

/-- Take room for a variable in a frame. -/
def allocate (frame : Nat) (size : Word) : LayOut Word := fun s =>
  match s.layout.frames[frame]? with
  | none => .ok (0, s)
  | some f =>
    if f.sealed then .error (.sealedFrame f.label.name)
    else
      let grown := { f with localSize := f.localSize + size }
      .ok (f.localBase + f.localSize,
        { s with layout.frames := s.layout.frames.setIfInBounds frame grown })

/-- Give a variable a place: static on top level, else in the current frame. -/
def declareVar (current : Option Nat) (decl : Symbol) : LayOut Unit := do
  let size := decl.ty.size
  match current with
  | none =>
    let label ← named decl.name
    setAccess decl (.global label size)
    modify fun s => { s with layout.globals := s.layout.globals ++ [decl] }
  | some frame =>
    let offset ← allocate frame size
    setAccess decl (.localSlot frame offset size)

/-- Give the parameters of a frame their slots. -/
def declareParams (frame : Nat) (index : Nat) : List Symbol → LayOut Unit
  | [] => pure ()
  | p :: rest => do
    setAccess p (.paramSlot frame (FrameRecord.paramOffset index) p.ty.isAggregate)
    declareParams frame (index + 1) rest

/-- Give a function a frame. Its label is qualified by that of the function around
it. -/
def declareFunction (current : Option Nat) (decl : Symbol) (params : List Symbol)
    (body : Option Node) : LayOut Unit := do
  let layout := (← get).layout
  if (layout.frameOf? decl).isSome then
    throw (.functionTwice decl.name)
  let id := layout.frames.size
  let outer := current.bind fun frame => layout.frames[frame]?
  let name := match outer with
    | none => decl.name
    | some f => f.label.name ++ "." ++ decl.name
  let label ← named name
  declareParams id 0 params
  let record : FrameRecord := {
    id := id
    parent := outer.map (·.id)
    level := ((outer.map (·.level)).getD 0) + 1
    label := label
    decl := decl
    params := params
    body := body
    localSize := 0
    sealed := false }
  modify fun s => { s with layout.frames := s.layout.frames.push record }

/-- Give every function of a list of definitions a frame. -/
def declareFunctions (current : Option Nat) : List Node → LayOut Unit
  | [] => pure ()
  | .funDecl decl params body :: rest => do
    declareFunction current decl params body
    declareFunctions current rest
  | _ :: rest => declareFunctions current rest

/-- Close a frame. -/
def sealFrame (id : Nat) : LayOut Unit :=
  modify fun s => { s with
    layout.frames := s.layout.frames.modify id fun f => { f with sealed := true } }

/-- The number of the frame of a function. -/
def frameId (decl : Symbol) : LayOut Nat := fun s =>
  .ok (((s.layout.frameOf? decl).map (·.id)).getD 0, s)

mutual

/-- Lay out the definitions of a list whose functions have their frames. -/
def definitions (current : Option Nat) : List Node → LayOut Unit
  | [] => pure ()
  | .varDecl decl :: rest => do
    declareVar current decl
    definitions current rest
  | .funDecl decl _ none :: rest => do
    sealFrame (← frameId decl)
    definitions current rest
  | .funDecl decl _ (some body) :: rest => do
    let id ← frameId decl
    node (some id) body
    sealFrame id
    definitions current rest
  | .typeDecl _ :: rest => definitions current rest
  | n :: _ => throw (.unexpected n.kind)

/-- Lay out everything that is declared inside a node. -/
def node (current : Option Nat) : Node → LayOut Unit
  | .within body defs => do
    declareFunctions current defs
    definitions current defs
    node current body
  | .binary _ left right => do
    node current left
    node current right
  | .unary _ operand => node current operand
  | .member operand _ => node current operand
  | .call _ args => nodes current args
  | .sequence items => nodes current items
  | .branch _ condition thenArm none => do
    node current condition
    node current thenArm
  | .branch _ condition thenArm (some elseArm) => do
    node current condition
    node current thenArm
    node current elseArm
  | .whileLoop condition body => do
    node current condition
    node current body
  | .forLoop counter lo hi step body => do
    node current counter
    node current lo
    node current hi
    node current step
    node current body
  | .funDecl _ _ (some body) => node current body
  | _ => pure ()

/-- Lay out everything that is declared inside the nodes of a list. -/
def nodes (current : Option Nat) : List Node → LayOut Unit
  | [] => pure ()
  | n :: rest => do
    node current n
    nodes current rest

end

/-- Lay out a list of definitions. -/
def scope (current : Option Nat) (defs : List Node) : LayOut Unit := do
  declareFunctions current defs
  definitions current defs

end LayOut

namespace Layout

/-- Lay out a program, drawing labels from a supply. -/
def build (supply : Supply) (p : Source.Program) : Except LayoutError (Layout × Supply) := do
  let (_, s) ← LayOut.scope none p.defs ⟨empty, supply⟩
  return (s.layout, s.supply)

end Layout

end TreeCode
