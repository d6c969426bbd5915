/-
# Compilation

A program is compiled in stages: its entry function is checked, storage is laid
out, the tree is lowered, and the code is brought into canonical form. The tree
code is kept beside the canonical one, and both are indexed for the machine, so
that either can be run.

A program is entered through a function on top level with a fixed name, a body and
exactly one integer parameter. Nothing is laid out for a program without one.
-/

import TreeCode.IR.Canonical
import TreeCode.Lowering
import TreeCode.Program

namespace TreeCode

open Source (Node Symbol)

/-- The name of the function that a program is entered through. -/
def entryName : String :=
  "_main"

/-- Why a program cannot be entered. -/
inductive EntryError where
  | twice
  | missing
  | noBody
  | parameterCount (count : Nat)
  | parameterType (name : String) (type : String)
deriving DecidableEq, Repr

namespace EntryError

/-- The wording of a cause. -/
def detail : EntryError → String
  | twice => s!"'{entryName}' is defined more than once"
  | missing => s!"no top-level function '{entryName}'"
  | noBody => s!"'{entryName}' has no body"
  | parameterCount count => s!"'{entryName}' takes {count} parameters, want 1"
  | parameterType name type => s!"parameter '{name}' of '{entryName}' is {type}, want integer"

/-- The message of an entry error. -/
def message (e : EntryError) : String :=
  "invalid entry function: " ++ e.detail

end EntryError

/-- A function on top level that bears the entry name. -/
structure EntryFunction where
  decl : Symbol
  params : List Symbol
  body : Option Node

namespace Source.Program

/-- The functions on top level that bear the entry name. -/
def entries (p : Source.Program) : List EntryFunction :=
  p.defs.filterMap fun
    | .funDecl decl params body =>
      if decl.name = entryName then some ⟨decl, params, body⟩ else none
    | _ => none

/-- The entry function of a program. -/
def checkEntry (p : Source.Program) : Except EntryError Symbol :=
  match p.entries with
  | [] => .error .missing
  | [f] =>
    if f.body.isNone then .error .noBody
    else
      match f.params with
      | [param] =>
        match param.ty with
        | .integer => .ok f.decl
        | t => .error (.parameterType param.name (p.types.text t))
      | params => .error (.parameterCount params.length)
  | _ => .error .twice

end Source.Program

/-- Everything that a compilation yields. -/
structure Compilation where
  layout : Layout
  /-- The chunks as lowered. -/
  chunks : List IR.Chunk
  /-- The chunks in canonical form. -/
  canonical : List IR.Chunk
  /-- The program of the chunks as lowered. -/
  tree : Program
  /-- The program of the chunks in canonical form. -/
  linear : Program

/-- Why a program cannot be compiled, by stage. -/
inductive CompileError where
  | entry (error : EntryError)
  | layout (error : LayoutError)
  | lower (error : LowerError)
  | index (error : Program.IndexError)
deriving DecidableEq, Repr

/-- The message of a compile error. -/
def CompileError.message : CompileError → String
  | entry e => e.message
  | layout e => e.message
  | lower e => e.message
  | index e => e.message

/-- Lowered code, indexed as it is. -/
structure TreeForm where
  chunks : List IR.Chunk
  program : Program
  supply : Supply

namespace Source.Program

/-- Lower a laid-out program and index its code. -/
def generate (p : Source.Program) (layout : Layout) (supply : Supply) :
    Except CompileError TreeForm := do
  let (chunks, supply) ← (p.lower layout supply).mapError .lower
  let program ← (Program.ofChunks chunks).mapError .index
  return ⟨chunks, program, supply⟩

end Source.Program

/-- Bring lowered code into canonical form and index it. -/
def TreeForm.linearize (t : TreeForm) : Except CompileError (List IR.Chunk × Program) := do
  let (canonical, _) := IR.Chunk.canonicalAll t.chunks t.supply.temps
  let linear ← (Program.ofChunks canonical).mapError .index
  return (canonical, linear)

/-- Run all stages after the check of the entry. -/
def Source.Program.compileUnchecked (p : Source.Program) : Except CompileError Compilation := do
  let (layout, supply) ← (Layout.build .empty p).mapError .layout
  let code ← p.generate layout supply
  let (canonical, linear) ← code.linearize
  return ⟨layout, code.chunks, canonical, code.program, linear⟩

/-- Compile a program. -/
def Source.Program.compile (p : Source.Program) : Except CompileError Compilation := do
  let _ ← p.checkEntry.mapError .entry
  p.compileUnchecked

end TreeCode
