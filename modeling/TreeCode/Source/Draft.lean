/-
# Drafts

A draft is a program as it is written down: a table of declarations, bodies and
definitions that mention declarations by name. Resolving a draft replaces every
mention by the symbol of the declaration, puts the body of a function where the
function is listed, and rejects what no well-formed tree contains: uses of
something other than a variable, members that a type does not have, and elements
or targets of an expression that has no type.

Declarations come first, then the bodies of functions, then the definitions on
top level; the first fault in this order is the one reported. A function that is
listed inside its own body is listed there without its body, so that resolving
always ends; laying out such a program is refused anyway.
-/

import TreeCode.Source.Node

namespace TreeCode.Source

/-- An expression or definition as written. -/
inductive Term where
  | number (value : Word)
  | logical (value : Bool)
  | string (bytes : List UInt8)
  /-- The use of a variable or parameter. -/
  | use (id : String)
  /-- A declaration itself, as it stands in a list of definitions. -/
  | declare (id : String)
  | binary (op : Op) (left right : Term)
  | unary (op : Op) (operand : Term)
  | member (operand : Term) (field : String)
  | call (callee : String) (args : List Term)
  | sequence (items : List Term)
  | within (body : Term) (defs : List Term)
  | branch (valued : Bool) (condition thenArm : Term) (elseArm : Option Term)
  | whileLoop (condition body : Term)
  | forLoop (counter lo hi step body : Term)

instance : Inhabited Term := ⟨.number 0⟩

/-- What a declaration declares. -/
inductive Form where
  | var
  | par
  | type
  | function (params : List String) (body : Option Term)

/-- A declaration as written. Other parts of the draft mention it by its id. -/
structure Declaration where
  id : String
  name : String
  ty : Ty
  form : Form

/-- A program as written. -/
structure Draft where
  types : TypeTable
  decls : List Declaration
  defs : List Term

/-- Why a draft cannot be resolved. -/
inductive ResolveError where
  | unknown (id : String)
  | parameterKind (function : String) (kind : Kind)
  | notVariable (name : String)
  | noField (type : String) (field : String)
  /-- An element or target of an expression without a type is asked for. -/
  | noType
deriving DecidableEq, Repr

namespace ResolveError

/-- The wording of a cause, if it has one. -/
def message? : ResolveError → Option String
  | unknown id => some s!"internal: '{id}' is not declared"
  | parameterKind function kind => some s!"internal: parameter of '{function}' is a {kind.name}"
  | notVariable name => some s!"internal: '{name}' is not a variable"
  | noField type field => some s!"internal: type {type} has no field '{field}'"
  | noType => none

end ResolveError

/-- A declaration with everything resolved but the body of a function. -/
structure Entry where
  id : String
  kind : Kind
  symbol : Symbol
  params : List Symbol
  body : Option Term

namespace Entry

/-- The entry of an id. -/
def find (entries : List Entry) (id : String) : Except ResolveError Entry :=
  match entries.find? fun e => e.id == id with
  | some e => .ok e
  | none => .error (.unknown id)

/-- The node of a declaration, given the body of a function. -/
def node (e : Entry) (body : Option Node) : Node :=
  match e.kind with
  | .funcDecl => .funDecl e.symbol e.params body
  | .parDecl => .parDecl e.symbol
  | .typeDecl => .typeDecl e.symbol
  | _ => .varDecl e.symbol

/-- The parameters of a function, which must be declared as such. -/
def findParams (entries : List Entry) (function : String) :
    List String → Except ResolveError (List Symbol)
  | [] => .ok []
  | id :: rest => do
    let e ← find entries id
    if e.kind = .parDecl then
      return e.symbol :: (← findParams entries function rest)
    else
      throw (.parameterKind function e.kind)

end Entry

namespace Declaration

/-- Resolve a declaration after those before it. -/
def entry (d : Declaration) (types : TypeTable) (before : List Entry) :
    Except ResolveError Entry :=
  let symbol : Symbol := ⟨before.length, d.name, types.expand d.ty⟩
  match d.form with
  | .var => .ok ⟨d.id, .varDecl, symbol, [], none⟩
  | .par => .ok ⟨d.id, .parDecl, symbol, [], none⟩
  | .type => .ok ⟨d.id, .typeDecl, symbol, [], none⟩
  | .function params body => do
    return ⟨d.id, .funcDecl, symbol, ← Entry.findParams before d.name params, body⟩

/-- Resolve declarations one after the other. -/
def entries (types : TypeTable) (before : List Entry) :
    List Declaration → Except ResolveError (List Entry)
  | [] => .ok before
  | d :: rest => do entries types (before ++ [← d.entry types before]) rest

end Declaration

namespace Term

/-- Check that an expression has a type before something is reached through it. -/
def requireTy (types : TypeTable) (n : Node) : Except ResolveError Unit :=
  match n.ty types with
  | .absent => .error .noType
  | _ => .ok ()

variable (types : TypeTable) (entries : List Entry) (bodyOf : Entry → Option Node)

mutual

/-- Resolve a term, given the bodies of the functions that it lists. -/
def resolve : Term → Except ResolveError Node
  | .number n => .ok (.number n)
  | .logical b => .ok (.logical b)
  | .string bytes => .ok (.string bytes)
  | .use id => do
    let e ← Entry.find entries id
    if e.kind = .varDecl ∨ e.kind = .parDecl then
      return .ident e.symbol
    else
      throw (.notVariable e.symbol.name)
  | .declare id => do
    let e ← Entry.find entries id
    return e.node (bodyOf e)
  | .binary op left right => do
    let left ← left.resolve
    let right ← right.resolve
    if op = .index then requireTy types left
    return .binary op left right
  | .unary op operand => do
    let operand ← operand.resolve
    if op = .deref then requireTy types operand
    return .unary op operand
  | .member operand field => do
    let operand ← operand.resolve
    let t := operand.ty types
    if (t.field? field).isNone then
      throw (.noField (types.text t) field)
    return .member operand field
  | .call callee args => do
    let e ← Entry.find entries callee
    return .call e.symbol (← resolveAll args)
  | .sequence items => do return .sequence (← resolveAll items)
  | .within body defs => do
    let body ← body.resolve
    return .within body (← resolveAll defs)
  | .branch valued condition thenArm none => do
    let condition ← condition.resolve
    let thenArm ← thenArm.resolve
    return .branch valued condition thenArm none
  | .branch valued condition thenArm (some elseArm) => do
    let condition ← condition.resolve
    let thenArm ← thenArm.resolve
    let elseArm ← elseArm.resolve
    return .branch valued condition thenArm (some elseArm)
  | .whileLoop condition body => do
    let condition ← condition.resolve
    return .whileLoop condition (← body.resolve)
  | .forLoop counter lo hi step body => do
    let counter ← counter.resolve
    let lo ← lo.resolve
    let hi ← hi.resolve
    let step ← step.resolve
    return .forLoop counter lo hi step (← body.resolve)

/-- Resolve terms from left to right. -/
def resolveAll : List Term → Except ResolveError (List Node)
  | [] => .ok []
  | t :: rest => do
    let n ← t.resolve
    return n :: (← resolveAll rest)

end

end Term

namespace Draft

/-- The body of a function where it is listed inside the functions with the given
numbers, of which at most a number more may follow. -/
def bodyOf (types : TypeTable) (entries : List Entry) : Nat → List Nat → Entry → Option Node
  | 0, _, _ => none
  | n + 1, path, e =>
    if path.contains e.symbol.id then none
    else
      match e.body with
      | none => none
      | some body =>
        (body.resolve types entries (bodyOf types entries n (e.symbol.id :: path))).toOption

/-- Resolve a draft. -/
def resolve (d : Draft) : Except ResolveError Program := do
  let entries ← Declaration.entries d.types [] d.decls
  let _ ← Term.resolveAll d.types entries (fun _ => none) (entries.filterMap (·.body))
  let defs ← Term.resolveAll d.types entries
    (bodyOf d.types entries (entries.length + 1) []) d.defs
  return ⟨d.types, defs⟩

end Draft

end TreeCode.Source
