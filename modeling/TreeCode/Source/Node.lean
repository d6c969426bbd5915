/-
# The source tree

A program is a tree in which every use of a variable or function already carries
the symbol of its declaration. Declarations are nodes as well: they are listed
where they take effect, on top level or in a `where`, and the body of a function
is part of its declaration. Two nodes with the same symbol number are the same
declaration.

The type of a node is determined by the node itself and the table of declared
types, so the tree does not store it.
-/

import TreeCode.Source.Op
import TreeCode.Ty

namespace TreeCode.Source

/-- What every use of a declaration knows about it. The type of a function is the
type of its result. -/
structure Symbol where
  id : Nat
  name : String
  ty : Ty

/-- A node of the source tree. -/
inductive Node where
  | number (value : Word)
  | logical (value : Bool)
  | string (bytes : List UInt8)
  | ident (decl : Symbol)
  | binary (op : Op) (left right : Node)
  | unary (op : Op) (operand : Node)
  | member (operand : Node) (field : String)
  | call (callee : Symbol) (args : List Node)
  | sequence (items : List Node)
  | within (body : Node) (defs : List Node)
  /-- A conditional; `valued` tells whether it has the value of the arm taken. -/
  | branch (valued : Bool) (condition thenArm : Node) (elseArm : Option Node)
  | whileLoop (condition body : Node)
  | forLoop (counter lo hi step body : Node)
  /-- A function; without a body it is external. -/
  | funDecl (decl : Symbol) (params : List Symbol) (body : Option Node)
  | varDecl (decl : Symbol)
  | parDecl (decl : Symbol)
  | typeDecl (decl : Symbol)

instance : Inhabited Node := ⟨.number 0⟩

/-- A program: its declared types and its definitions on top level. -/
structure Program where
  types : TypeTable
  defs : List Node

/-- The kinds of node. -/
inductive Kind where
  | number | logical | string | ident | binaryOp | unaryOp | member | funcCall
  | sequence | within | branch | whileLoop | forLoop
  | funcDecl | varDecl | parDecl | typeDecl
deriving DecidableEq, Repr

namespace Kind

/-- The name of a kind of node. -/
def name : Kind → String
  | number => "Number"
  | logical => "Logical"
  | string => "String"
  | ident => "Ident"
  | binaryOp => "BinaryOp"
  | unaryOp => "UnaryOp"
  | member => "Member"
  | funcCall => "FuncCall"
  | sequence => "Sequence"
  | within => "Where"
  | branch => "If"
  | whileLoop => "While"
  | forLoop => "For"
  | funcDecl => "FuncDecl"
  | varDecl => "VarDecl"
  | parDecl => "ParDecl"
  | typeDecl => "TypeDecl"

/-- The kinds of node in the order of their numbers. -/
def table : List Kind :=
  [number, logical, string, ident, binaryOp, unaryOp, member, funcCall, sequence, within,
    branch, whileLoop, forLoop, funcDecl, varDecl, parDecl, typeDecl]

/-- The name of the kind with a number. -/
def nameOfCode (code : Int) : Except TextError String :=
  Text.ofCode (table.map name) "NodeType" code

end Kind

namespace Node

/-- The kind of a node. -/
def kind : Node → Kind
  | number _ => .number
  | logical _ => .logical
  | string _ => .string
  | ident _ => .ident
  | binary .. => .binaryOp
  | unary .. => .unaryOp
  | member .. => .member
  | call .. => .funcCall
  | sequence _ => .sequence
  | within .. => .within
  | branch .. => .branch
  | whileLoop .. => .whileLoop
  | forLoop .. => .forLoop
  | funDecl .. => .funcDecl
  | varDecl _ => .varDecl
  | parDecl _ => .parDecl
  | typeDecl _ => .typeDecl

/-- The name that a node declares or uses; other nodes have an empty one. -/
def name : Node → String
  | ident s => s.name
  | funDecl s _ _ => s.name
  | varDecl s => s.name
  | parDecl s => s.name
  | typeDecl s => s.name
  | _ => ""

/-- The type of a binary operation, from that of its left operand. -/
def binaryTy (types : TypeTable) (op : Op) (left : Ty) : Ty :=
  match op with
  | .index => types.base left
  | .assign => left
  | op => if op.isLogical then .logical else .integer

/-- The type of a unary operation, from that of its operand. -/
def unaryTy (types : TypeTable) (op : Op) (operand : Ty) : Ty :=
  match op with
  | .not => .logical
  | .addr => .pointer operand
  | .deref => types.base operand
  | _ => .integer

mutual

/-- The type of a node. -/
def ty (types : TypeTable) : Node → Ty
  | number _ => .integer
  | logical _ => .logical
  | string _ => .string
  | ident s => s.ty
  | binary op left _ => binaryTy types op (left.ty types)
  | unary op operand => unaryTy types op (operand.ty types)
  | member operand field => (((operand.ty types).field? field).map (·.2)).getD .absent
  | call callee _ => callee.ty
  | sequence items => lastTy types .void items
  | within body _ => body.ty types
  | branch valued _ thenArm _ => if valued then thenArm.ty types else .void
  | whileLoop .. => .void
  | forLoop .. => .void
  | funDecl s _ _ => s.ty
  | varDecl s => s.ty
  | parDecl s => s.ty
  | typeDecl s => s.ty

/-- The type of the last node of a list, or the given one if there is none. -/
def lastTy (types : TypeTable) (default : Ty) : List Node → Ty
  | [] => default
  | n :: rest => lastTy types (n.ty types) rest

end

mutual

/-- All nodes of a tree from the top down, definitions of a `where` before its
body. The parameters of a function count as nodes. -/
def preorder : Node → List Node
  | n@(binary _ left right) => n :: (left.preorder ++ right.preorder)
  | n@(unary _ operand) => n :: operand.preorder
  | n@(member operand _) => n :: operand.preorder
  | n@(call _ args) => n :: preorderAll args
  | n@(sequence items) => n :: preorderAll items
  | n@(within body defs) => n :: (preorderAll defs ++ body.preorder)
  | n@(branch _ condition thenArm none) => n :: (condition.preorder ++ thenArm.preorder)
  | n@(branch _ condition thenArm (some elseArm)) =>
    n :: (condition.preorder ++ thenArm.preorder ++ elseArm.preorder)
  | n@(whileLoop condition body) => n :: (condition.preorder ++ body.preorder)
  | n@(forLoop counter lo hi step body) =>
    n :: (counter.preorder ++ lo.preorder ++ hi.preorder ++ step.preorder ++ body.preorder)
  | n@(funDecl _ params none) => n :: params.map parDecl
  | n@(funDecl _ params (some body)) => n :: (params.map parDecl ++ body.preorder)
  | n => [n]

/-- All nodes of a list of trees. -/
def preorderAll : List Node → List Node
  | [] => []
  | n :: rest => n.preorder ++ preorderAll rest

end

/-- The line that describes a node: its kind, its name and its type. -/
def describe (types : TypeTable) (n : Node) : String :=
  n.kind.name ++ " " ++ n.name ++ " " ++ types.text (n.ty types)

end Node

namespace Program

/-- One line for every node of a program. -/
def describe (p : Program) : List String :=
  (Node.preorderAll p.defs).map (·.describe p.types)

end Program

end TreeCode.Source
