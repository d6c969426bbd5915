/-
# Renaming

A renaming gives every symbol a name, and every record and every declared type another
one. Types that are declared under different names keep different ones; everything else
may become the namesake of anything.

What a program means is not to depend on names. That is so for types: sizes, fields and
what pointers lead to are those of the type before.
-/

import Mathlib.Logic.Function.Basic
import TreeCode.Source.Node

namespace TreeCode

open Source (Node Symbol)

/-- New names for symbols, for records and for declared types. -/
structure Renaming where
  symbol : Symbol → String
  record : String → String
  type : String → String
  injective : Function.Injective type

mutual

/-- A type under other names. The names of fields stay. -/
def Ty.rename (ρ : Renaming) : Ty → Ty
  | .array length elem => .array length (elem.rename ρ)
  | .pointer target => .pointer (target.rename ρ)
  | .record name fields => .record (ρ.record name) (Ty.renameFields ρ fields)
  | .ref id => .ref (ρ.type id)
  | .absent => .absent
  | .integer => .integer
  | .logical => .logical
  | .string => .string
  | .void => .void

/-- The fields of a record with their types under other names. -/
def Ty.renameFields (ρ : Renaming) : List (String × Ty) → List (String × Ty)
  | [] => []
  | (n, t) :: rest => (n, t.rename ρ) :: Ty.renameFields ρ rest

end

/-- The declared types under other names. -/
def TypeTable.rename (ρ : Renaming) (types : TypeTable) : TypeTable :=
  types.map fun entry => (ρ.type entry.1, entry.2.rename ρ)

namespace Source

/-- A symbol under another name. -/
def Symbol.rename (ρ : Renaming) (x : Symbol) : Symbol :=
  ⟨x.id, ρ.symbol x, x.ty.rename ρ⟩

@[simp]
theorem Symbol.id_rename (ρ : Renaming) (x : Symbol) : (x.rename ρ).id = x.id := rfl

@[simp]
theorem Symbol.ty_rename (ρ : Renaming) (x : Symbol) : (x.rename ρ).ty = x.ty.rename ρ := rfl

mutual

/-- A node in which all symbols and types have other names. -/
def Node.rename (ρ : Renaming) : Node → Node
  | .number n => .number n
  | .logical b => .logical b
  | .string bytes => .string bytes
  | .ident x => .ident (x.rename ρ)
  | .binary op left right => .binary op (left.rename ρ) (right.rename ρ)
  | .unary op operand => .unary op (operand.rename ρ)
  | .member operand field => .member (operand.rename ρ) field
  | .call callee args => .call (callee.rename ρ) (Node.renameAll ρ args)
  | .sequence items => .sequence (Node.renameAll ρ items)
  | .within body defs => .within (body.rename ρ) (Node.renameAll ρ defs)
  | .branch valued condition thenArm none =>
    .branch valued (condition.rename ρ) (thenArm.rename ρ) none
  | .branch valued condition thenArm (some elseArm) =>
    .branch valued (condition.rename ρ) (thenArm.rename ρ) (some (elseArm.rename ρ))
  | .whileLoop condition body => .whileLoop (condition.rename ρ) (body.rename ρ)
  | .forLoop counter lo hi step body =>
    .forLoop (counter.rename ρ) (lo.rename ρ) (hi.rename ρ) (step.rename ρ) (body.rename ρ)
  | .funDecl x params none => .funDecl (x.rename ρ) (params.map (·.rename ρ)) none
  | .funDecl x params (some body) =>
    .funDecl (x.rename ρ) (params.map (·.rename ρ)) (some (body.rename ρ))
  | .varDecl x => .varDecl (x.rename ρ)
  | .parDecl x => .parDecl (x.rename ρ)
  | .typeDecl x => .typeDecl (x.rename ρ)

/-- The nodes of a list under other names. -/
def Node.renameAll (ρ : Renaming) : List Node → List Node
  | [] => []
  | n :: rest => n.rename ρ :: Node.renameAll ρ rest

end

/-- A program under other names. -/
def Program.rename (ρ : Renaming) (p : Program) : Program :=
  ⟨p.types.rename ρ, Node.renameAll ρ p.defs⟩

end Source

section

variable (ρ : Renaming)

namespace Ty

mutual

@[simp]
theorem size_rename : ∀ t : Ty, (t.rename ρ).size = t.size
  | .array length elem => by rw [rename, size, size, size_rename elem]
  | .record _ fields => by rw [rename, size, size, fieldsSize_rename fields]
  | .pointer _ | .ref _ | .absent | .integer | .logical | .string | .void => rfl

theorem fieldsSize_rename : ∀ fields : List (String × Ty),
    fieldsSize (renameFields ρ fields) = fieldsSize fields
  | [] => rfl
  | (_, t) :: rest => by
    rw [renameFields, fieldsSize, fieldsSize, size_rename t, fieldsSize_rename rest]

end

@[simp]
theorem isAggregate_rename (t : Ty) : (t.rename ρ).isAggregate = t.isAggregate := by
  cases t <;> rfl

@[simp]
theorem isVoid_rename (t : Ty) : (t.rename ρ).isVoid = t.isVoid := by
  cases t <;> rfl

/-- A field is at its place under other names, too. -/
theorem fieldFrom?_rename (name : String) : ∀ (fields : List (String × Ty)) (offset : Word),
    fieldFrom? offset name (renameFields ρ fields) =
      (fieldFrom? offset name fields).map fun place => (place.1, place.2.rename ρ)
  | [], _ => rfl
  | (n, t) :: rest, offset => by
    rw [renameFields, fieldFrom?, fieldFrom?, size_rename]
    split
    · rfl
    · exact fieldFrom?_rename name rest _

theorem field?_rename (t : Ty) (name : String) :
    (t.rename ρ).field? name = (t.field? name).map fun place => (place.1, place.2.rename ρ) := by
  cases t with
  | record _ fields => exact fieldFrom?_rename ρ name fields 0
  | _ => rfl

mutual

/-- Names are replaced before or after renaming. -/
theorem expandWith_rename {lookup lookup' : String → Ty}
    (h : ∀ id, lookup' (ρ.type id) = (lookup id).rename ρ) : ∀ t : Ty,
    (t.rename ρ).expandWith lookup' = (t.expandWith lookup).rename ρ
  | .array length elem => by
    rw [rename, expandWith, expandWith, rename, expandWith_rename h elem]
  | .record _ fields => by
    rw [rename, expandWith, expandWith, rename, expandFields_rename h fields]
  | .ref id => h id
  | .pointer _ | .absent | .integer | .logical | .string | .void => rfl

theorem expandFields_rename {lookup lookup' : String → Ty}
    (h : ∀ id, lookup' (ρ.type id) = (lookup id).rename ρ) : ∀ fields : List (String × Ty),
    expandFields lookup' (renameFields ρ fields) = renameFields ρ (expandFields lookup fields)
  | [] => rfl
  | (_, t) :: rest => by
    rw [renameFields, expandFields, expandFields, renameFields, expandWith_rename h t,
      expandFields_rename h rest]

end

end Ty

namespace TypeTable

/-- A declared type is found under its new name. -/
theorem lookup_rename (types : TypeTable) (id : String) :
    (types.rename ρ).lookup (ρ.type id) = (types.lookup id).map (·.rename ρ) := by
  induction types with
  | nil => rfl
  | cons entry rest ih =>
    obtain ⟨key, t⟩ := entry
    have hkey : (ρ.type id == ρ.type key) = (id == key) := by
      rw [Bool.eq_iff_iff, beq_iff_eq, beq_iff_eq, ρ.injective.eq_iff]
    rw [rename, List.map_cons, List.lookup_cons, List.lookup_cons, hkey]
    cases id == key with
    | true => rfl
    | false => exact ih

theorem lookupRef_rename (types : TypeTable) : ∀ (n : Nat) (id : String),
    (types.rename ρ).lookupRef n (ρ.type id) = (types.lookupRef n id).rename ρ
  | 0, _ => rfl
  | n + 1, id => by
    have hfound : ((types.rename ρ).lookup (ρ.type id)).getD .absent =
        ((types.lookup id).getD .absent).rename ρ := by
      rw [lookup_rename]
      cases types.lookup id <;> rfl
    rw [lookupRef, lookupRef, hfound]
    exact Ty.expandWith_rename ρ (lookupRef_rename types n) _

theorem base_rename (types : TypeTable) (t : Ty) :
    (types.rename ρ).base (t.rename ρ) = (types.base t).rename ρ := by
  cases t with
  | pointer target =>
    have hlength : (types.rename ρ).length = types.length := List.length_map ..
    rw [Ty.rename, base, base, expand, expand, hlength]
    exact Ty.expandWith_rename ρ (types.lookupRef_rename ρ _) target
  | _ => rfl

end TypeTable

namespace Source.Node

theorem renameAll_eq_map : ∀ ns : List Node, renameAll ρ ns = ns.map (·.rename ρ)
  | [] => rfl
  | n :: rest => by rw [renameAll, renameAll_eq_map rest, List.map_cons]

theorem rename_funDecl (x : Symbol) (params : List Symbol) (body : Option Node) :
    (funDecl x params body).rename ρ =
      .funDecl (x.rename ρ) (params.map (·.rename ρ)) (body.map (·.rename ρ)) := by
  cases body <;> rfl

theorem binaryTy_rename (types : TypeTable) (op : Op) (left : Ty) :
    binaryTy (types.rename ρ) op (left.rename ρ) = (binaryTy types op left).rename ρ := by
  cases op with
  | index => exact types.base_rename ρ left
  | other code =>
    simp only [binaryTy]
    split <;> rfl
  | _ => rfl

theorem unaryTy_rename (types : TypeTable) (op : Op) (operand : Ty) :
    unaryTy (types.rename ρ) op (operand.rename ρ) = (unaryTy types op operand).rename ρ := by
  cases op with
  | deref => exact types.base_rename ρ operand
  | _ => rfl

end Source.Node

end

end TreeCode
