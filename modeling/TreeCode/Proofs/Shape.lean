/-
# The shape of source trees

The nodes right below a node are its children. A `where` has definitions besides, and the
functions among these have bodies. What passes from the children and the bodies to a node
holds of all nodes.
-/

import TreeCode.Source.Node

namespace TreeCode.Source.Node

/-- Whether a node is a `where`. -/
def isWithin : Node → Bool
  | .within _ _ => true
  | _ => false

/-- Whether a node declares a function. -/
def isFunction : Node → Bool
  | .funDecl _ _ _ => true
  | _ => false

/-- The nodes right below a node, definitions and the bodies of functions apart. -/
@[simp] def children : Node → List Node
  | .binary _ left right => [left, right]
  | .unary _ operand => [operand]
  | .member operand _ => [operand]
  | .call _ args => args
  | .sequence items => items
  | .within body _ => [body]
  | .branch _ condition thenArm none => [condition, thenArm]
  | .branch _ condition thenArm (some elseArm) => [condition, thenArm, elseArm]
  | .whileLoop condition body => [condition, body]
  | .forLoop counter lo hi step body => [counter, lo, hi, step, body]
  | .funDecl _ _ (some body) => [body]
  | _ => []

/-- The definitions of a `where`. -/
def definitions : Node → List Node
  | .within _ defs => defs
  | _ => []

/-- A property that a node has if its children have it, and so do the bodies of the
functions that it defines. -/
def Hereditary (P : Node → Prop) : Prop :=
  ∀ n : Node, (∀ m ∈ n.children, P m) →
    (∀ x params body, .funDecl x params (some body) ∈ n.definitions → P body) → P n

mutual

/-- Induction over the children of a node and the functions that it defines. -/
theorem inductOn {P : Node → Prop} (h : Hereditary P) : ∀ n : Node, P n
  | .number _ | .logical _ | .string _ | .ident _ | .varDecl _ | .parDecl _ | .typeDecl _
  | .funDecl _ _ none => h _ nofun nofun
  | .unary _ a | .member a _ | .funDecl _ _ (some a) => by
    refine h _ ?_ nofun
    simp only [children, List.forall_mem_cons]
    exact ⟨inductOn h a, nofun⟩
  | .binary _ a b | .branch _ a b none | .whileLoop a b => by
    refine h _ ?_ nofun
    simp only [children, List.forall_mem_cons]
    exact ⟨inductOn h a, inductOn h b, nofun⟩
  | .call _ ns | .sequence ns => h _ (inductAll h ns) nofun
  | .within body defs => by
    refine h _ ?_ (inductBodies h defs)
    simp only [children, List.forall_mem_cons]
    exact ⟨inductOn h body, nofun⟩
  | .branch _ condition thenArm (some elseArm) => by
    refine h _ ?_ nofun
    simp only [children, List.forall_mem_cons]
    exact ⟨inductOn h condition, inductOn h thenArm, inductOn h elseArm, nofun⟩
  | .forLoop counter lo hi step body => by
    refine h _ ?_ nofun
    simp only [children, List.forall_mem_cons]
    exact ⟨inductOn h counter, inductOn h lo, inductOn h hi, inductOn h step, inductOn h body,
      nofun⟩

theorem inductAll {P : Node → Prop} (h : Hereditary P) : ∀ (ns : List Node), ∀ n ∈ ns, P n
  | [], _, hn => nomatch hn
  | n :: ns, m, hm => by
    cases hm with
    | head => exact inductOn h n
    | tail _ hm => exact inductAll h ns m hm

theorem inductBodies {P : Node → Prop} (h : Hereditary P) : ∀ (ns : List Node) (x : Symbol)
    (params : List Symbol) (body : Node), .funDecl x params (some body) ∈ ns → P body
  | [], _, _, _, hn => nomatch hn
  | n :: ns, x, params, body, hn => by
    cases hn with
    | head => exact inductOn h body
    | tail _ hn => exact inductBodies h ns x params body hn

end

end TreeCode.Source.Node
