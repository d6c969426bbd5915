/-
# Comparing types

Types contain lists of types, so that equality is decided by hand: `Ty.same` compares two
types constructor by constructor.
-/

import TreeCode.Source.Node

namespace TreeCode

namespace Ty

mutual

/-- Whether two types are the same. -/
def same : Ty → Ty → Bool
  | absent, absent => true
  | integer, integer => true
  | logical, logical => true
  | string, string => true
  | void, void => true
  | array m s, array n t => m == n && s.same t
  | pointer s, pointer t => s.same t
  | record m fs, record n gs => m == n && sameFields fs gs
  | ref a, ref b => a == b
  | _, _ => false

/-- Whether the fields of two records are the same. -/
def sameFields : List (String × Ty) → List (String × Ty) → Bool
  | [], [] => true
  | (m, s) :: fs, (n, t) :: gs => m == n && s.same t && sameFields fs gs
  | _, _ => false

end

mutual

theorem same_iff : ∀ s t : Ty, s.same t = true ↔ s = t
  | absent, t | integer, t | logical, t | string, t | void, t | ref a, t =>
    by cases t <;> simp [same]
  | pointer s, t => by
    cases t with
    | pointer t => simp [same, same_iff s t]
    | _ => simp [same]
  | array m s, t => by
    cases t with
    | array n t => simp [same, same_iff s t]
    | _ => simp [same]
  | record m fs, t => by
    cases t with
    | record n gs => simp [same, sameFields_iff fs gs]
    | _ => simp [same]

theorem sameFields_iff : ∀ fs gs : List (String × Ty), sameFields fs gs = true ↔ fs = gs
  | [], gs => by cases gs <;> simp [sameFields]
  | (m, s) :: fs, [] => by simp [sameFields]
  | (m, s) :: fs, (n, t) :: gs => by
    simp [sameFields, same_iff s t, sameFields_iff fs gs, and_assoc]

end

instance : DecidableEq Ty := fun s t =>
  decidable_of_iff _ (same_iff s t)

end Ty

deriving instance DecidableEq for Source.Symbol

end TreeCode
