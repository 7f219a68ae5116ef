import SemCheck.Ty.Basic
import SemCheck.Ty.Members

/-!
# Unions and intersections in normal form

`Ty.union` and `Ty.intersection` build a type from whatever members are given; `Ty.unite` and `Ty.intersect` flatten
the members first, and make no union or intersection of fewer than two.
-/

namespace SemCheck.Ty

/-- No members make `nothing`, a single one stands for itself. -/
def collapse (wrap : List Ty → Ty) : List Ty → Ty
  | [] => .nothing
  | [t] => t
  | ts => wrap ts

def unionMembers? : Ty → Option (List Ty)
  | .union members => some members
  | _ => none

def intersectionMembers? : Ty → Option (List Ty)
  | .intersection members => some members
  | _ => none

def unite (members : List Ty) : Ty := collapse .union (flatten .nothing unionMembers? members)

/-- An intersection with `nothing` is `nothing`. -/
def intersect (members : List Ty) : Ty :=
  if .nothing ∈ members then .nothing
  else collapse .intersection (flatten .nothing intersectionMembers? members)

end SemCheck.Ty
