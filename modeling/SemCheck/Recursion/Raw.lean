import SemCheck.Model.Basic
import SemCheck.Ty.Leaves

/-!
# Recursion through declarations

The raw supertype graph leads from a declaration to the declarations that head its supertypes; type arguments play no
role. `rawRecursion` looks for a way from a type back into the declarations that are being defined.
-/

namespace SemCheck

/-- A raw walk under way: the declarations expanded so far, and the way found, its near end first. -/
structure RawWalk where
  visited : KeySet DeclId := .empty
  path : List DeclId := []

namespace Model

variable (m : Model) (defining : List DeclId)

/-- Visits the declarations that head a type. -/
def visitHeads (visit : DeclId → RawWalk → Bool × RawWalk) (t : Ty) (w : RawWalk) : Bool × RawWalk :=
  firstFound visit t.heads w

/-- Visits a declaration, going on with `next` behind its supertypes. -/
def rawVisit (next : DeclId → RawWalk → Bool × RawWalk) (d : DeclId) (w : RawWalk) : Bool × RawWalk :=
  if d ∈ defining then (true, { w with path := d :: w.path })
  else if w.visited.contains d then (false, w)
  else
    match firstFound (visitHeads next) (m.supertypesOf d) { w with visited := w.visited.insert d } with
    | (true, w) => (true, { w with path := d :: w.path })
    | (false, w) => (false, w)

/-- Visits declarations inside one another, `room` below the first. -/
def rawWalk : Nat → DeclId → RawWalk → Bool × RawWalk
  | 0 => m.rawVisit defining fun _ w => (false, w)
  | room + 1 => m.rawVisit defining (rawWalk room)

/-- A way from `t` back to a declaration in `defining`, which comes first; empty if there is none. As no declaration is
expanded twice, a walk is at most as deep as the model has declarations. -/
def rawRecursion (t : Ty) : List DeclId :=
  (visitHeads (m.rawWalk defining m.declarations.size) t {}).2.path.reverse

/-- The declarations that head the supertypes of a declaration, supertype by supertype. -/
def rawSuccessors (d : DeclId) : List DeclId := (m.supertypesOf d).flatMap Ty.heads

/-- The visits behind the supertypes are visits to the raw successors. -/
theorem firstFound_visitHeads (visit : DeclId → RawWalk → Bool × RawWalk) (d : DeclId) (w : RawWalk) :
    firstFound (visitHeads visit) (m.supertypesOf d) w = firstFound visit (m.rawSuccessors d) w :=
  (firstFound_flatMap visit Ty.heads (m.supertypesOf d) w).symm

end Model

end SemCheck
