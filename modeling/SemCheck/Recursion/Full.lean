import SemCheck.Guard.Basic
import SemCheck.Model.Basic
import SemCheck.Ty.Leaves

/-!
# Recursion through types

`fullRecursion` follows the supertypes of a type with its arguments filled in, so it also finds a recursion that
appears only through an alias or a type parameter. Supertypes may grow without end; a walk that the guard stops at one
of its limits counts as recursive.
-/

namespace SemCheck

/-- A full walk under way: its guard, the types followed to the end without a find, the way found, its near end first,
and the pool for the types met. -/
structure FullWalk where
  guard : Guard Ty
  explored : KeySet Ty := .empty
  path : List DeclId := []
  pool : TyPool

namespace Model

variable (m : Model) (defining : List DeclId)

/-- Visits the leaves of a supertype of `leaf`, a type headed by `d`, with the arguments of `leaf` filled in. -/
def fullVisitSupertype (next : Ty → FullWalk → Bool × FullWalk) (leaf : Ty) (d : DeclId) (supertype : Ty)
    (w : FullWalk) : Bool × FullWalk :=
  let (t, pool) := w.pool.substitute (m.argumentMap d leaf.args) supertype
  t.searchLeaves next { w with pool }

/-- Visits an application or parameter reference headed by `d`, going on with `next` at its supertypes. -/
def fullVisitHead (next : Ty → FullWalk → Bool × FullWalk) (leaf : Ty) (d : DeclId) (w : FullWalk) :
    Bool × FullWalk :=
  if d ∈ defining then (true, { w with path := d :: w.path })
  else if w.explored.contains leaf then (false, w)
  else
    match w.guard.enter leaf with
    | (.entered, g) =>
      match firstFound (m.fullVisitSupertype next leaf d) (m.supertypesOf d) { w with guard := g } with
      | (true, w) => (true, { w with guard := w.guard.leave leaf, path := d :: w.path })
      | (false, w) => (false, { w with guard := w.guard.leave leaf, explored := w.explored.insert leaf })
    | (.cycle, g) => (false, { w with guard := g })
    | (_, g) => (true, { w with guard := g, path := d :: w.path })

def fullVisit (next : Ty → FullWalk → Bool × FullWalk) (leaf : Ty) (w : FullWalk) : Bool × FullWalk :=
  match leaf.head? with
  | some d => m.fullVisitHead defining next leaf d w
  | none => (false, w)

/-- Visits leaves inside one another, `room` below the first, which is what the guard allows. -/
def fullWalk : Nat → Ty → FullWalk → Bool × FullWalk
  | 0 => m.fullVisit defining fun _ w => (true, w)
  | room + 1 => m.fullVisit defining (fullWalk room)

/-- The outcome and final state of the walk from `t`. -/
def fullRecursionWalk (t : Ty) : Bool × FullWalk :=
  t.searchLeaves (m.fullWalk defining Limits.supertypeWalkDepth)
    { guard := .ofProfile .supertypeWalk, pool := m.types }

/-- The declarations on a way from `t` back to one in `defining`, which comes first, each once; empty if there is no
such way. If a limit stopped the walk, these are the declarations that it went through. -/
def fullRecursion (t : Ty) : List DeclId := (m.fullRecursionWalk defining t).2.path.reverse.eraseDups

end Model

end SemCheck
