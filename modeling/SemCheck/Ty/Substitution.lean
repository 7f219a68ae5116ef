import SemCheck.Ty.Normal

/-!
# Substitution of type parameters

A substitution pairs type parameters with types; of two pairs for one parameter the later counts. Unions and
intersections are brought to normal form again on the way, except that the empty substitution leaves every type as
it is.
-/

namespace SemCheck

/-- The types that parameters stand for. -/
abbrev Substitution := List (DeclId × Ty)

def Substitution.get? : Substitution → DeclId → Option Ty
  | [], _ => none
  | (q, t) :: rest, p => (get? rest p).or (if q = p then some t else none)

namespace Ty

mutual

/-- Replaces the parameters that `s` knows. -/
def replaceParams (s : Substitution) : Ty → Ty
  | .nothing => .nothing
  | .unknown n => .unknown n
  | .param p => (s.get? p).getD (.param p)
  | .applied d args => .applied d (replaceParamsOf s args)
  | .union members => unite (replaceParamsOf s members)
  | .intersection members => intersect (replaceParamsOf s members)

def replaceParamsOf (s : Substitution) : List Ty → List Ty
  | [] => []
  | t :: ts => replaceParams s t :: replaceParamsOf s ts

end

theorem replaceParamsOf_eq (s : Substitution) (ts : List Ty) : replaceParamsOf s ts = ts.map (replaceParams s) := by
  induction ts with
  | nil => rfl
  | cons t ts ih => rw [replaceParamsOf, List.map_cons, ih]

def substitute (s : Substitution) (t : Ty) : Ty := if s.isEmpty then t else t.replaceParams s

end Ty

end SemCheck
