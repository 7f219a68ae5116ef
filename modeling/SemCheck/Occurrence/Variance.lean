import SemCheck.Guard.Basic
import SemCheck.Model.Basic

/-!
# Contravariant parameters in contravariant positions

Whether one type is a subtype of another may be undecidable if a supertype nests a type with a contravariant
parameter in a contravariant position of another, as in `Comparable<Comparable<T>>` with `Comparable<in Other>`.
`contravariantOffenders` lists the declarations that are nested so.
-/

namespace SemCheck.Model

variable (m : Model)

/-- The declared variance of a type parameter; invariant if it is unknown. -/
def varianceOf (p : DeclId) : Variance :=
  match m.get? p with
  | some decl => decl.variance
  | none => .invariant

mutual

/-- Adds to `found` the declarations of offending applications in a type at a position of polarity `polarity`. -/
def scanVariance (polarity : Variance) : Ty → List DeclId → Guard Ty → List DeclId × Guard Ty
  | .applied d args, found, g =>
    match m.get? d with
    | none => (found, g)
    | some decl =>
      match g.scope (.applied d args) (scanVarianceArgs polarity d decl.typeParameters args found) with
      | (.ok found, g) => (found, g)
      | (.error _, g) => (found, g)
  | .union members, found, g | .intersection members, found, g => scanVarianceMembers polarity members found g
  | .param _, found, g | .nothing, found, g | .unknown _, found, g => (found, g)

def scanVarianceMembers (polarity : Variance) : List Ty → List DeclId → Guard Ty → List DeclId × Guard Ty
  | [], found, g => (found, g)
  | t :: ts, found, g =>
    let (found, g) := scanVariance polarity t found g
    scanVarianceMembers polarity ts found g

/-- Looks at the arguments of an application of `d`, each at the parameter it is given for. An offending argument is
not looked into. -/
def scanVarianceArgs (polarity : Variance) (d : DeclId) :
    List DeclId → List Ty → List DeclId → Guard Ty → List DeclId × Guard Ty
  | p :: ps, arg :: args, found, g =>
    let variance := m.varianceOf p
    if polarity = .contravariant ∧ variance = .contravariant then
      scanVarianceArgs polarity d ps args (if d ∈ found then found else found ++ [d]) g
    else
      let (found, g) := scanVariance (polarity.compose variance) arg found g
      scanVarianceArgs polarity d ps args found g
  | [], _, found, g | _, [], found, g => (found, g)

end

/-- The offending declarations of `t`, each once, and the guard after the scan. -/
def contravariantScan (t : Ty) : List DeclId × Guard Ty :=
  m.scanVariance .covariant t [] (.ofProfile .typeArgumentScan)

/-- The declarations that are applied, inside `t`, in a contravariant position and have a contravariant parameter. -/
def contravariantOffenders (t : Ty) : List DeclId := (m.contravariantScan t).1

end SemCheck.Model
