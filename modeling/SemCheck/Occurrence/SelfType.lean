import SemCheck.Guard.Basic
import SemCheck.Model.Basic

/-!
# Self types as type arguments

The self type of a declaration that is being defined may be passed as a type argument only at a parameter that is a
self type itself, or in a covariant position. `illegalSelfTypes` lists the self types passed otherwise.
-/

namespace SemCheck.Model

variable (m : Model) (defining : List DeclId)

/-- The parameter that `t` refers to, if it is a self type whose owner, or which itself, is being defined. -/
def definingSelfType? (t : Ty) : Option DeclId :=
  match t with
  | .param p =>
    match m.get? p >>= Declaration.selfTypeOf with
    | some owner => if owner ∈ defining ∨ p ∈ defining then some p else none
    | none => none
  | _ => none

/-- The self type that `arg` passes illegally to the parameter `param` at a position of polarity `position`. -/
def illegalAt? (param : Declaration) (position : Variance) (arg : Ty) : Option DeclId :=
  if !param.isSelfType && position != .covariant then m.definingSelfType? defining arg else none

mutual

/-- Adds to `found` the self types passed illegally in a type at a position of polarity `polarity`. -/
def scanSelfTypes (polarity : Variance) : Ty → List DeclId → Guard Ty → List DeclId × Guard Ty
  | .applied d args, found, g =>
    match m.get? d with
    | none => (found, g)
    | some decl =>
      match g.scope (.applied d args) (scanSelfTypeArgs polarity decl.typeParameters args found) with
      | (.ok found, g) => (found, g)
      | (.error _, g) => (found, g)
  | .union members, found, g | .intersection members, found, g => scanSelfTypeMembers polarity members found g
  | .param _, found, g | .nothing, found, g | .unknown _, found, g => (found, g)

def scanSelfTypeMembers (polarity : Variance) : List Ty → List DeclId → Guard Ty → List DeclId × Guard Ty
  | [], found, g => (found, g)
  | t :: ts, found, g =>
    let (found, g) := scanSelfTypes polarity t found g
    scanSelfTypeMembers polarity ts found g

/-- Looks at arguments, each at the parameter it is given for; one at an unknown parameter is passed over. -/
def scanSelfTypeArgs (polarity : Variance) :
    List DeclId → List Ty → List DeclId → Guard Ty → List DeclId × Guard Ty
  | p :: ps, arg :: args, found, g =>
    match m.get? p with
    | none => scanSelfTypeArgs polarity ps args found g
    | some param =>
      let position := polarity.compose param.variance
      let found :=
        match m.illegalAt? defining param position arg with
        | some selfType => if selfType ∈ found then found else found ++ [selfType]
        | none => found
      let (found, g) := scanSelfTypes position arg found g
      scanSelfTypeArgs polarity ps args found g
  | [], _, found, g | _, [], found, g => (found, g)

end

/-- The self types passed illegally in `t`, each once, and the guard after the scan. -/
def selfTypeScan (t : Ty) : List DeclId × Guard Ty :=
  m.scanSelfTypes defining .covariant t [] (.ofProfile .typeArgumentScan)

def illegalSelfTypes (t : Ty) : List DeclId := (m.selfTypeScan defining t).1

end SemCheck.Model
