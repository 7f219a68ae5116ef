import SemCheck.Guard.Basic
import SemCheck.Model.Basic
import SemCheck.Ty.Rebuild

/-!
# Expanding aliases

`resolveAliases` puts the target of an alias, with its arguments filled in, wherever the alias is applied, also inside
arguments and members. A guard over the aliases under expansion stops a circular one, which is left as it stands at
the place where it comes up again.
-/

namespace SemCheck.Model

variable (m : Model)

/-- Resolves a type whose parts are resolved; `expand` resolves the target of an alias that the guard lets in. -/
def resolveNode (expand : Ty → Guard DeclId → Ty × Guard DeclId) : Ty → Guard DeclId → Ty × Guard DeclId
  | .applied d args, g =>
    match m.aliasTarget? d with
    | none => (.applied d args, g)
    | some target =>
      match g.scope d fun g => expand (target.substitute (m.argumentMap d args)) g with
      | (.ok resolved, g) => (resolved, g)
      | (.error _, g) => (.applied d args, g)
  | .union members, g => (.unite members, g)
  | .intersection members, g => (.intersect members, g)
  | t, g => (t, g)

/-- Resolves aliases with at most `room` expansions inside one another, which is what the guard allows. -/
def resolveWithin : Nat → Ty → Guard DeclId → Ty × Guard DeclId
  | 0 => Ty.rebuild (m.resolveNode fun t g => (t, g))
  | room + 1 => Ty.rebuild (m.resolveNode (resolveWithin room))

/-- The type with all aliases expanded, and the guard after the walk. -/
def resolveAliasesGuarded (t : Ty) : Ty × Guard DeclId :=
  m.resolveWithin Limits.aliasResolutionDepth t (.ofProfile .aliasResolution)

def resolveAliases (t : Ty) : Ty := (m.resolveAliasesGuarded t).1

end SemCheck.Model
