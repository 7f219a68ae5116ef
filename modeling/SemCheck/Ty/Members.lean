import SemCheck.KeyStack

/-!
# Members of unions and intersections

Both normalise their members alike: members of their own kind are opened, the bottom type is dropped, and of equal
members the first stays. The order of the rest is kept (`flatten`).
-/

namespace SemCheck

variable {α : Type} [Keyed α] [DecidableEq α]

/-- What one member contributes: the members of an opened one, nothing for `bottom`, else itself. -/
def contribution (bottom : α) (inner? : α → Option (List α)) (m : α) : List α :=
  match inner? m with
  | some inner => inner
  | none => if m = bottom then [] else [m]

/-- The contributions of all members in order, each value at its first place only. -/
def flatten (bottom : α) (inner? : α → Option (List α)) (members : List α) : List α :=
  distinct (members.flatMap (contribution bottom inner?))

end SemCheck
