import SemCheck.Text.Blank

/-!
# Names of log formats
-/

namespace SemCheck

inductive LogFormat
  | text
  | tree
  | json
  deriving DecidableEq, Repr

/-- Reads a name without regard to case and to white space around it; any other name means plain text. Lower case of
ASCII is enough here: no other character has a lower-case form made of letters of these names. -/
def LogFormat.ofName (name : String) : LogFormat :=
  let word := (Text.trim name.toList).map Char.toLower
  if word = "tree".toList then .tree
  else if word = "json".toList then .json
  else .text

end SemCheck
