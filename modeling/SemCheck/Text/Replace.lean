/-!
# Replacing parts of a text

`replace` writes a text for every occurrence of a pattern; `fill` does so for the placeholders `0`, `1`, … in braces,
one argument after the other, each over the whole text that the arguments before it have left.
-/

namespace SemCheck.Text

/-- `replace` with the first `skip` characters still belonging to an occurrence already written. -/
def replaceFrom (pat new : List Char) : Nat → List Char → List Char
  | _, [] => []
  | skip + 1, _ :: rest => replaceFrom pat new skip rest
  | 0, c :: rest =>
    if pat.isPrefixOf (c :: rest) then new ++ replaceFrom pat new (pat.length - 1) rest
    else c :: replaceFrom pat new 0 rest

/-- Writes `new` for each occurrence of the non-empty `pat`, from left to right and without overlap. -/
def replace (pat new text : List Char) : List Char := replaceFrom pat new 0 text

/-- The placeholder of argument `i`: its decimal number in braces. -/
def placeholder (i : Nat) : List Char := '\x7b' :: (Nat.toDigits 10 i ++ ['\x7d'])

/-- Fills in the arguments whose numbers start at `i`. -/
def fillFrom : Nat → List (List Char) → List Char → List Char
  | _, [], text => text
  | i, arg :: args, text => fillFrom (i + 1) args (replace (placeholder i) arg text)

def fill (template : String) (args : List String) : String :=
  String.ofList (fillFrom 0 (args.map String.toList) template.toList)

end SemCheck.Text
