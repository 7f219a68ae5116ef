import SemCheck.Json.Number

/-!
# JSON values

Readers for the values that a caller wants (`readBool`, `readString`, `readStrings`) and `skipValue` for any value at
all. Readers take the text in front of the value and return what follows it.
-/

namespace SemCheck.Json

def isBlank (c : Char) : Bool := c == ' ' || c == '\n' || c == '\t' || c == '\r'

def skipBlanks (cs : List Char) : List Char := cs.dropWhile isBlank

/-- Passes over the rest of a word. -/
def skipWord : (word : List Char) → List Char → Except Fault (List Char)
  | [], cs => .ok cs
  | _ :: _, [] => .error .truncated
  | w :: ws, c :: cs => if c = w then skipWord ws cs else .error .malformed

/-- The fault of a check that only ends in a fault of its own. -/
def faultOf {α : Type} : Except Fault α → Fault
  | .ok _ => .mistyped
  | .error fault => fault

/-- Why the value in front of a text is not the wanted one: it is malformed, or else of another shape. Of a list or
object only the bracket is looked at. -/
def mistypedFault : List Char → Fault
  | [] => .truncated
  | 'n' :: cs => faultOf (skipWord ['u', 'l', 'l'] cs)
  | 't' :: cs => faultOf (skipWord ['r', 'u', 'e'] cs)
  | 'f' :: cs => faultOf (skipWord ['a', 'l', 's', 'e'] cs)
  | '-' :: cs => faultOf (checkNumber cs)
  | '"' :: cs => faultOf (readText cs)
  | '[' :: _ => .mistyped
  | '\x7b' :: _ => .mistyped
  | cs => if startsWithDigit cs then faultOf (checkNumber cs) else .malformed

/-! ## Wanted values -/

def readBool (cs : List Char) : Except Fault (Bool × List Char) :=
  match skipBlanks cs with
  | 't' :: cs => (skipWord ['r', 'u', 'e'] cs).map (true, ·)
  | 'f' :: cs => (skipWord ['a', 'l', 's', 'e'] cs).map (false, ·)
  | cs => .error (mistypedFault cs)

def readString (cs : List Char) : Except Fault (String × List Char) :=
  match skipBlanks cs with
  | '"' :: cs => (readText cs).map fun (text, rest) => (String.ofList text, rest)
  | cs => .error (mistypedFault cs)

/-- Reads the strings of a list behind its first one. -/
def readMoreStrings : (fuel : Nat) → List Char → Except Fault (List String × List Char)
  | 0, _ => .error .truncated
  | fuel + 1, cs =>
    match skipBlanks cs with
    | [] => .error .truncated
    | ']' :: rest => .ok ([], rest)
    | ',' :: rest =>
      match skipBlanks rest with
      | [] => .error .truncated
      | ']' :: _ => .error .malformed
      | cs => do
        let (s, cs) ← readString cs
        let (ss, cs) ← readMoreStrings fuel cs
        return (s :: ss, cs)
    | _ => .error .malformed

/-- Reads a list of strings. -/
def readStrings (cs : List Char) : Except Fault (List String × List Char) :=
  match skipBlanks cs with
  | '[' :: cs =>
    match skipBlanks cs with
    | [] => .error .truncated
    | ']' :: rest => .ok ([], rest)
    | cs => do
      let (s, rest) ← readString cs
      let (ss, rest) ← readMoreStrings rest.length.succ rest
      return (s :: ss, rest)
  | cs => .error (mistypedFault cs)

/-- Passes over the colon behind a key. -/
def skipColon (cs : List Char) : Except Fault (List Char) :=
  match skipBlanks cs with
  | [] => .error .truncated
  | ':' :: rest => .ok rest
  | _ => .error .malformed

/-! ## Any value -/

/-- What a value under way is part of. -/
inductive Enclosure
  | list
  | object

/-- Passes over a key and its colon. -/
def skipKey (cs : List Char) : Except Fault (List Char) :=
  match skipBlanks cs with
  | [] => .error .truncated
  | '"' :: cs => skipText cs >>= skipColon
  | _ => .error .malformed

/-- Passes over a value that is no list or object. -/
def skipScalar : List Char → Except Fault (List Char)
  | 'n' :: cs => skipWord ['u', 'l', 'l'] cs
  | 't' :: cs => skipWord ['r', 'u', 'e'] cs
  | 'f' :: cs => skipWord ['a', 'l', 's', 'e'] cs
  | '-' :: cs => skipNumber cs
  | '"' :: cs => skipText cs
  | cs => if startsWithDigit cs then skipNumber cs else .error .malformed

mutual

/-- Passes over a value and all that encloses it, `around` innermost first. -/
def skipInside : (fuel : Nat) → (around : List Enclosure) → List Char → Except Fault (List Char)
  | 0, _, _ => .error .truncated
  | fuel + 1, around, cs =>
    match skipBlanks cs with
    | [] => .error .truncated
    | '[' :: cs =>
      match skipBlanks cs with
      | [] => .error .truncated
      | ']' :: cs => skipBehind fuel around cs
      | cs => skipInside fuel (.list :: around) cs
    | '\x7b' :: cs =>
      match skipBlanks cs with
      | [] => .error .truncated
      | '\x7d' :: cs => skipBehind fuel around cs
      | cs => skipKey cs >>= skipInside fuel (.object :: around)
    | cs => skipScalar cs >>= skipBehind fuel around

/-- Goes on behind a value. -/
def skipBehind : (fuel : Nat) → (around : List Enclosure) → List Char → Except Fault (List Char)
  | 0, _, _ => .error .truncated
  | _, [], cs => .ok cs
  | fuel + 1, .list :: around, cs =>
    match skipBlanks cs with
    | [] => .error .truncated
    | ',' :: cs => skipInside fuel (.list :: around) cs
    | ']' :: cs => skipBehind fuel around cs
    | _ => .error .malformed
  | fuel + 1, .object :: around, cs =>
    match skipBlanks cs with
    | [] => .error .truncated
    | ',' :: cs => skipKey cs >>= skipInside fuel (.object :: around)
    | '\x7d' :: cs => skipBehind fuel around cs
    | _ => .error .malformed

end

/-- Passes over a value. Every step takes a character, except the last one behind the whole value. -/
def skipValue (cs : List Char) : Except Fault (List Char) := skipInside (cs.length + 2) [] cs

end SemCheck.Json
