import SemCheck.Json.Value

/-!
# Options of the checkers

The options and their JSON form: an object whose fields may be missing and come in any order, with fields of other
names passed over, or a list of the fields in order, which may end early. `Options.toJson` writes the object on
indented lines.
-/

namespace SemCheck

structure Options where
  /-- Beginnings of the names of packages whose declarations keep supertypes that fail the checks for recursion with
  arguments and for self types; the diagnostic is reported all the same. -/
  exemptPackages : List String := ["lumen"]
  checkAssignment : Bool := true
  checkDecidability : Bool := true
  deriving DecidableEq, Repr

namespace Options

open Json

/-- The fields, in their order. -/
inductive Field
  | exemptPackages
  | checkAssignment
  | checkDecidability
  deriving DecidableEq, Repr

namespace Field

def all : List Field := [exemptPackages, checkAssignment, checkDecidability]

/-- The key of a field in the JSON form. -/
def key : Field → String
  | exemptPackages => "exemptCorePackages"
  | checkAssignment => "checkDefiniteAssignment"
  | checkDecidability => "checkDecidability"

def ofKey? (key : List Char) : Option Field := all.find? fun f => f.key.toList = key

end Field

/-! ## Writing -/

def boolText (b : Bool) : List Char := if b then "true".toList else "false".toList

/-- A list on lines of its own, within a line indented by two blanks. -/
def listText : List String → List Char
  | [] => ['[', ']']
  | s :: ss =>
    "[\n    ".toList ++ quote s.toList ++ ss.flatMap (fun s => ",\n    ".toList ++ quote s.toList) ++ "\n  ]".toList

/-- The value of a field as it is written. -/
def fieldText (o : Options) : Field → List Char
  | .exemptPackages => listText o.exemptPackages
  | .checkAssignment => boolText o.checkAssignment
  | .checkDecidability => boolText o.checkDecidability

/-- A line of the object: a field's key and its value. -/
def line (o : Options) (f : Field) : List Char := "\n  ".toList ++ quote f.key.toList ++ ": ".toList ++ o.fieldText f

def toJsonChars (o : Options) : List Char :=
  '\x7b' :: (o.line .exemptPackages ++ ',' :: (o.line .checkAssignment ++ ',' :: (o.line .checkDecidability ++
    ['\n', '\x7d'])))

def toJson (o : Options) : String := String.ofList o.toJsonChars

/-! ## Reading -/

/-- The fields read so far. -/
structure Draft where
  exemptPackages : Option (List String) := none
  checkAssignment : Option Bool := none
  checkDecidability : Option Bool := none

namespace Draft

def has (d : Draft) : Field → Bool
  | .exemptPackages => d.exemptPackages.isSome
  | .checkAssignment => d.checkAssignment.isSome
  | .checkDecidability => d.checkDecidability.isSome

/-- Reads the value of a field. -/
def readField (d : Draft) (f : Field) (cs : List Char) : Except Fault (Draft × List Char) :=
  match f with
  | .exemptPackages => (readStrings cs).map fun (names, rest) => ({ d with exemptPackages := names }, rest)
  | .checkAssignment => (readBool cs).map fun (b, rest) => ({ d with checkAssignment := b }, rest)
  | .checkDecidability => (readBool cs).map fun (b, rest) => ({ d with checkDecidability := b }, rest)

/-- Reads a field from its key on, behind the opening quotation mark. The key of a field already read is a fault before
its value is looked at. -/
def readEntry (d : Draft) (cs : List Char) : Except Fault (Draft × List Char) := do
  let (key, cs) ← readText cs
  match Field.ofKey? key with
  | some f =>
    if d.has f then throw .mistyped
    let cs ← skipColon cs
    d.readField f cs
  | none =>
    let cs ← skipColon cs
    let cs ← skipValue cs
    return (d, cs)

/-- Reads the fields of an object, behind the quotation mark of the first. -/
def readEntries : (fuel : Nat) → Draft → List Char → Except Fault (Draft × List Char)
  | 0, _, _ => .error .truncated
  | fuel + 1, d, cs => do
    let (d, cs) ← d.readEntry cs
    match skipBlanks cs with
    | [] => .error .truncated
    | '\x7d' :: cs => .ok (d, cs)
    | ',' :: cs =>
      match skipBlanks cs with
      | [] => .error .truncated
      | '"' :: cs => readEntries fuel d cs
      | _ => .error .malformed
    | _ => .error .malformed

/-- Reads the fields of an object behind its brace. -/
def readObject (cs : List Char) : Except Fault (Draft × List Char) :=
  match skipBlanks cs with
  | [] => .error .truncated
  | '\x7d' :: cs => .ok ({}, cs)
  | '"' :: cs => readEntries (cs.length + 1) {} cs
  | _ => .error .malformed

/-- Reads the fields of a list, behind a field already read. -/
def readMoreElements (d : Draft) (cs : List Char) : List Field → Except Fault (Draft × List Char)
  | [] =>
    match skipBlanks cs with
    | [] => .error .truncated
    | ']' :: cs => .ok (d, cs)
    | _ => .error .malformed
  | f :: fs =>
    match skipBlanks cs with
    | [] => .error .truncated
    | ']' :: cs => .ok (d, cs)
    | ',' :: cs =>
      match skipBlanks cs with
      | [] => .error .truncated
      | ']' :: _ => .error .malformed
      | cs => do
        let (d, cs) ← d.readField f cs
        readMoreElements d cs fs
    | _ => .error .malformed

/-- Reads the fields of a list behind its bracket. -/
def readList (cs : List Char) : Except Fault (Draft × List Char) :=
  match skipBlanks cs with
  | [] => .error .truncated
  | ']' :: cs => .ok ({}, cs)
  | cs => do
    let (d, cs) ← ({} : Draft).readField .exemptPackages cs
    readMoreElements d cs [.checkAssignment, .checkDecidability]

/-- The options, with defaults for what was not read. -/
def options (d : Draft) : Options :=
  { exemptPackages := d.exemptPackages.getD ({} : Options).exemptPackages
    checkAssignment := d.checkAssignment.getD ({} : Options).checkAssignment
    checkDecidability := d.checkDecidability.getD ({} : Options).checkDecidability }

end Draft

def ofJsonChars (cs : List Char) : Except Fault Options := do
  let (d, cs) ←
    match skipBlanks cs with
    | '\x7b' :: cs => Draft.readObject cs
    | '[' :: cs => Draft.readList cs
    | cs => .error (mistypedFault cs)
  if (skipBlanks cs).isEmpty then return d.options else throw .malformed

/-- Reads options, or says what is wrong with the first thing that is. -/
def ofJson (text : String) : Except Fault Options := ofJsonChars text.toList

/-- The message of a text that does not hold options. -/
def faultMessage (_ : Fault) : String := "invalid checker options: "

end Options

end SemCheck
