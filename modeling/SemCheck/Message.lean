import SemCheck.Text.Replace

/-!
# The messages of the checkers

Codes 3001 to 3004 belong to definite assignment and codes 3101 to 3104 to the decidability of supertypes. Every
message of the table is an error.
-/

namespace SemCheck

inductive Category
  | warning
  | error
  | suggestion
  | message
  deriving DecidableEq, Repr

/-- What a checker can find wrong. -/
inductive Message
  | notYetDeclared
  | notDefinitelyAssigned
  | cannotSpecifyFromHere
  | notDefinitelyUnassigned
  | circular
  | circularInSupertype
  | selfTypeAsArgument
  | contravariantLocation
  deriving DecidableEq, Repr

namespace Message

/-- The table, in the order of the codes. -/
def all : List Message :=
  [notYetDeclared, notDefinitelyAssigned, cannotSpecifyFromHere, notDefinitelyUnassigned, circular,
    circularInSupertype, selfTypeAsArgument, contravariantLocation]

def code : Message → Nat
  | notYetDeclared => 3001
  | notDefinitelyAssigned => 3002
  | cannotSpecifyFromHere => 3003
  | notDefinitelyUnassigned => 3004
  | circular => 3101
  | circularInSupertype => 3102
  | selfTypeAsArgument => 3103
  | contravariantLocation => 3104

def category (_ : Message) : Category := .error

/-- The wording, with numbered placeholders in braces. -/
def template : Message → String
  | notYetDeclared => "not yet declared: \x7b0\x7d"
  | notDefinitelyAssigned => "not definitely assigned: \x7b0\x7d"
  | cannotSpecifyFromHere => "cannot specify value from here: \x7b0\x7d"
  | notDefinitelyUnassigned => "not definitely unassigned: \x7b0\x7d"
  | circular => "inheritance is circular: definition of \x7b0\x7d is recursive, involving \x7b1\x7d"
  | circularInSupertype =>
    "inheritance is circular: definition of \x7b0\x7d is recursive, involving \x7b1\x7d in supertype \x7b2\x7d"
  | selfTypeAsArgument => "self type appears as argument in supertype \x7b0\x7d of \x7b1\x7d"
  | contravariantLocation =>
    "type with contravariant type parameter \x7b0\x7d appears in contravariant location in supertype: \x7b1\x7d"

def text (m : Message) (args : List String) : String := Text.fill m.template args

def ofCode? (code : Nat) : Option Message := all.find? (·.code == code)

theorem mem_all (m : Message) : m ∈ all := by cases m <;> decide

theorem ofCode?_code (m : Message) : ofCode? m.code = some m := by cases m <;> decide

end Message

end SemCheck
