import SemCheck.Ty.Basic
import SemCheck.Variance

/-!
# Declarations

A declaration is a named entity: a value, function or getter, a class, interface or alias, or a type parameter. What
makes sense only for some kinds stays empty for the others; a type parameter keeps its upper bounds among its
satisfied types.
-/

namespace SemCheck

structure PackageId where
  index : Nat
  deriving DecidableEq, Repr

/-- A package, by its qualified name. -/
structure Package where
  name : String
  deriving DecidableEq, Repr

inductive DeclKind
  | value
  | function
  | getter
  | classDecl
  | interfaceDecl
  | typeAlias
  | typeParameter
  deriving DecidableEq, Repr

namespace DeclKind

/-- Whether the kind introduces a type. -/
def isTypeDeclaration : DeclKind → Bool
  | classDecl | interfaceDecl | typeAlias | typeParameter => true
  | _ => false

/-- Whether the kind can be applied to type arguments. -/
def isGeneric : DeclKind → Bool
  | classDecl | interfaceDecl | typeAlias => true
  | _ => false

/-- Whether the kind has satisfied types; for a type parameter they are its upper bounds. -/
def hasSatisfied : DeclKind → Bool
  | classDecl | interfaceDecl | typeParameter => true
  | _ => false

end DeclKind

/-- How and where a declaration is bound. -/
structure DeclFlags where
  /-- Declared directly in a package. -/
  toplevel : Bool := false
  /-- Declared in the body of a class or interface. -/
  member : Bool := false
  /-- A parameter of a function or class. -/
  parameter : Bool := false
  /-- May be assigned again. -/
  reassignable : Bool := false
  deriving DecidableEq, Repr

structure Declaration where
  name : String
  kind : DeclKind
  package : PackageId
  flags : DeclFlags := {}
  container : Option DeclId := none
  typeParameters : List DeclId := []
  extended : Option Ty := none
  satisfied : List Ty := []
  /-- Supertypes taken out of the hierarchy as unsound. -/
  broken : List Ty := []
  aliasTarget : Option Ty := none
  variance : Variance := .invariant
  /-- The declaration whose self type this parameter is. -/
  selfTypeOf : Option DeclId := none
  deriving DecidableEq

namespace Declaration

def isSelfType (d : Declaration) : Bool := d.selfTypeOf.isSome

/-- Whether assignments to the declaration are to be watched: a local, not reassignable, that is no parameter. -/
def needsAssignmentCheck (d : Declaration) : Bool :=
  !d.flags.toplevel && !d.flags.member && !d.flags.parameter && !d.flags.reassignable &&
    d.kind != .typeAlias && d.kind != .typeParameter

/-- The extended type, then the satisfied types in order. -/
def supertypes (d : Declaration) : List Ty := d.extended.toList ++ d.satisfied

end Declaration

end SemCheck
