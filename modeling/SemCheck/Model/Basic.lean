import SemCheck.Declaration
import SemCheck.Ty.Pool

/-!
# Models

A model holds the packages and declarations of a program, among them a core package with the root class and the basic
class. Types are built over the declarations of a model, which says what a declaration's own type, its supertypes and
its parameters are. Misuse by the caller is a `ModelError`.
-/

namespace SemCheck

/-- A request that the model cannot meet. -/
inductive ModelError
  | unknownDeclaration (d : DeclId)
  | arityMismatch (name : String) (expected found : Nat)
  | notGeneric (name : String)
  | notATypeParameter (name : String)
  | noSupertypes (name : String)
  deriving DecidableEq, Repr

def ModelError.message : ModelError → String
  | unknownDeclaration d => "unknown declaration DeclId(" ++ toString d.index ++ ")"
  | arityMismatch name expected found =>
    name ++ " does not accept " ++ toString found ++ " type arguments (expected " ++ toString expected ++ ")"
  | notGeneric name => name ++ " cannot be applied to type arguments"
  | notATypeParameter name => name ++ " is not a type parameter"
  | noSupertypes name => name ++ " cannot have supertypes"

structure Model where
  packages : Array Package
  declarations : Array Declaration
  core : PackageId
  /-- The root of the class hierarchy. -/
  anything : DeclId
  /-- The class whose type stands in for an unsound extended type. -/
  basic : DeclId
  /-- The types kept. -/
  types : TyPool := {}

namespace Model

/-- The name of the root class. -/
def anythingName : String := "Anything"

/-- The name of the basic class. -/
def basicName : String := "Basic"

/-- A model with the root class and the basic class, which extends it, in the core package. -/
def new (core : String) : Model where
  packages := #[⟨core⟩]
  declarations := #[
    { name := anythingName, kind := .classDecl, package := ⟨0⟩, flags := { toplevel := true } },
    { name := basicName, kind := .classDecl, package := ⟨0⟩, flags := { toplevel := true },
      extended := some (.applied ⟨0⟩ []) }]
  core := ⟨0⟩
  anything := ⟨0⟩
  basic := ⟨1⟩

/-! ## Looking up -/

def get? (m : Model) (d : DeclId) : Option Declaration := m.declarations[d.index]?

def get (m : Model) (d : DeclId) : Except ModelError Declaration :=
  match m.get? d with
  | some decl => .ok decl
  | none => .error (.unknownDeclaration d)

/-- The name of a declaration, also for an identity that the model does not know. -/
def name (m : Model) (d : DeclId) : String :=
  match m.get? d with
  | some decl => decl.name
  | none => "<unknown>"

def package? (m : Model) (p : PackageId) : Option Package := m.packages[p.index]?

/-- Whether the declaration's package has a name that starts with one of `starts`. -/
def isInPackages (m : Model) (d : DeclId) (starts : List String) : Bool :=
  match m.get? d >>= fun decl => m.package? decl.package with
  | some package => starts.any fun start => start.toList.isPrefixOf package.name.toList
  | none => false

/-- The type parameters of a declaration; none for an unknown one. -/
def typeParametersOf (m : Model) (d : DeclId) : List DeclId :=
  match m.get? d with
  | some decl => decl.typeParameters
  | none => []

/-- The target of a declaration that is an alias with one. -/
def aliasTarget? (m : Model) (d : DeclId) : Option Ty :=
  match m.get? d with
  | some decl => if decl.kind = .typeAlias then decl.aliasTarget else none
  | none => none

/-- The target of an alias; of any other declaration the extended type, then the satisfied types. -/
def supertypesOf (m : Model) (d : DeclId) : List Ty :=
  match m.get? d with
  | some decl => if decl.kind = .typeAlias then decl.aliasTarget.toList else decl.supertypes
  | none => []

/-- The type parameters of `d` with the arguments at their places. -/
def argumentMap (m : Model) (d : DeclId) (args : List Ty) : Substitution := (m.typeParametersOf d).zip args

/-! ## Making types -/

/-- Applies a class, interface or alias to as many arguments as it has parameters. -/
def apply (m : Model) (d : DeclId) (args : List Ty) : Except ModelError Ty := do
  let decl ← m.get d
  if !decl.kind.isGeneric then throw (.notGeneric decl.name)
  if decl.typeParameters.length ≠ args.length then
    throw (.arityMismatch decl.name decl.typeParameters.length args.length)
  return .applied d args

/-- The reference to a type parameter. -/
def paramType (m : Model) (d : DeclId) : Except ModelError Ty := do
  let decl ← m.get d
  if decl.kind ≠ .typeParameter then throw (.notATypeParameter decl.name)
  return .param d

/-- A declaration's own type: a type parameter by reference, any other applied to its own parameters. -/
def typeOf (m : Model) (d : DeclId) : Ty :=
  match m.get? d with
  | some decl =>
    if decl.kind = .typeParameter then .param d else .applied d (decl.typeParameters.map Ty.param)
  | none => .nothing

def basicType (m : Model) : Ty := m.typeOf m.basic

/-- Keeps a type, so that it is one object with all equal types kept later. -/
def keep (m : Model) (t : Ty) : Ty × Model :=
  let (t, types) := m.types.share t
  (t, { m with types })

/-- `t` with its parameters replaced, kept. -/
def substitute (m : Model) (s : Substitution) (t : Ty) : Ty × Model :=
  let (t, types) := m.types.substitute s t
  (t, { m with types })

end Model

end SemCheck
