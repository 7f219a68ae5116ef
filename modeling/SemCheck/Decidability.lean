import SemCheck.Flow.Assignment
import SemCheck.Model.Resolve
import SemCheck.Model.Build
import SemCheck.Model.Render
import SemCheck.Occurrence.SelfType
import SemCheck.Occurrence.Variance
import SemCheck.Options
import SemCheck.Recursion.Full
import SemCheck.Recursion.Raw

/-!
# Decidability of supertypes

`checkSupertypes` checks one node that declares a class, an interface or upper bounds. A supertype that is circular,
passes a self type illegally or makes subtyping undecidable is reported at its clause and taken out of the model; an
extended type gives way to the basic type. The model after the check has only supertypes that were found sound.
-/

namespace SemCheck

/-- One supertype of the checked declaration, as it is written. -/
structure SupertypeClause where
  /-- The extends or satisfies clause. -/
  clause : NodeId
  /-- The type inside the clause. -/
  node : NodeId
  ty : Ty
  isExtended : Bool

namespace Arena

/-- The type of a type node. -/
def staticType? (a : Arena) (n : NodeId) : Option Ty :=
  match a.kind? n with
  | some (.staticType t) => some t
  | _ => none

/-- The types of a satisfies clause that are type nodes. -/
def satisfiedClauses (a : Arena) (slot : Option NodeId) : List SupertypeClause :=
  match slot with
  | none => []
  | some clause =>
    match a.kind? clause with
    | some (.satisfiedTypes types) =>
      (types.filterMap id).filterMap fun node =>
        (a.staticType? node).map fun ty => { clause, node, ty, isExtended := false }
    | _ => []

/-- The type of an extends clause, if it is a type node. -/
def extendedClause (a : Arena) (slot : Option NodeId) : List SupertypeClause :=
  match slot with
  | none => []
  | some clause =>
    match a.kind? clause with
    | some (.extendedType (some node) _) =>
      ((a.staticType? node).map fun ty => { clause, node, ty, isExtended := true }).toList
    | _ => []

/-- The supertypes written in a node: the satisfied types in order, then the extended type. -/
def supertypeClauses (a : Arena) : NodeKind NodeId → List SupertypeClause
  | .classDecl _ _ extended satisfied _ => a.satisfiedClauses satisfied ++ a.extendedClause extended
  | .interfaceDecl _ satisfied _ | .typeConstraint _ satisfied => a.satisfiedClauses satisfied
  | _ => []

/-- The diagnostic for a message over the span of a node. -/
def diagnosticAt (a : Arena) (n : NodeId) (message : Message) (args : List String) : NodeDiagnostic :=
  (n, .errorAt a.fileName (a.span n) (message.text args) message.code)

end Arena

namespace Model

/-- Takes a supertype out of a declaration and notes it as broken. -/
def repair (m : Model) (d : DeclId) (s : SupertypeClause) : Except ModelError Model := do
  let m ← if s.isExtended then m.resetExtended d else Prod.snd <$> m.removeSatisfied d s.ty
  m.addBroken d s.ty

end Model

/-- A check under way: the model as repaired so far, and the diagnostics in order. -/
structure CheckState where
  model : Model
  diagnostics : List NodeDiagnostic := []

namespace Decidability

variable (a : Arena) (d : DeclId)

/-! ## Recursion through declarations -/

/-- Reports and repairs the supertypes that lead back to `d`, and says whether there were any. -/
def rawPass : List SupertypeClause → CheckState → Except ModelError (Bool × CheckState)
  | [], s => .ok (false, s)
  | c :: cs, s =>
    match s.model.rawRecursion [d] c.ty with
    | [] => rawPass cs s
    | path => do
      let report := a.diagnosticAt c.clause .circular [s.model.name d, s.model.nameList path]
      let model ← s.model.repair d c
      let (_, s) ← rawPass cs { model, diagnostics := s.diagnostics ++ [report] }
      return (true, s)

/-! ## Supertype by supertype -/

/-- Recursion that shows only with the type arguments. -/
def recursionReports (m : Model) (c : SupertypeClause) : List NodeDiagnostic :=
  match m.fullRecursion [d] c.ty with
  | [] => []
  | path => [a.diagnosticAt c.node .circularInSupertype [m.name d, m.nameList path, m.typeName c.ty]]

def selfTypeReports (m : Model) (c : SupertypeClause) : List NodeDiagnostic :=
  if (m.illegalSelfTypes [d] c.ty).isEmpty then []
  else [a.diagnosticAt c.node .selfTypeAsArgument [m.typeName c.ty, m.name d]]

/-- One report for each declaration that is applied in a contravariant location, with aliases expanded. -/
def varianceReports (m : Model) (c : SupertypeClause) : List NodeDiagnostic :=
  (m.contravariantOffenders (m.resolve c.ty).1).map fun offender =>
    a.diagnosticAt c.node .contravariantLocation [m.name offender, m.typeName c.ty]

/-- Checks one supertype. An exempt declaration keeps it unless its variance is at fault. -/
def checkClause (exempt : Bool) (s : CheckState) (c : SupertypeClause) : Except ModelError CheckState := do
  let recursion := recursionReports a d s.model c
  let selfTypes := selfTypeReports a d s.model c
  let variance := varianceReports a s.model c
  let broken := !variance.isEmpty || (!exempt && !(recursion ++ selfTypes).isEmpty)
  let model ← if broken then s.model.repair d c else .ok s.model
  return { model, diagnostics := s.diagnostics ++ recursion ++ selfTypes ++ variance }

end Decidability

open Decidability in
/-- Checks the supertypes written in a node. If any leads back through declarations alone, only such are reported. -/
def checkSupertypes (a : Arena) (options : Options) (m : Model) (slot : Option NodeId) :
    Except ModelError CheckState :=
  match slot >>= a.kind? with
  | none => .ok { model := m }
  | some kind =>
    match if kind.isTypeDeclaring then kind.declared? else none with
    | none => .ok { model := m }
    | some d => do
      let clauses := a.supertypeClauses kind
      let (circular, s) ← rawPass a d clauses { model := m }
      if circular then return s
      clauses.foldlM (checkClause a d (m.isInPackages d options.exemptPackages)) s

end SemCheck
