import SemCheck.Decidability
import SemCheck.Node.PostOrder
import SemCheck.Node.Scope

/-!
# Checking a compilation unit

`checkUnit` checks the supertypes of all declarations under a node, inner ones first, and then the assignments to each
local declaration that is not reassignable, over its enclosing scope. The diagnostics are attached to the arena at the
end, and only if no declaration was missing from the model; repairs made before that stay.
-/

namespace SemCheck

/-- What a check of a unit leaves behind. -/
structure UnitResult where
  model : Model
  arena : Arena
  outcome : Except ModelError (List Diagnostic)

namespace UnitCheck

variable (a : Arena) (options : Options)

/-- Checks the supertypes at each node in turn; the result has the model as repaired, also after an error. -/
def supertypes : List NodeId → CheckState → Model × Except ModelError (List NodeDiagnostic)
  | [], s => (s.model, .ok s.diagnostics)
  | n :: ns, s =>
    match checkSupertypes a options s.model (some n) with
    | .ok t => supertypes ns { model := t.model, diagnostics := s.diagnostics ++ t.diagnostics }
    | .error e => (s.model, .error e)

/-- Checks the assignments to what a node declares. -/
def assignmentsAt (m : Model) (n : NodeId) : Except ModelError (List NodeDiagnostic) :=
  match a.kind? n >>= NodeKind.declared? with
  | none => .ok []
  | some d => do
    let decl ← m.get d
    if decl.needsAssignmentCheck then
      match a.enclosingScope? d with
      | some scope => return checkAssignment a m d scope
      | none => return []
    else return []

/-- Checks the assignments to the declarations of each node in turn. -/
def assignments (m : Model) : List NodeId → Except ModelError (List NodeDiagnostic)
  | [] => .ok []
  | n :: ns => do
    let first ← assignmentsAt a m n
    let rest ← assignments m ns
    return first ++ rest

end UnitCheck

open UnitCheck in
/-- Checks all that is declared under a node. -/
def checkUnit (a : Arena) (m : Model) (options : Options) (root : Option NodeId) : UnitResult :=
  let order := (root.map a.postOrder).getD []
  let (model, checked) :=
    if options.checkDecidability then supertypes a options order { model := m } else (m, .ok [])
  let outcome : Except ModelError (List NodeDiagnostic) := do
    let first ← checked
    let second ← if options.checkAssignment then assignments a model order else .ok []
    return first ++ second
  match outcome with
  | .error e => { model, arena := a, outcome := .error e }
  | .ok reports =>
    { model
      arena := reports.foldl (fun a (slot, report) => a.addDiagnostic slot report) a
      outcome := .ok (reports.map Prod.snd) }

end SemCheck
