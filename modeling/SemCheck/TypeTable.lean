import SemCheck.Ty.Basic
import SemCheck.Ty.Members

/-!
# The table of interned types

A type is kept once, as a shape over the handles of its parts; its handle is the place of the shape in the table.
Entry 0 is the bottom type. Unions and intersections come from `union` and `intersection`, which flatten their
members first, or are interned as given.
-/

namespace SemCheck

/-- The place of a type in a table. -/
structure TypeId where
  index : Nat
  deriving DecidableEq, Repr

instance : Keyed TypeId := ⟨TypeId.index⟩

namespace TypeId

/-- The bottom type, the first entry of every table. -/
def nothing : TypeId := ⟨0⟩

end TypeId

/-- A type whose parts are given by their handles. -/
inductive Shape
  | nothing
  | applied (decl : DeclId) (args : List TypeId)
  | param (decl : DeclId)
  | union (members : List TypeId)
  | intersection (members : List TypeId)
  deriving DecidableEq, Repr

namespace Shape

/-- The declaration that heads an application or a parameter reference. -/
def head? : Shape → Option DeclId
  | applied d _ | param d => some d
  | _ => none

def unionMembers? : Shape → Option (List TypeId)
  | union members => some members
  | _ => none

def intersectionMembers? : Shape → Option (List TypeId)
  | intersection members => some members
  | _ => none

end Shape

/-- The shapes issued so far, in the order of their handles. -/
structure TypeTable where
  shapes : Array Shape

namespace TypeTable

def new : TypeTable := ⟨#[.nothing]⟩

def size (table : TypeTable) : Nat := table.shapes.size

def isEmpty (table : TypeTable) : Bool := table.shapes.isEmpty

def lookup (table : TypeTable) (t : TypeId) : Option Shape := table.shapes[t.index]?

/-- The handle of a shape, which is issued anew only if the table does not have it. -/
def intern (table : TypeTable) (shape : Shape) : TypeId × TypeTable :=
  match table.shapes.idxOf? shape with
  | some i => (⟨i⟩, table)
  | none => (⟨table.size⟩, ⟨table.shapes.push shape⟩)

/-- Interns what is left of flattened members: no members are `nothing`, a single one stands for itself. -/
def collapse (table : TypeTable) (wrap : List TypeId → Shape) : List TypeId → TypeId × TypeTable
  | [] => (.nothing, table)
  | [t] => (t, table)
  | ts => table.intern (wrap ts)

def union (table : TypeTable) (members : List TypeId) : TypeId × TypeTable :=
  table.collapse .union (flatten .nothing (fun t => table.lookup t >>= Shape.unionMembers?) members)

/-- An intersection with `nothing` is `nothing`. -/
def intersection (table : TypeTable) (members : List TypeId) : TypeId × TypeTable :=
  if .nothing ∈ members then (.nothing, table)
  else table.collapse .intersection (flatten .nothing (fun t => table.lookup t >>= Shape.intersectionMembers?) members)

end TypeTable

end SemCheck
