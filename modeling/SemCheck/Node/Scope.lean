import SemCheck.Node.Arena

/-!
# Scopes

The ancestors of a node are found by its parent links. The scope of a declaration is the smallest block around its
declaring node and all references to it.
-/

namespace SemCheck.Arena

/-- The first `room` nodes on the way up from, and with, `next`. -/
def climb (a : Arena) : (room : Nat) → (next : Option NodeId) → List NodeId
  | 0, _ => []
  | _, none => []
  | room + 1, some n => n :: climb a room (a.parent? n)

/-- The nodes above `n`, its parent first. -/
def ancestors (a : Arena) (n : NodeId) : List NodeId := a.climb a.nodes.size (a.parent? n)

def isAncestor (a : Arena) (above n : NodeId) : Bool := (a.ancestors n).contains above

def isBlock (a : Arena) (n : NodeId) : Bool :=
  match a.kind? n with
  | some (.block _) => true
  | _ => false

/-- The innermost block above the declaring node of `d` that is above every reference to `d` too. If there is none it
is the outermost node above the declaring node, or that node itself. -/
def enclosingScope? (a : Arena) (d : DeclId) : Option NodeId :=
  match a.declaringNode? d with
  | none => none
  | some n =>
    let references := a.referencesTo d
    let covers block := a.isBlock block && references.all (a.isAncestor block)
    match (a.ancestors n).find? covers with
    | some block => some block
    | none => some ((a.ancestors n).getLastD n)

end SemCheck.Arena
