import SemCheck.Diagnostic
import SemCheck.Node.Tree

/-!
# Arenas of syntax nodes

An arena numbers its nodes in the order in which they are added, keeps for each its kind, span and parent, and
indexes the nodes that declare and that refer to a declaration. Adding a node makes it the parent of those of its
parts that exist already. Diagnostics are kept with the node they are reported at, if any.
-/

namespace SemCheck

structure Node where
  kind : NodeKind NodeId
  span : Span
  parent : Option NodeId := none

structure Arena where
  fileName : String
  nodes : Array Node := #[]
  /-- The declaring nodes, the last one first. -/
  declaring : List (DeclId × NodeId) := []
  /-- The reference nodes, in the order in which they were added. -/
  references : Array (DeclId × NodeId) := #[]
  diagnostics : Array (Option NodeId × Diagnostic) := #[]

namespace Arena

/-! ## Looking up -/

def get? (a : Arena) (n : NodeId) : Option Node := a.nodes[n.index]?

def kind? (a : Arena) (n : NodeId) : Option (NodeKind NodeId) := (a.get? n).map Node.kind

/-- The span of a node; the dummy span for one that the arena does not have. -/
def span (a : Arena) (n : NodeId) : Span :=
  match a.get? n with
  | some node => node.span
  | none => .dummy

def parent? (a : Arena) (n : NodeId) : Option NodeId := (a.get? n).bind Node.parent

def children (a : Arena) (n : NodeId) : List NodeId :=
  match a.kind? n with
  | some k => k.children
  | none => []

/-- The last node that declares `d`. -/
def declaringNode? (a : Arena) (d : DeclId) : Option NodeId := a.declaring.lookup d

/-- The reference nodes of `d`, in the order in which they were added. -/
def referencesTo (a : Arena) (d : DeclId) : List NodeId :=
  a.references.toList.filterMap fun (e, n) => if e = d then some n else none

/-- `declarationOf?` through at most `room` specifiers. -/
def declarationWithin? (a : Arena) : (room : Nat) → NodeId → Option DeclId
  | 0, _ => none
  | room + 1, n =>
    match a.kind? n with
    | some (.specifier target _) => target.bind (declarationWithin? a room)
    | some k => k.declaration?
    | none => none

/-- The declaration that a node is about: that of a declaring node or reference, and of a specifier's target. -/
def declarationOf? (a : Arena) (n : NodeId) : Option DeclId := a.declarationWithin? (a.nodes.size + 1) n

/-- `tree` with trees at most `room` deep. -/
def treeWithin (a : Arena) : (room : Nat) → NodeId → Tree
  | 0, n => .missing n
  | room + 1, n =>
    match a.kind? n with
    | some k => .node n (k.map (treeWithin a room))
    | none => .missing n

/-- The tree under a node. No path without repetition is longer than the arena has nodes. -/
def tree (a : Arena) (n : NodeId) : Tree := a.treeWithin a.nodes.size n

/-! ## Adding -/

def setParent (parent : NodeId) (nodes : Array Node) (child : NodeId) : Array Node :=
  nodes.modify child.index fun node => { node with parent := parent }

/-- Adds a node, as the parent of its parts, and to the index that it belongs in. -/
def addNode (a : Arena) (kind : NodeKind NodeId) (span : Span) : NodeId × Arena :=
  let n : NodeId := ⟨a.nodes.size⟩
  let nodes := (kind.children.foldl (setParent n) a.nodes).push { kind, span }
  match kind with
  | .reference d _ => (n, { a with nodes, references := a.references.push (d, n) })
  | _ =>
    match kind.declared? with
    | some d => (n, { a with nodes, declaring := (d, n) :: a.declaring })
    | none => (n, { a with nodes })

/-- Adds a node without source text. -/
def add (a : Arena) (kind : NodeKind NodeId) : NodeId × Arena := a.addNode kind .dummy

def setSpan (a : Arena) (n : NodeId) (span : Span) : Arena :=
  { a with nodes := a.nodes.modify n.index fun node => { node with span } }

/-- Adds `d = value;`, the reference to `d` first. -/
def addSpecifier (a : Arena) (d : DeclId) (value : Option NodeId) : NodeId × Arena :=
  let (target, a) := a.add (.reference d .unqualified)
  a.add (.specifier target value)

def addStaticType (a : Arena) (t : Ty) : NodeId × Arena := a.add (.staticType t)

/-- Adds an alias declaration, its target first. -/
def addAliasDecl (a : Arena) (d : DeclId) (t : Ty) : NodeId × Arena :=
  let (target, a) := a.addStaticType t
  a.add (.aliasDecl d target)

/-- Adds an extends clause, its type first. -/
def addExtendedType (a : Arena) (t : Ty) (arguments : List (Option NodeId)) : NodeId × Arena :=
  let (ty, a) := a.addStaticType t
  a.add (.extendedType ty arguments)

/-- Adds type nodes one after the other. -/
def addStaticTypes (a : Arena) : List Ty → List NodeId × Arena
  | [] => ([], a)
  | t :: ts =>
    let (n, a) := a.addStaticType t
    let (ns, a) := addStaticTypes a ts
    (n :: ns, a)

/-- Adds a satisfies clause, its types first. -/
def addSatisfiedTypes (a : Arena) (ts : List Ty) : NodeId × Arena :=
  let (types, a) := a.addStaticTypes ts
  a.add (.satisfiedTypes (types.map some))

/-! ## Diagnostics -/

def addDiagnostic (a : Arena) (slot : Option NodeId) (d : Diagnostic) : Arena :=
  { a with diagnostics := a.diagnostics.push (slot, d) }

/-- Reports an error over the span of a node. -/
def error (a : Arena) (slot : Option NodeId) (text : String) (code : Nat) : Arena :=
  a.addDiagnostic slot (.errorAt a.fileName (match slot with | some n => a.span n | none => .dummy) text code)

def diagnosticsFor (a : Arena) (slot : Option NodeId) : List Diagnostic :=
  a.diagnostics.toList.filterMap fun (at?, d) => if at? = slot then some d else none

/-- All diagnostics in the order in which they were reported. -/
def allDiagnostics (a : Arena) : List Diagnostic := a.diagnostics.toList.map Prod.snd

end Arena

end SemCheck
