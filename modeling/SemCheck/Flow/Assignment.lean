import SemCheck.Flow.State
import SemCheck.Model.Basic
import SemCheck.Node.Arena

/-!
# Definite assignment

The check of one declaration walks a scope once. Every node is a *pass*: it takes the flow state before the node to
the state after it, with what is wrong inside. Passes are put together by sequence, fork, loop and region, and
`Assignment.step` says which of these a kind of node is:

* a read needs the declaration to be passed and definitely assigned;
* a specifier needs it to be passed, to be outside of loops and nested bodies, and not possibly assigned.
-/

namespace SemCheck

/-- Something wrong at a node. -/
structure Finding where
  node : NodeId
  message : Message
  deriving DecidableEq, Repr

/-- The effect of a node: the state after it, and the findings inside it in order. -/
abbrev Pass := FlowState → FlowState × List Finding

namespace Pass

/-- A pass that changes the state and finds nothing. -/
def change (f : FlowState → FlowState) : Pass := fun s => (f s, [])

def skip : Pass := change id

def report (n : NodeId) (message : Message) : Pass := fun s => (s, [⟨n, message⟩])

def andThen (p q : Pass) : Pass := fun s =>
  let (s, before) := p s
  let (s, after) := q s
  (s, before ++ after)

/-- One pass after the other. -/
def all : List Pass → Pass
  | [] => skip
  | p :: ps => p.andThen (all ps)

/-- Alternatives, each from the state at the start. -/
def fork (arms : List Pass) : Pass := fun s =>
  let outcomes := arms.map (· s)
  (s.join (outcomes.map Prod.fst), outcomes.flatMap Prod.snd)

/-- Parts that may run any number of times, and may not assign. -/
def loop (parts : Pass) : Pass := fun s =>
  let (body, findings) := parts s.withBarrier
  (s.afterLoop body, findings)

/-- A clause that may be cut short. -/
def interruptible (p : Pass) : Pass := fun s =>
  let (t, findings) := p s
  (t.restorePartial s, findings)

/-- A clause of whose declarations nothing is known afterwards. -/
def keepDeclared (p : Pass) : Pass := fun s =>
  let (t, findings) := p s
  ({ t with declared := s.declared }, findings)

/-- A body of its own, which may not assign and out of which nothing leaks. -/
def nested (p : Pass) : Pass := fun s => (s, (p s.withBarrier).2)

end Pass

/-- What is to be known of a part of a node: the declaration that it refers to locally, if any, and its pass. -/
structure Subnode where
  localReference? : Option DeclId
  pass : Pass

namespace Subnode

/-- An absent node. -/
def missing : Subnode := ⟨none, .skip⟩

/-- The pass in a slot; an empty slot does nothing. -/
def slot (o : Option Subnode) : Pass :=
  match o with
  | some p => p.pass
  | none => .skip

def slots (os : List (Option Subnode)) : Pass := .all (os.map slot)

end Subnode

namespace Assignment

open Pass Subnode

variable (target : DeclId)

/-- A read of the watched declaration. -/
def read (n : NodeId) : Pass := fun s =>
  if !s.declared then report n .notYetDeclared s
  else if !s.definite then report n .notDefinitelyAssigned s
  else skip s

/-- What forbids a specifier of the watched declaration in a state. -/
def specifierFault? (s : FlowState) : Option Message :=
  if !s.declared then some .notYetDeclared
  else if s.barrier then some .cannotSpecifyFromHere
  else if s.possible then some .notDefinitelyUnassigned
  else none

/-- Whether the left side of a specifier refers to the watched declaration. -/
def specifies (left : Option Subnode) : Bool :=
  match left >>= Subnode.localReference? with
  | some d => d = target
  | none => false

/-- A specifier; one of the watched declaration that is not allowed is reported and not looked into. -/
def specify (n : NodeId) (left value : Option Subnode) : Pass :=
  if specifies target left then fun s =>
    match specifierFault? s with
    | some message => report n message s
    | none => all [slot value, change .assigned, slot left] s
  else all [slot left, slot value]

/-- Whether the watched declaration has its value on entry to its own body. -/
def assignedInside : NodeKind Subnode → Bool
  | .functionDecl _ _ (.block _) | .getterDecl .. | .classDecl .. | .interfaceDecl .. => true
  | _ => false

/-- Whether the watched declaration gets its value where it stands. -/
def assignedAfter : NodeKind Subnode → Bool
  | .valueDecl _ _ initializer => initializer.isSome
  | .functionDecl _ _ (.lazy _) | .parameter .. | .variableDecl .. => true
  | _ => false

/-- The watched declaration itself. -/
def declare (k : NodeKind Subnode) : Pass := fun s =>
  let before := if assignedInside k then { s with declared := true }.assigned else s
  let findings := (slots k.slots before.withBarrier).2
  (if assignedAfter k then before.passed.assigned else before.passed, findings)

/-- The pass of a node, from the passes of its parts. -/
def step (n : NodeId) (k : NodeKind Subnode) : Pass :=
  match k with
  | .reference _ (.expr primary) => slot primary
  | .reference d _ => if d = target then read n else skip
  | .specifier left value => specify target n left value
  | .returnStmt value | .throwStmt value => (slot value).andThen (change .exit)
  | .breakStmt | .continueStmt => change .exit
  | .ifElse condition thenBranch elseBranch => (slot condition).andThen (fork [slot thenBranch, slot elseBranch])
  | .switch subject arms default exhaustive =>
    let others := if default.isSome || !exhaustive then [slot default] else []
    (slot subject).andThen (fork (arms.map slot ++ others))
  | .whileLoop condition body => loop (slots [condition, body])
  | .doWhile body condition => loop (slots [body, condition])
  | .forLoop iterator iterable body fail =>
    (loop (slots [iterator, iterable, body])).andThen (interruptible (slot fail))
  | .tryCatch body catches finalizer =>
    let guarded := if catches.isEmpty then slot body else all ((body :: catches).map fun o => interruptible (slot o))
    guarded.andThen (keepDeclared (slot finalizer))
  | .lambda .. => nested (slots k.slots)
  | k =>
    match k.declared? with
    | some d => if d = target then declare k else nested (slots k.slots)
    | none => slots k.slots

/-- A node as a subnode of what stands above it, with the nodes under it down to `room` levels. -/
def subnodeWithin (a : Arena) : (room : Nat) → NodeId → Subnode
  | 0, _ => missing
  | room + 1, n =>
    match a.kind? n with
    | some k => ⟨k.localReference?, fun s => step target n (k.map (subnodeWithin a room)) s⟩
    | none => missing

/-- The state after the walk through `scope` from the initial state, and the findings. No path without
repetition is longer than the arena has nodes. -/
def run (a : Arena) (scope : NodeId) : FlowState × List Finding :=
  (subnodeWithin target a a.nodes.size scope).pass .initial

/-! ## Trees -/

/-- A tree as a subnode of what stands above it. -/
def subnode : Tree → Subnode :=
  Tree.fold (fun _ => missing) fun n k => ⟨k.localReference?, step target n (k.map Prod.snd)⟩

theorem subnode_node (n : NodeId) (k : NodeKind Tree) :
    subnode target (.node n k) = ⟨k.localReference?, step target n (k.map (subnode target))⟩ := by
  rw [subnode, Tree.fold_node, NodeKind.localReference?_map, NodeKind.map_map]
  rfl

theorem subnodeWithin_eq (a : Arena) (room : Nat) (n : NodeId) :
    subnodeWithin target a room n = subnode target (a.treeWithin room n) := by
  induction room generalizing n with
  | zero => rfl
  | succ room ih =>
    rw [subnodeWithin, Arena.treeWithin]
    cases a.kind? n with
    | none => rfl
    | some k =>
      have key : subnodeWithin target a room = subnode target ∘ a.treeWithin room := funext ih
      simp only [subnode_node, NodeKind.localReference?_map, NodeKind.map_map, key]

/-- **Walking an arena** is walking the tree under the scope. -/
theorem run_eq (a : Arena) (scope : NodeId) : run target a scope = (subnode target (a.tree scope)).pass .initial := by
  rw [run, subnodeWithin_eq, Arena.tree]

end Assignment

/-! ## Diagnostics -/

/-- A diagnostic at a node. -/
abbrev NodeDiagnostic := Option NodeId × Diagnostic

/-- The diagnostic for a finding about a declaration of that name. -/
def Finding.diagnostic (a : Arena) (name : String) (f : Finding) : NodeDiagnostic :=
  (f.node, .errorAt a.fileName (a.span f.node) (f.message.text [name]) f.message.code)

/-- Checks the assignments to `target` in `scope`. -/
def checkAssignment (a : Arena) (m : Model) (target : DeclId) (scope : NodeId) : List NodeDiagnostic :=
  (Assignment.run target a scope).2.map (Finding.diagnostic a (m.name target))

/-- The flow state at the end of `scope`. -/
def finalState (a : Arena) (target : DeclId) (scope : NodeId) : FlowState := (Assignment.run target a scope).1

end SemCheck
