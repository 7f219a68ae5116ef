import SemCheck.Node.Kind

/-!
# Syntax trees

A tree is a node with trees in its slots, or a node that an arena does not have. `fold` computes a value for every node
from its kind with the values of its parts in place; functions on trees are folds, and `fold_node` is their equation.
Proofs go by `Tree.induct`.
-/

namespace SemCheck

inductive Tree
  /-- A node that is only referred to. -/
  | missing (id : NodeId)
  | node (id : NodeId) (kind : NodeKind Tree)

namespace Tree

def id : Tree → NodeId
  | missing id => id
  | node id _ => id

def kind? : Tree → Option (NodeKind Tree)
  | missing _ => none
  | node _ kind => some kind

def children : Tree → List Tree
  | missing _ => []
  | node _ kind => kind.children

/-! ## Folds -/

section

variable {β : Type} (missing : NodeId → β) (node : NodeId → NodeKind (Tree × β) → β)

mutual

/-- The value of a tree, by `missing` for absent nodes and by `node` for present ones, whose parts come each with its
own value. -/
def fold : Tree → β
  | .missing id => missing id
  | .node id kind => node id (foldKind kind)

def foldKind : NodeKind Tree → NodeKind (Tree × β)
  | .block statements => .block (foldList statements)
  | .valueDecl d typeClause initializer => .valueDecl d (foldSlot typeClause) (foldSlot initializer)
  | .functionDecl d parameters body => .functionDecl d (foldList parameters) (foldBody body)
  | .getterDecl d body => .getterDecl d (foldSlot body)
  | .classDecl d parameters extended satisfied body =>
    .classDecl d (foldList parameters) (foldSlot extended) (foldSlot satisfied) (foldSlot body)
  | .interfaceDecl d satisfied body => .interfaceDecl d (foldSlot satisfied) (foldSlot body)
  | .aliasDecl d target => .aliasDecl d (foldSlot target)
  | .typeConstraint d satisfied => .typeConstraint d (foldSlot satisfied)
  | .parameter d default => .parameter d (foldSlot default)
  | .variableDecl d initializer => .variableDecl d (foldSlot initializer)
  | .specifier target value => .specifier (foldSlot target) (foldSlot value)
  | .exprStmt expr => .exprStmt (foldSlot expr)
  | .ifElse condition thenBranch elseBranch =>
    .ifElse (foldSlot condition) (foldSlot thenBranch) (foldSlot elseBranch)
  | .switch subject arms default exhaustive =>
    .switch (foldSlot subject) (foldList arms) (foldSlot default) exhaustive
  | .caseArm pattern body => .caseArm (foldSlot pattern) (foldSlot body)
  | .whileLoop condition body => .whileLoop (foldSlot condition) (foldSlot body)
  | .doWhile body condition => .doWhile (foldSlot body) (foldSlot condition)
  | .forLoop iterator iterable body fail =>
    .forLoop (foldSlot iterator) (foldSlot iterable) (foldSlot body) (foldSlot fail)
  | .tryCatch body catches finalizer => .tryCatch (foldSlot body) (foldList catches) (foldSlot finalizer)
  | .catchClause binding body => .catchClause (foldSlot binding) (foldSlot body)
  | .returnStmt value => .returnStmt (foldSlot value)
  | .throwStmt value => .throwStmt (foldSlot value)
  | .breakStmt => .breakStmt
  | .continueStmt => .continueStmt
  | .reference d qualifier => .reference d (foldQualifier qualifier)
  | .literal => .literal
  | .call callee arguments => .call (foldSlot callee) (foldList arguments)
  | .binary left right => .binary (foldSlot left) (foldSlot right)
  | .lambda parameters body => .lambda (foldList parameters) (foldSlot body)
  | .extendedType ty arguments => .extendedType (foldSlot ty) (foldList arguments)
  | .satisfiedTypes types => .satisfiedTypes (foldList types)
  | .staticType ty => .staticType ty

def foldQualifier : Qualifier Tree → Qualifier (Tree × β)
  | .unqualified => .unqualified
  | .self => .self
  | .expr primary => .expr (foldSlot primary)

def foldBody : FunctionBody Tree → FunctionBody (Tree × β)
  | .block body => .block (foldSlot body)
  | .lazy value => .lazy (foldSlot value)
  | .forward => .forward

def foldList : List (Option Tree) → List (Option (Tree × β))
  | [] => []
  | t :: ts => foldSlot t :: foldList ts

def foldSlot : Option Tree → Option (Tree × β)
  | none => none
  | some t => some (t, fold t)

end

/-- A tree with its value. -/
def folded (t : Tree) : Tree × β := (t, t.fold missing node)

theorem foldSlot_eq (o : Option Tree) : foldSlot missing node o = o.map (folded missing node) := by
  cases o <;> simp [foldSlot, folded]

theorem foldList_eq (ts : List (Option Tree)) :
    foldList missing node ts = ts.map (Option.map (folded missing node)) := by
  induction ts with
  | nil => simp [foldList]
  | cons t ts ih => simp [foldList, ih, foldSlot_eq]

theorem foldKind_eq (k : NodeKind Tree) : foldKind missing node k = k.map (folded missing node) := by
  cases k with
  | functionDecl d parameters body =>
    cases body <;> simp [foldKind, foldBody, NodeKind.map, FunctionBody.map, foldSlot_eq, foldList_eq]
  | reference d qualifier =>
    cases qualifier <;> simp [foldKind, foldQualifier, NodeKind.map, Qualifier.map, foldSlot_eq]
  | _ => simp [foldKind, NodeKind.map, foldSlot_eq, foldList_eq]

@[simp] theorem fold_missing (id : NodeId) : fold missing node (.missing id) = missing id := by
  simp [fold]

/-- **The equation of a fold**: the value of a node comes from its kind with every part paired with its value. -/
theorem fold_node (id : NodeId) (k : NodeKind Tree) :
    fold missing node (.node id k) = node id (k.map (folded missing node)) := by
  rw [fold, foldKind_eq]

end

/-! ## Induction -/

/-- Induction over trees, with the hypothesis for every part of a node. -/
@[elab_as_elim, induction_eliminator]
theorem induct {motive : Tree → Prop} (missing : ∀ id, motive (.missing id))
    (node : ∀ id kind, (∀ t ∈ kind.children, motive t) → motive (.node id kind)) (t : Tree) : motive t := by
  let listOk (os : List (Option Tree)) : Prop := ∀ t, some t ∈ os → motive t
  apply @Tree.rec motive (fun k => listOk k.slots) listOk (fun o => ∀ t, o = some t → motive t)
    (fun b => listOk b.slots) (fun q => listOk q.slots) missing
  case node => exact fun id kind h => node id kind fun t ht => h t (NodeKind.mem_children_iff.1 ht)
  case nil => exact fun _ h => nomatch h
  case cons => exact fun _ _ ho hos t ht => (List.mem_cons.1 ht).elim (fun h => ho t h.symm) (hos t)
  case none => exact fun _ h => nomatch h
  case some => exact fun _ ht t h => Option.some.inj h ▸ ht
  all_goals
    intros
    simp only [listOk, NodeKind.slots, FunctionBody.slots, Qualifier.slots, List.mem_cons, List.mem_append,
      List.not_mem_nil] at *
    grind

end Tree

end SemCheck
