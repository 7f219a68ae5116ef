import SemCheck.Ty.Basic

/-!
# Kinds of syntax nodes

`NodeKind γ` says what a node is and holds its parts, of type `γ`, in named slots. A slot may be empty; an empty entry
of a list of parts still has its place in the list. Main statement: `map` acts slot by slot (`slots_map`).
-/

namespace SemCheck

/-- The identity of a node within an arena. -/
structure NodeId where
  index : Nat
  deriving DecidableEq, Repr

/-- How a reference names its declaration. -/
inductive Qualifier (γ : Type)
  /-- By its name alone, `x`. -/
  | unqualified
  /-- On the current instance, `this.x`. -/
  | self
  /-- Through another value, `e.x`. -/
  | expr (primary : Option γ)

inductive FunctionBody (γ : Type)
  | block (body : Option γ)
  /-- A single expression, `=> e`. -/
  | lazy (value : Option γ)
  /-- None yet; a later specifier gives one. -/
  | forward

inductive NodeKind (γ : Type)
  | block (statements : List (Option γ))
  -- declarations
  | valueDecl (decl : DeclId) (typeClause initializer : Option γ)
  | functionDecl (decl : DeclId) (parameters : List (Option γ)) (body : FunctionBody γ)
  | getterDecl (decl : DeclId) (body : Option γ)
  | classDecl (decl : DeclId) (parameters : List (Option γ)) (extended satisfied body : Option γ)
  | interfaceDecl (decl : DeclId) (satisfied body : Option γ)
  | aliasDecl (decl : DeclId) (target : Option γ)
  /-- Upper bounds of a type parameter, `given T satisfies …`. -/
  | typeConstraint (decl : DeclId) (satisfied : Option γ)
  | parameter (decl : DeclId) (default : Option γ)
  | variableDecl (decl : DeclId) (initializer : Option γ)
  -- statements
  /-- `x = e;`, which gives a value to what `target` refers to. -/
  | specifier (target value : Option γ)
  | exprStmt (expr : Option γ)
  | ifElse (condition thenBranch elseBranch : Option γ)
  /-- `exhaustive` says that the arms cover all cases of the subject. -/
  | switch (subject : Option γ) (arms : List (Option γ)) (default : Option γ) (exhaustive : Bool)
  | caseArm (pattern body : Option γ)
  | whileLoop (condition body : Option γ)
  | doWhile (body condition : Option γ)
  /-- `fail` runs when the loop ends without a break. -/
  | forLoop (iterator iterable body fail : Option γ)
  | tryCatch (body : Option γ) (catches : List (Option γ)) (finalizer : Option γ)
  | catchClause (binding body : Option γ)
  | returnStmt (value : Option γ)
  | throwStmt (value : Option γ)
  | breakStmt
  | continueStmt
  -- expressions
  | reference (decl : DeclId) (qualifier : Qualifier γ)
  | literal
  | call (callee : Option γ) (arguments : List (Option γ))
  | binary (left right : Option γ)
  | lambda (parameters : List (Option γ)) (body : Option γ)
  -- type clauses
  | extendedType (ty : Option γ) (arguments : List (Option γ))
  | satisfiedTypes (types : List (Option γ))
  | staticType (ty : Ty)

variable {γ δ : Type}

namespace Qualifier

def slots : Qualifier γ → List (Option γ)
  | expr primary => [primary]
  | _ => []

def map (f : γ → δ) : Qualifier γ → Qualifier δ
  | unqualified => unqualified
  | self => self
  | expr primary => expr (primary.map f)

@[simp] theorem slots_map (f : γ → δ) (q : Qualifier γ) : (q.map f).slots = q.slots.map (Option.map f) := by
  cases q <;> rfl

end Qualifier

namespace FunctionBody

def slots : FunctionBody γ → List (Option γ)
  | block body => [body]
  | lazy value => [value]
  | forward => []

def map (f : γ → δ) : FunctionBody γ → FunctionBody δ
  | block body => block (body.map f)
  | lazy value => lazy (value.map f)
  | forward => forward

@[simp] theorem slots_map (f : γ → δ) (b : FunctionBody γ) : (b.map f).slots = b.slots.map (Option.map f) := by
  cases b <;> rfl

end FunctionBody

namespace NodeKind

/-- The slots in source order, empty ones included. -/
def slots : NodeKind γ → List (Option γ)
  | block statements => statements
  | valueDecl _ typeClause initializer => [typeClause, initializer]
  | functionDecl _ parameters body => parameters ++ body.slots
  | getterDecl _ body => [body]
  | classDecl _ parameters extended satisfied body => parameters ++ [extended, satisfied, body]
  | interfaceDecl _ satisfied body => [satisfied, body]
  | aliasDecl _ target => [target]
  | typeConstraint _ satisfied => [satisfied]
  | parameter _ default => [default]
  | variableDecl _ initializer => [initializer]
  | specifier target value => [target, value]
  | exprStmt expr => [expr]
  | ifElse condition thenBranch elseBranch => [condition, thenBranch, elseBranch]
  | switch subject arms default _ => subject :: (arms ++ [default])
  | caseArm pattern body => [pattern, body]
  | whileLoop condition body => [condition, body]
  | doWhile body condition => [body, condition]
  | forLoop iterator iterable body fail => [iterator, iterable, body, fail]
  | tryCatch body catches finalizer => body :: (catches ++ [finalizer])
  | catchClause binding body => [binding, body]
  | returnStmt value => [value]
  | throwStmt value => [value]
  | breakStmt => []
  | continueStmt => []
  | reference _ qualifier => qualifier.slots
  | literal => []
  | call callee arguments => callee :: arguments
  | binary left right => [left, right]
  | lambda parameters body => parameters ++ [body]
  | extendedType ty arguments => ty :: arguments
  | satisfiedTypes types => types
  | staticType _ => []

/-- The parts in source order. -/
def children (k : NodeKind γ) : List γ := k.slots.filterMap id

/-- Puts other parts into the slots. -/
def map (f : γ → δ) : NodeKind γ → NodeKind δ
  | block statements => block (statements.map (Option.map f))
  | valueDecl d typeClause initializer => valueDecl d (typeClause.map f) (initializer.map f)
  | functionDecl d parameters body => functionDecl d (parameters.map (Option.map f)) (body.map f)
  | getterDecl d body => getterDecl d (body.map f)
  | classDecl d parameters extended satisfied body =>
    classDecl d (parameters.map (Option.map f)) (extended.map f) (satisfied.map f) (body.map f)
  | interfaceDecl d satisfied body => interfaceDecl d (satisfied.map f) (body.map f)
  | aliasDecl d target => aliasDecl d (target.map f)
  | typeConstraint d satisfied => typeConstraint d (satisfied.map f)
  | parameter d default => parameter d (default.map f)
  | variableDecl d initializer => variableDecl d (initializer.map f)
  | specifier target value => specifier (target.map f) (value.map f)
  | exprStmt expr => exprStmt (expr.map f)
  | ifElse condition thenBranch elseBranch => ifElse (condition.map f) (thenBranch.map f) (elseBranch.map f)
  | switch subject arms default exhaustive =>
    switch (subject.map f) (arms.map (Option.map f)) (default.map f) exhaustive
  | caseArm pattern body => caseArm (pattern.map f) (body.map f)
  | whileLoop condition body => whileLoop (condition.map f) (body.map f)
  | doWhile body condition => doWhile (body.map f) (condition.map f)
  | forLoop iterator iterable body fail => forLoop (iterator.map f) (iterable.map f) (body.map f) (fail.map f)
  | tryCatch body catches finalizer => tryCatch (body.map f) (catches.map (Option.map f)) (finalizer.map f)
  | catchClause binding body => catchClause (binding.map f) (body.map f)
  | returnStmt value => returnStmt (value.map f)
  | throwStmt value => throwStmt (value.map f)
  | breakStmt => breakStmt
  | continueStmt => continueStmt
  | reference d qualifier => reference d (qualifier.map f)
  | literal => literal
  | call callee arguments => call (callee.map f) (arguments.map (Option.map f))
  | binary left right => binary (left.map f) (right.map f)
  | lambda parameters body => lambda (parameters.map (Option.map f)) (body.map f)
  | extendedType ty arguments => extendedType (ty.map f) (arguments.map (Option.map f))
  | satisfiedTypes types => satisfiedTypes (types.map (Option.map f))
  | staticType ty => staticType ty

/-- The declaration that a declaring node or a reference names. -/
def declaration? : NodeKind γ → Option DeclId
  | valueDecl d .. | functionDecl d .. | getterDecl d _ | classDecl d .. | interfaceDecl d .. | aliasDecl d _
  | typeConstraint d _ | parameter d _ | variableDecl d _ | reference d _ => some d
  | _ => none

/-- The declaration that a declaring node names; a reference declares nothing. -/
def declared? : NodeKind γ → Option DeclId
  | reference .. => none
  | k => k.declaration?

/-- Whether the node declares a type whose supertypes are to be checked. -/
def isTypeDeclaring : NodeKind γ → Bool
  | classDecl .. | interfaceDecl .. | typeConstraint .. => true
  | _ => false

/-- The declaration that an unqualified reference, or one on the current instance, names. -/
def localReference? : NodeKind γ → Option DeclId
  | reference d .unqualified | reference d .self => some d
  | _ => none

theorem map_map {ε : Type} (f : γ → δ) (g : δ → ε) (k : NodeKind γ) : (k.map f).map g = k.map (g ∘ f) := by
  cases k with
  | functionDecl d parameters body => cases body <;> simp [map, FunctionBody.map]
  | reference d qualifier => cases qualifier <;> simp [map, Qualifier.map]
  | _ => simp [map]

theorem localReference?_map (f : γ → δ) (k : NodeKind γ) : (k.map f).localReference? = k.localReference? := by
  cases k with
  | reference d qualifier => cases qualifier <;> rfl
  | _ => rfl

theorem slots_map (f : γ → δ) (k : NodeKind γ) : (k.map f).slots = k.slots.map (Option.map f) := by
  cases k <;> simp [map, slots]

theorem filterMap_map_id (f : γ → δ) (slots : List (Option γ)) :
    (slots.map (Option.map f)).filterMap id = (slots.filterMap id).map f := by
  induction slots with
  | nil => rfl
  | cons o os ih => cases o <;> simp_all

theorem children_map (f : γ → δ) (k : NodeKind γ) : (k.map f).children = k.children.map f := by
  rw [children, slots_map, filterMap_map_id, children]

theorem mem_children_iff {k : NodeKind γ} {t : γ} : t ∈ k.children ↔ some t ∈ k.slots := by
  simp [children]

end NodeKind

end SemCheck
