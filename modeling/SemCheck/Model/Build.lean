import SemCheck.Model.Basic

/-!
# Building a model

Packages and declarations are numbered in the order in which they are added. What a declaration may be given depends
on its kind; a request that is refused leaves the model as it was.
-/

namespace SemCheck.Model

/-- Changes one declaration of the model. -/
def modify (m : Model) (d : DeclId) (f : Declaration → Declaration) : Model :=
  { m with declarations := m.declarations.modify d.index f }

/-- Changes a declaration that the model knows and whose kind is allowed; `refusal` is the error for other kinds. -/
def change (m : Model) (d : DeclId) (allowed : DeclKind → Bool) (refusal : String → ModelError)
    (f : Declaration → Declaration) : Except ModelError Model := do
  let decl ← m.get d
  if !allowed decl.kind then throw (refusal decl.name)
  return m.modify d f

/-! ## Adding -/

/-- The package of that name, added if there is none yet. -/
def addPackage (m : Model) (name : String) : PackageId × Model :=
  match m.packages.findIdx? (·.name == name) with
  | some i => (⟨i⟩, m)
  | none => (⟨m.packages.size⟩, { m with packages := m.packages.push ⟨name⟩ })

def add (m : Model) (decl : Declaration) : DeclId × Model :=
  (⟨m.declarations.size⟩, { m with declarations := m.declarations.push decl })

/-- Adds a class, interface or alias that is declared directly in a package. -/
def addToplevel (m : Model) (kind : DeclKind) (package : PackageId) (name : String) : DeclId × Model :=
  m.add { name, kind, package, flags := { toplevel := true } }

def addClass (m : Model) (package : PackageId) (name : String) : DeclId × Model :=
  m.addToplevel .classDecl package name

def addInterface (m : Model) (package : PackageId) (name : String) : DeclId × Model :=
  m.addToplevel .interfaceDecl package name

def addAlias (m : Model) (package : PackageId) (name : String) : DeclId × Model :=
  m.addToplevel .typeAlias package name

/-- Adds a type parameter after those that `owner` has. -/
def addTypeParameter (m : Model) (owner : DeclId) (name : String) (variance : Variance) :
    Except ModelError (DeclId × Model) := do
  let decl ← m.get owner
  let (p, m) := m.add { name, kind := .typeParameter, package := decl.package, container := owner, variance }
  return (p, m.modify owner fun d => { d with typeParameters := d.typeParameters ++ [p] })

/-- Adds a value, function or getter, nested in `container` if there is one. -/
def addLocal (m : Model) (package : PackageId) (container : Option DeclId) (name : String) (kind : DeclKind)
    (flags : DeclFlags) : DeclId × Model :=
  m.add { name, kind, package, container, flags }

def addValue (m : Model) (package : PackageId) (container : Option DeclId) (name : String) (flags : DeclFlags) :
    DeclId × Model :=
  m.addLocal package container name .value flags

def addFunction (m : Model) (package : PackageId) (container : Option DeclId) (name : String) (flags : DeclFlags) :
    DeclId × Model :=
  m.addLocal package container name .function flags

/-! ## Supertypes -/

/-- Makes a type parameter the self type of its owner. -/
def setSelfType (m : Model) (p : DeclId) : Except ModelError Model :=
  m.change p (· == .typeParameter) .notATypeParameter fun decl => { decl with selfTypeOf := decl.container }

def setExtended (m : Model) (d : DeclId) (t : Ty) : Except ModelError Model :=
  m.change d (· == .classDecl) .noSupertypes fun decl => { decl with extended := some t }

/-- Adds a satisfied type to a class or interface, or an upper bound to a type parameter. -/
def addSatisfied (m : Model) (d : DeclId) (t : Ty) : Except ModelError Model :=
  m.change d (·.hasSatisfied) .noSupertypes fun decl => { decl with satisfied := decl.satisfied ++ [t] }

def setAliasTarget (m : Model) (d : DeclId) (t : Ty) : Except ModelError Model :=
  m.change d (· == .typeAlias) .noSupertypes fun decl => { decl with aliasTarget := some t }

/-! ## Repair -/

/-- Takes the first occurrence of `t` out of the satisfied types, and says whether there was one. -/
def removeSatisfied (m : Model) (d : DeclId) (t : Ty) : Except ModelError (Bool × Model) := do
  let decl ← m.get d
  return (decide (t ∈ decl.satisfied), m.modify d fun decl => { decl with satisfied := decl.satisfied.erase t })

/-- Puts the basic type in the place of the extended type. -/
def resetExtended (m : Model) (d : DeclId) : Except ModelError Model :=
  (m.get d).map fun _ => m.modify d fun decl => { decl with extended := some m.basicType }

/-- Notes a supertype as taken out of the hierarchy. -/
def addBroken (m : Model) (d : DeclId) (t : Ty) : Except ModelError Model :=
  (m.get d).map fun _ => m.modify d fun decl => { decl with broken := decl.broken ++ [t] }

/-! ## Looking up after building -/

variable {m : Model} {d : DeclId} {decl : Declaration} {f g : Declaration → Declaration}

theorem get_of_get?_eq_some (h : m.get? d = some decl) : m.get d = .ok decl := by rw [get, h]

theorem get_of_get?_eq_none (h : m.get? d = none) : m.get d = .error (.unknownDeclaration d) := by rw [get, h]

theorem get?_modify (m : Model) (d : DeclId) (f : Declaration → Declaration) (e : DeclId) :
    (m.modify d f).get? e = if e = d then (m.get? e).map f else m.get? e := by
  show (m.declarations.modify d.index f)[e.index]? = _
  rw [Array.getElem?_modify]
  by_cases h : e = d
  · rw [if_pos h, if_pos (congrArg DeclId.index h).symm]
    rfl
  · rw [if_neg h, if_neg fun hindex => h (by cases e; cases d; exact congrArg DeclId.mk hindex.symm)]
    rfl

theorem get?_modify_self (m : Model) (d : DeclId) (f : Declaration → Declaration) :
    (m.modify d f).get? d = (m.get? d).map f := by
  rw [get?_modify, if_pos rfl]

theorem get?_modify_of_ne (m : Model) (d : DeclId) (f : Declaration → Declaration) {e : DeclId} (h : e ≠ d) :
    (m.modify d f).get? e = m.get? e := by
  rw [get?_modify, if_neg h]

theorem size_modify (m : Model) (d : DeclId) (f : Declaration → Declaration) :
    (m.modify d f).declarations.size = m.declarations.size := Array.size_modify

theorem modify_congr (h : ∀ decl, m.get? d = some decl → f decl = g decl) : m.modify d f = m.modify d g := by
  have hdeclarations : m.declarations.modify d.index f = m.declarations.modify d.index g := by
    refine Array.ext (by rw [Array.size_modify, Array.size_modify]) fun i hi _ => ?_
    rw [Array.size_modify] at hi
    rw [Array.getElem_modify, Array.getElem_modify]
    split
    · next hindex => exact h _ (Array.getElem?_eq_some_iff.2 ⟨hindex ▸ hi, by simp only [hindex]⟩)
    · rfl
  rw [modify, hdeclarations, modify]

theorem change_of_get?_eq_none (h : m.get? d = none) (allowed : DeclKind → Bool) (refusal : String → ModelError)
    (f : Declaration → Declaration) : m.change d allowed refusal f = .error (.unknownDeclaration d) := by
  rw [change, get_of_get?_eq_none h]
  rfl

theorem change_of_get?_eq_some (h : m.get? d = some decl) (allowed : DeclKind → Bool) (refusal : String → ModelError)
    (f : Declaration → Declaration) :
    m.change d allowed refusal f = if allowed decl.kind then .ok (m.modify d f) else .error (refusal decl.name) := by
  rw [change, get_of_get?_eq_some h]
  cases hallowed : allowed decl.kind <;> simp only [bind, Except.bind, hallowed] <;> rfl

theorem get?_add (m : Model) (decl : Declaration) (e : DeclId) :
    (m.add decl).2.get? e = if e.index = m.declarations.size then some decl else m.get? e :=
  Array.getElem?_push

theorem lt_size_of_get?_eq_some (h : m.get? d = some decl) : d.index < m.declarations.size :=
  (Array.getElem?_eq_some_iff.1 h).1

theorem get?_add_of_get?_eq_some (h : m.get? d = some decl) (new : Declaration) :
    (m.add new).2.get? d = some decl := by
  rw [get?_add, if_neg (Nat.ne_of_lt (lt_size_of_get?_eq_some h)), h]

end SemCheck.Model
