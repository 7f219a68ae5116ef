import Mathlib.Data.List.Nodup
import SemCheck.Model.Build

/-!
# Models that builders make

Whatever builders are called with, what a declaration has fits its kind, and the type parameters of declarations are the
parameters that were added to them, in the order of their addition (`Disciplined`). Each builder keeps this, so that it
holds after any calls, those that fail included.

Some builders look a declaration up, check it and change the model one thing after another. Written so, in place, what
had been changed before an error would stay changed; as they come to the same as the builders that hand out a model only
if they succeed (`inPlace_eq`), nothing is changed before an error. Main statement: `buildAll_disciplined`.
-/

namespace SemCheck

/-- What a declaration has fits its kind. -/
structure Declaration.Fitting (decl : Declaration) : Prop where
  extended : decl.extended ≠ none → decl.kind = .classDecl
  satisfied : decl.satisfied ≠ [] → decl.kind ∈ [.classDecl, .interfaceDecl, .typeParameter]
  aliasTarget : decl.aliasTarget ≠ none → decl.kind = .typeAlias
  selfTypeOf : ∀ owner, decl.selfTypeOf = some owner → decl.kind = .typeParameter ∧ decl.container = some owner

namespace Model

variable {m : Model} {d e p : DeclId} {decl : Declaration} {f : Declaration → Declaration}

/-! ## Calls -/

/-- A call of a builder. -/
inductive Call
  | addPackage (name : String)
  | addClass (package : PackageId) (name : String)
  | addInterface (package : PackageId) (name : String)
  | addAlias (package : PackageId) (name : String)
  | addTypeParameter (owner : DeclId) (name : String) (variance : Variance)
  | addValue (package : PackageId) (container : Option DeclId) (name : String) (flags : DeclFlags)
  | addFunction (package : PackageId) (container : Option DeclId) (name : String) (flags : DeclFlags)
  | addLocal (package : PackageId) (container : Option DeclId) (name : String) (kind : DeclKind) (flags : DeclFlags)
  | setSelfType (p : DeclId)
  | setExtended (d : DeclId) (t : Ty)
  | addSatisfied (d : DeclId) (t : Ty)
  | setAliasTarget (d : DeclId) (t : Ty)

inductive Answer
  | package (p : PackageId)
  | declaration (d : DeclId)
  | done

/-- What a call answers and the model that it hands out, if it succeeds. -/
def Call.perform (m : Model) : Call → Except ModelError (Answer × Model)
  | addPackage name => .ok ((m.addPackage name).map .package id)
  | addClass package name => .ok ((m.addClass package name).map .declaration id)
  | addInterface package name => .ok ((m.addInterface package name).map .declaration id)
  | addAlias package name => .ok ((m.addAlias package name).map .declaration id)
  | addTypeParameter owner name variance => (m.addTypeParameter owner name variance).map (Prod.map .declaration id)
  | addValue package container name flags => .ok ((m.addValue package container name flags).map .declaration id)
  | addFunction package container name flags => .ok ((m.addFunction package container name flags).map .declaration id)
  | addLocal package container name kind flags =>
    .ok ((m.addLocal package container name kind flags).map .declaration id)
  | setSelfType p => (m.setSelfType p).map (.done, ·)
  | setExtended d t => (m.setExtended d t).map (.done, ·)
  | addSatisfied d t => (m.addSatisfied d t).map (.done, ·)
  | setAliasTarget d t => (m.setAliasTarget d t).map (.done, ·)

/-! ## Calls in place -/

/-- Work on one model: what is changed before an error stays changed. -/
abbrev InPlace := ExceptT ModelError (StateM Model)

def InPlace.runOn {α : Type} (work : InPlace α) (m : Model) : Except ModelError α × Model :=
  StateT.run (ExceptT.run work) m

def lookupInPlace (d : DeclId) : InPlace Declaration := .mk fun m => (m.get d, m)

/-- Looks a declaration up once more, for a change. -/
def editInPlace (d : DeclId) (f : Declaration → Declaration) : InPlace Unit := do
  let _ ← lookupInPlace d
  modifyGet fun m => ((), m.modify d f)

def addTypeParameterInPlace (owner : DeclId) (name : String) (variance : Variance) : InPlace DeclId := do
  let decl ← lookupInPlace owner
  let p ← modifyGet fun m =>
    m.add { name, kind := .typeParameter, package := decl.package, container := owner, variance }
  editInPlace owner fun d => { d with typeParameters := d.typeParameters ++ [p] }
  return p

def setSelfTypeInPlace (p : DeclId) : InPlace Unit := do
  let decl ← lookupInPlace p
  if decl.kind ≠ .typeParameter then throw (.notATypeParameter decl.name)
  let owner := decl.container
  editInPlace p fun decl => { decl with selfTypeOf := owner }

def changeInPlace (d : DeclId) (allowed : DeclKind → Bool) (refusal : String → ModelError)
    (f : Declaration → Declaration) : InPlace Unit := do
  let decl ← lookupInPlace d
  if !allowed decl.kind then throw (refusal decl.name)
  modifyGet fun m => ((), m.modify d f)

/-- A call, one lookup and change after the other. Calls that cannot fail are as they are. -/
def Call.inPlace : Call → InPlace Answer
  | addTypeParameter owner name variance => .declaration <$> addTypeParameterInPlace owner name variance
  | setSelfType p => (fun _ => .done) <$> setSelfTypeInPlace p
  | setExtended d t =>
    (fun _ => .done) <$> changeInPlace d (· == .classDecl) .noSupertypes fun decl => { decl with extended := some t }
  | addSatisfied d t =>
    (fun _ => .done) <$>
      changeInPlace d (·.hasSatisfied) .noSupertypes fun decl => { decl with satisfied := decl.satisfied ++ [t] }
  | setAliasTarget d t =>
    (fun _ => .done) <$> changeInPlace d (· == .typeAlias) .noSupertypes fun decl => { decl with aliasTarget := some t }
  | addPackage name => .package <$> modifyGet (·.addPackage name)
  | addClass package name => .declaration <$> modifyGet (·.addClass package name)
  | addInterface package name => .declaration <$> modifyGet (·.addInterface package name)
  | addAlias package name => .declaration <$> modifyGet (·.addAlias package name)
  | addValue package container name flags => .declaration <$> modifyGet (·.addValue package container name flags)
  | addFunction package container name flags => .declaration <$> modifyGet (·.addFunction package container name flags)
  | addLocal package container name kind flags =>
    .declaration <$> modifyGet (·.addLocal package container name kind flags)

/-- The model after the calls, whether they fail or not. -/
def buildAll (m : Model) (calls : List Call) : Model := calls.foldl (fun m call => (call.inPlace.runOn m).2) m

/-- The answer and the model left by what hands out a model only if it succeeds. -/
def outcome {α : Type} (m : Model) : Except ModelError (α × Model) → Except ModelError α × Model
  | .ok (a, m') => (.ok a, m')
  | .error e => (.error e, m)

section

variable {α β : Type}

@[simp] theorem runOn_lookupInPlace (d : DeclId) (m : Model) : (lookupInPlace d).runOn m = (m.get d, m) := rfl

@[simp] theorem runOn_throw (e : ModelError) (m : Model) : InPlace.runOn (throw e : InPlace α) m = (.error e, m) := rfl

@[simp] theorem runOn_modifyGet (f : Model → α × Model) (m : Model) :
    InPlace.runOn (modifyGet f) m = (.ok (f m).1, (f m).2) := rfl

@[simp] theorem runOn_bind (work : InPlace α) (next : α → InPlace β) (m : Model) :
    (work >>= next).runOn m =
      match work.runOn m with
      | (.ok a, m') => (next a).runOn m'
      | (.error e, m') => (.error e, m') := by
  rw [InPlace.runOn, InPlace.runOn, ExceptT.run_bind, StateT.run_bind]
  rcases StateT.run (ExceptT.run work) m with ⟨_ | _, m'⟩
  · rfl
  · rfl

@[simp] theorem runOn_map (f : α → β) (work : InPlace α) (m : Model) :
    (f <$> work).runOn m = ((work.runOn m).1.map f, (work.runOn m).2) := by
  rw [← bind_pure_comp, runOn_bind]
  rcases work.runOn m with ⟨_ | _, m'⟩
  · rfl
  · rfl

end

/-! ## The same in place -/

theorem runOn_editInPlace (h : m.get? d = some decl) (f : Declaration → Declaration) :
    (editInPlace d f).runOn m = (.ok (), m.modify d f) := by
  simp [editInPlace, get_of_get?_eq_some h]

theorem addTypeParameterInPlace_eq (owner : DeclId) (name : String) (variance : Variance) (m : Model) :
    (addTypeParameterInPlace owner name variance).runOn m = outcome m (m.addTypeParameter owner name variance) := by
  rw [addTypeParameterInPlace, addTypeParameter, runOn_bind, runOn_lookupInPlace]
  cases howner : m.get? owner with
  | none =>
    rw [get_of_get?_eq_none howner]
    rfl
  | some decl =>
    have hedit (new : Declaration) := runOn_editInPlace (get?_add_of_get?_eq_some howner new)
    rw [get_of_get?_eq_some howner]
    simp only [runOn_bind, runOn_modifyGet, hedit]
    rfl

theorem setSelfTypeInPlace_eq (p : DeclId) (m : Model) :
    (setSelfTypeInPlace p).runOn m = outcome m ((m.setSelfType p).map ((), ·)) := by
  rw [setSelfTypeInPlace, setSelfType, runOn_bind, runOn_lookupInPlace]
  cases hparam : m.get? p with
  | none =>
    rw [get_of_get?_eq_none hparam, change_of_get?_eq_none hparam]
    rfl
  | some decl =>
    -- the owner that is written has been read before the change
    have howner : m.modify p (fun old => { old with selfTypeOf := decl.container }) =
        m.modify p fun old => { old with selfTypeOf := old.container } :=
      modify_congr fun old hold => by rw [Option.some.inj (hold.symm.trans hparam)]
    rw [get_of_get?_eq_some hparam, change_of_get?_eq_some hparam]
    by_cases hkind : decl.kind = .typeParameter
    · simp [hkind, runOn_editInPlace hparam, howner, outcome, Except.map]
    · simp [hkind, outcome, Except.map]

theorem changeInPlace_eq (d : DeclId) (allowed : DeclKind → Bool) (refusal : String → ModelError)
    (f : Declaration → Declaration) (m : Model) :
    (changeInPlace d allowed refusal f).runOn m = outcome m ((m.change d allowed refusal f).map ((), ·)) := by
  rw [changeInPlace, runOn_bind, runOn_lookupInPlace]
  cases hget : m.get? d with
  | none =>
    rw [get_of_get?_eq_none hget, change_of_get?_eq_none hget]
    rfl
  | some decl =>
    rw [get_of_get?_eq_some hget, change_of_get?_eq_some hget]
    cases hallowed : allowed decl.kind <;> simp [hallowed, outcome, Except.map]

theorem outcome_map {α β : Type} (f : α → β) (m : Model) (r : Except ModelError (α × Model)) :
    outcome m (r.map (Prod.map f id)) = ((outcome m r).1.map f, (outcome m r).2) := by
  cases r with
  | error e => rfl
  | ok r => rfl

theorem outcome_done (m : Model) (r : Except ModelError Model) :
    outcome m (r.map (Answer.done, ·)) =
      ((outcome m (r.map ((), ·))).1.map fun _ => .done, (outcome m (r.map ((), ·))).2) := by
  cases r with
  | error e => rfl
  | ok m' => rfl

/-- **Nothing is changed before an error**: each call comes in place to what it answers, with the model that it hands
out if it succeeds and the model as it was if not. -/
theorem inPlace_eq (call : Call) (m : Model) : call.inPlace.runOn m = outcome m (call.perform m) := by
  cases call with
  | addTypeParameter owner name variance =>
    rw [Call.inPlace, runOn_map, addTypeParameterInPlace_eq, Call.perform, outcome_map]
  | setSelfType p => rw [Call.inPlace, runOn_map, setSelfTypeInPlace_eq, Call.perform, outcome_done]
  | setExtended d t => rw [Call.inPlace, runOn_map, changeInPlace_eq, Call.perform, outcome_done, setExtended]
  | addSatisfied d t => rw [Call.inPlace, runOn_map, changeInPlace_eq, Call.perform, outcome_done, addSatisfied]
  | setAliasTarget d t => rw [Call.inPlace, runOn_map, changeInPlace_eq, Call.perform, outcome_done, setAliasTarget]
  | _ => rfl

/-! ## What builders keep -/

/-- The declaration `p` is a type parameter of `d`. -/
def IsParameterOf (m : Model) (d p : DeclId) : Prop :=
  ∃ param, m.get? p = some param ∧ param.kind = .typeParameter ∧ param.container = some d

/-- What a declaration has fits its kind, its type parameters are such in the order in which they have been added, and
packages have different names. -/
structure Disciplined (m : Model) : Prop where
  fitting : ∀ d decl, m.get? d = some decl → decl.Fitting
  parameters : ∀ d, ∀ p ∈ m.typeParametersOf d, m.IsParameterOf d p
  increasing : ∀ d, (m.typeParametersOf d).Pairwise fun p q => p.index < q.index
  packages : (m.packages.toList.map Package.name).Nodup

theorem typeParametersOf_of_get?_eq_some (h : m.get? d = some decl) : m.typeParametersOf d = decl.typeParameters := by
  rw [typeParametersOf, h]

theorem Disciplined.disjoint (h : m.Disciplined) (hne : d ≠ e) :
    (m.typeParametersOf d).Disjoint (m.typeParametersOf e) := by
  intro p hd he
  obtain ⟨param, hparam, -, hcontainer⟩ := h.parameters d p hd
  obtain ⟨param', hparam', -, hcontainer'⟩ := h.parameters e p he
  obtain rfl := Option.some.inj (hparam.symm.trans hparam')
  exact hne (Option.some.inj (hcontainer.symm.trans hcontainer'))

theorem disciplined_new (core : String) : (new core).Disciplined := by
  have hget (d : DeclId) (decl : Declaration) (h : (new core).get? d = some decl) :
      decl.Fitting ∧ decl.typeParameters = [] := by
    have hmem : decl ∈ (new core).declarations := Array.mem_of_getElem? h
    simp only [new, Array.mem_def, List.mem_cons, List.not_mem_nil, or_false] at hmem
    rcases hmem with rfl | rfl
    · exact ⟨⟨nofun, nofun, nofun, nofun⟩, rfl⟩
    · exact ⟨⟨fun _ => rfl, nofun, nofun, nofun⟩, rfl⟩
  have hnone (d : DeclId) : (new core).typeParametersOf d = [] := by
    cases h : (new core).get? d with
    | none => rw [typeParametersOf, h]
    | some decl => rw [typeParametersOf_of_get?_eq_some h, (hget d decl h).2]
  constructor
  case fitting => exact fun d decl h => (hget d decl h).1
  case parameters => exact fun d p hp => absurd (hnone d ▸ hp) List.not_mem_nil
  case increasing => exact fun d => hnone d ▸ .nil
  case packages => exact List.nodup_singleton core

theorem Disciplined.addPackage (h : m.Disciplined) (name : String) : (m.addPackage name).2.Disciplined := by
  rw [Model.addPackage]
  split
  · exact h
  · next hfresh =>
    refine ⟨h.fitting, h.parameters, h.increasing, ?_⟩
    rw [Array.toList_push, List.map_append, List.map_singleton]
    refine List.nodup_append.2 ⟨h.packages, List.nodup_singleton name, fun old hold name' hname heq => ?_⟩
    obtain ⟨package, hpackage, rfl⟩ := List.mem_map.1 hold
    have hne := Array.findIdx?_eq_none_iff.1 hfresh package (Array.mem_toList_iff.1 hpackage)
    rw [heq, List.mem_singleton.1 hname, beq_self_eq_true] at hne
    exact Bool.noConfusion hne

theorem IsParameterOf.add (h : m.IsParameterOf d p) (decl : Declaration) : (m.add decl).2.IsParameterOf d p := by
  obtain ⟨param, hparam, hrest⟩ := h
  exact ⟨param, get?_add_of_get?_eq_some hparam decl, hrest⟩

theorem isParameterOf_add_self {param : Declaration} (hkind : param.kind = .typeParameter)
    (hcontainer : param.container = some d) : (m.add param).2.IsParameterOf d ⟨m.declarations.size⟩ :=
  ⟨param, (get?_add ..).trans (if_pos rfl), hkind, hcontainer⟩

theorem Disciplined.add (h : m.Disciplined) (hfitting : decl.Fitting) (hnone : decl.typeParameters = []) :
    (m.add decl).2.Disciplined := by
  have hparameters (d : DeclId) : (m.add decl).2.typeParametersOf d = [] ∨
      (m.add decl).2.typeParametersOf d = m.typeParametersOf d := by
    rw [typeParametersOf, get?_add]
    by_cases hnew : d.index = m.declarations.size
    · rw [if_pos hnew]
      exact Or.inl hnone
    · rw [if_neg hnew]
      exact Or.inr rfl
  constructor
  case fitting =>
    intro d old hold
    rw [get?_add] at hold
    split at hold
    · exact Option.some.inj hold ▸ hfitting
    · exact h.fitting d old hold
  case parameters =>
    intro d p hp
    rcases hparameters d with hd | hd
    · exact absurd (hd ▸ hp) List.not_mem_nil
    · exact (h.parameters d p (hd ▸ hp)).add decl
  case increasing =>
    intro d
    rcases hparameters d with hd | hd
    · exact hd ▸ .nil
    · exact hd ▸ h.increasing d
  case packages => exact h.packages

/-- A change of one declaration that leaves it what it is. -/
theorem Disciplined.modify (h : m.Disciplined) (hget : m.get? d = some decl)
    (hkeeps : ∀ old, (f old).kind = old.kind ∧ (f old).container = old.container) (hfitting : (f decl).Fitting)
    (hparameters : ∀ p ∈ (f decl).typeParameters, m.IsParameterOf d p)
    (hincreasing : (f decl).typeParameters.Pairwise fun p q => p.index < q.index) : (m.modify d f).Disciplined := by
  have hself : (m.modify d f).get? d = some (f decl) := by
    rw [get?_modify_self, hget, Option.map_some]
  have hother (e : DeclId) (hne : e ≠ d) : (m.modify d f).typeParametersOf e = m.typeParametersOf e := by
    rw [typeParametersOf, get?_modify_of_ne m d f hne, typeParametersOf]
  have hparameterOf (e p : DeclId) (hp : m.IsParameterOf e p) : (m.modify d f).IsParameterOf e p := by
    obtain ⟨param, hparam, hkind, hcontainer⟩ := hp
    rw [IsParameterOf, get?_modify, hparam]
    split
    · exact ⟨f param, rfl, (hkeeps param).1.trans hkind, (hkeeps param).2.trans hcontainer⟩
    · exact ⟨param, rfl, hkind, hcontainer⟩
  constructor
  case fitting =>
    intro e new hnew
    by_cases he : e = d
    · rw [he, hself] at hnew
      exact Option.some.inj hnew ▸ hfitting
    · rw [get?_modify_of_ne m d f he] at hnew
      exact h.fitting e new hnew
  case parameters =>
    intro e p hp
    refine hparameterOf e p ?_
    by_cases he : e = d
    · rw [he, typeParametersOf_of_get?_eq_some hself] at hp
      exact he ▸ hparameters p hp
    · exact h.parameters e p (hother e he ▸ hp)
  case increasing =>
    intro e
    by_cases he : e = d
    · rw [he, typeParametersOf_of_get?_eq_some hself]
      exact hincreasing
    · rw [hother e he]
      exact h.increasing e
  case packages => exact h.packages

theorem Disciplined.addTypeParameter (h : m.Disciplined) {owner p : DeclId} {name : String} {variance : Variance}
    {m' : Model} (hok : m.addTypeParameter owner name variance = .ok (p, m')) : m'.Disciplined := by
  rw [Model.addTypeParameter] at hok
  cases howner : m.get? owner with
  | none =>
    rw [get_of_get?_eq_none howner] at hok
    exact nomatch hok
  | some decl =>
    rw [get_of_get?_eq_some howner] at hok
    obtain ⟨rfl, rfl⟩ := Prod.mk.inj (Except.ok.inj hok)
    have hparameters := h.parameters owner
    have hfitting := h.fitting owner decl howner
    have hincreasing := h.increasing owner
    rw [typeParametersOf_of_get?_eq_some howner] at hparameters hincreasing
    refine (h.add ?_ ?_).modify (get?_add_of_get?_eq_some howner _) (fun _ => ⟨rfl, rfl⟩)
      ⟨hfitting.extended, hfitting.satisfied, hfitting.aliasTarget, hfitting.selfTypeOf⟩ ?_ ?_
    · exact ⟨nofun, nofun, nofun, nofun⟩
    · rfl
    · intro p hp
      rcases List.mem_append.1 hp with hp | hp
      · exact (hparameters p hp).add _
      · rw [List.mem_singleton.1 hp]
        exact isParameterOf_add_self rfl rfl
    · -- the owner's parameters are known, so that the new one is newer
      refine List.pairwise_append.2 ⟨hincreasing, List.pairwise_singleton _ _, fun p hp q hq => ?_⟩
      obtain ⟨param, hparam, -⟩ := hparameters p hp
      rw [List.mem_singleton.1 hq]
      exact lt_size_of_get?_eq_some hparam

/-- A change that is made for certain kinds only and that fits them. -/
theorem Disciplined.change (h : m.Disciplined) {allowed : DeclKind → Bool} {refusal : String → ModelError} {m' : Model}
    (hok : m.change d allowed refusal f = .ok m')
    (hkeeps : ∀ old, (f old).kind = old.kind ∧ (f old).container = old.container ∧
      (f old).typeParameters = old.typeParameters)
    (hfitting : ∀ old, allowed old.kind = true → old.Fitting → (f old).Fitting) : m'.Disciplined := by
  cases hget : m.get? d with
  | none =>
    rw [change_of_get?_eq_none hget] at hok
    exact nomatch hok
  | some decl =>
    rw [change_of_get?_eq_some hget] at hok
    split at hok
    · next hallowed =>
      obtain rfl := Except.ok.inj hok
      have htypeParameters : (f decl).typeParameters = m.typeParametersOf d := by
        rw [(hkeeps decl).2.2, typeParametersOf_of_get?_eq_some hget]
      refine h.modify hget (fun old => ⟨(hkeeps old).1, (hkeeps old).2.1⟩)
        (hfitting decl hallowed (h.fitting d decl hget)) ?_ ?_
      · exact htypeParameters ▸ h.parameters d
      · exact htypeParameters ▸ h.increasing d
    · exact nomatch hok

theorem mem_of_hasSatisfied {kind : DeclKind} (h : kind.hasSatisfied = true) :
    kind ∈ [.classDecl, .interfaceDecl, .typeParameter] := by
  cases kind <;> first | decide | exact nomatch h

theorem eq_ok_of_map_done {r : Except ModelError Model} {answer : Answer} {m' : Model}
    (h : r.map (Answer.done, ·) = .ok (answer, m')) : r = .ok m' := by
  cases r with
  | error e => exact nomatch h
  | ok m'' => rw [(Prod.mk.inj (Except.ok.inj h)).2]

/-- **What one call keeps**: the calls that add a declaration without parameters are alike, the others each have their
lemma or change one declaration in a way that fits its kind. -/
theorem Disciplined.perform (h : m.Disciplined) {call : Call} {answer : Answer} {m' : Model}
    (hok : call.perform m = .ok (answer, m')) : m'.Disciplined := by
  cases call with
  | addPackage name =>
    obtain ⟨-, rfl⟩ := Prod.mk.inj (Except.ok.inj hok)
    exact h.addPackage name
  | addTypeParameter owner name variance =>
    rw [Call.perform] at hok
    cases hadded : m.addTypeParameter owner name variance with
    | error e =>
      rw [hadded] at hok
      exact nomatch hok
    | ok added =>
      rw [hadded] at hok
      obtain ⟨-, rfl⟩ := Prod.mk.inj (Except.ok.inj hok)
      exact h.addTypeParameter hadded
  | setSelfType p =>
    refine h.change (eq_ok_of_map_done hok) (fun _ => ⟨rfl, rfl, rfl⟩) fun old hkind hold => ?_
    exact ⟨hold.extended, hold.satisfied, hold.aliasTarget, fun _ howner => ⟨eq_of_beq hkind, howner⟩⟩
  | setExtended d t =>
    refine h.change (eq_ok_of_map_done hok) (fun _ => ⟨rfl, rfl, rfl⟩) fun old hkind hold => ?_
    exact ⟨fun _ => eq_of_beq hkind, hold.satisfied, hold.aliasTarget, hold.selfTypeOf⟩
  | addSatisfied d t =>
    refine h.change (eq_ok_of_map_done hok) (fun _ => ⟨rfl, rfl, rfl⟩) fun old hkind hold => ?_
    exact ⟨hold.extended, fun _ => mem_of_hasSatisfied hkind, hold.aliasTarget, hold.selfTypeOf⟩
  | setAliasTarget d t =>
    refine h.change (eq_ok_of_map_done hok) (fun _ => ⟨rfl, rfl, rfl⟩) fun old hkind hold => ?_
    exact ⟨hold.extended, hold.satisfied, fun _ => eq_of_beq hkind, hold.selfTypeOf⟩
  | _ =>
    obtain ⟨-, rfl⟩ := Prod.mk.inj (Except.ok.inj hok)
    exact h.add ⟨nofun, nofun, nofun, nofun⟩ rfl

theorem Disciplined.inPlace (h : m.Disciplined) (call : Call) : (call.inPlace.runOn m).2.Disciplined := by
  rw [inPlace_eq]
  cases hperform : call.perform m with
  | error e => exact h
  | ok r => exact h.perform hperform

theorem Disciplined.buildAll (h : m.Disciplined) (calls : List Call) : (m.buildAll calls).Disciplined := by
  induction calls generalizing m with
  | nil => exact h
  | cons call calls ih => exact ih (h.inPlace call)

/-- **Models that builders make keep discipline, and failing calls change nothing**. After any calls from a new model
on, what a declaration has fits its kind, the type parameters of declarations are such in the order of their addition
and belong to no other declaration, and no two packages have the same name. A call comes, one change after the other,
to what the builder hands out; one that fails leaves the model as it was. -/
theorem buildAll_disciplined (core : String) (calls : List Call) :
    let m := (new core).buildAll calls
    m.Disciplined ∧ (∀ d e, d ≠ e → (m.typeParametersOf d).Disjoint (m.typeParametersOf e)) ∧
      ∀ call : Call, call.inPlace.runOn m = outcome m (call.perform m) ∧
        ∀ error, (call.inPlace.runOn m).1 = .error error → (call.inPlace.runOn m).2 = m := by
  have hdisciplined := (disciplined_new core).buildAll calls
  refine ⟨hdisciplined, fun d e hne => hdisciplined.disjoint hne, fun call => ?_⟩
  refine ⟨inPlace_eq call _, fun error herror => ?_⟩
  rw [inPlace_eq] at herror ⊢
  cases hperform : call.perform ((new core).buildAll calls) with
  | error e => rfl
  | ok r =>
    rw [hperform] at herror
    exact nomatch herror

/-- An interface with a self type, and calls that are refused: an interface extends nothing, the self type is no alias,
and nothing is known to which `T` could be added. -/
def comparableCalls : List Call :=
  [.addInterface ⟨0⟩ "Comparable", .addTypeParameter ⟨2⟩ "Other" .contravariant, .setSelfType ⟨3⟩,
    .setExtended ⟨2⟩ .nothing, .setAliasTarget ⟨3⟩ .nothing, .addTypeParameter ⟨9⟩ "T" .invariant]

theorem buildAll_disciplined_comparable :
    let m := (new "lang").buildAll comparableCalls
    m.typeParametersOf ⟨2⟩ = [⟨3⟩] ∧ m.IsParameterOf ⟨2⟩ ⟨3⟩ ∧
      (m.typeParametersOf ⟨2⟩).Disjoint (m.typeParametersOf ⟨1⟩) ∧
      ((Call.setExtended ⟨2⟩ .nothing).inPlace.runOn m).2 = m := by
  obtain ⟨hdisciplined, hdisjoint, hcalls⟩ := buildAll_disciplined "lang" comparableCalls
  have hparameters : ((new "lang").buildAll comparableCalls).typeParametersOf ⟨2⟩ = [⟨3⟩] := by decide
  refine ⟨hparameters, hdisciplined.parameters ⟨2⟩ ⟨3⟩ ?_, hdisjoint ⟨2⟩ ⟨1⟩ (by decide), ?_⟩
  · rw [hparameters]
    exact List.mem_singleton_self _
  · exact (hcalls (.setExtended ⟨2⟩ .nothing)).2 (.noSupertypes "Comparable") rfl

end Model

end SemCheck
