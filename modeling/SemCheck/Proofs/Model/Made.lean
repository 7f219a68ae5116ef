import SemCheck.Proofs.Alias.Assembled
import SemCheck.Proofs.Model.Builders
import SemCheck.Proofs.Ty.Reading

/-!
# Types that have been made while a model was built

A type is made by the model as it is at the time, and kept while the model is built further. Builders take nothing
back: what a declaration is stays, and its type parameters only become more (`precedes_buildAll`). So a type that has
been made at any time is over declarations that the model knows, and its unions and intersections have the members that
`unite` and `intersect` give them. Main statement: `HasMade.composed`.
-/

namespace SemCheck.Model

variable {m m' m'' : Model} {d p : DeclId} {decl : Declaration} {f : Declaration → Declaration} {t : Ty}

/-! ## Earlier models -/

/-- What is declared in `m` is declared in `m'`, as what it is and with the type parameters it has. -/
def Precedes (m m' : Model) : Prop :=
  ∀ d decl, m.get? d = some decl →
    ∃ decl', m'.get? d = some decl' ∧ decl'.kind = decl.kind ∧ decl.typeParameters ⊆ decl'.typeParameters

theorem Precedes.refl (m : Model) : m.Precedes m := fun _ decl h => ⟨decl, h, rfl, List.Subset.refl _⟩

theorem Precedes.trans (h : m.Precedes m') (h' : m'.Precedes m'') : m.Precedes m'' := by
  intro d decl hd
  obtain ⟨decl', hd', hkind, hparameters⟩ := h d decl hd
  obtain ⟨decl'', hd'', hkind', hparameters'⟩ := h' d decl' hd'
  exact ⟨decl'', hd'', hkind'.trans hkind, List.Subset.trans hparameters hparameters'⟩

theorem precedes_add (m : Model) (decl : Declaration) : m.Precedes (m.add decl).2 := fun _ old h =>
  ⟨old, get?_add_of_get?_eq_some h decl, rfl, List.Subset.refl _⟩

theorem precedes_modify (m : Model) (d : DeclId)
    (hkeeps : ∀ old, (f old).kind = old.kind ∧ old.typeParameters ⊆ (f old).typeParameters) :
    m.Precedes (m.modify d f) := by
  intro e old hold
  rw [get?_modify, hold]
  split
  · exact ⟨f old, rfl, hkeeps old⟩
  · exact ⟨old, rfl, rfl, List.Subset.refl _⟩

theorem precedes_change {allowed : DeclKind → Bool} {refusal : String → ModelError}
    (hok : m.change d allowed refusal f = .ok m')
    (hkeeps : ∀ old, (f old).kind = old.kind ∧ old.typeParameters ⊆ (f old).typeParameters) : m.Precedes m' := by
  cases hget : m.get? d with
  | none =>
    rw [change_of_get?_eq_none hget] at hok
    cases hok
  | some decl =>
    rw [change_of_get?_eq_some hget] at hok
    split at hok
    · exact Except.ok.inj hok ▸ precedes_modify m d hkeeps
    · cases hok

theorem precedes_addPackage (m : Model) (name : String) : m.Precedes (m.addPackage name).2 := by
  rw [addPackage]
  split <;> exact .refl m

theorem precedes_addTypeParameter {owner : DeclId} {name : String} {variance : Variance}
    (hok : m.addTypeParameter owner name variance = .ok (p, m')) : m.Precedes m' := by
  rw [addTypeParameter] at hok
  cases howner : m.get owner with
  | error e =>
    rw [howner] at hok
    cases hok
  | ok decl =>
    rw [howner] at hok
    obtain ⟨-, rfl⟩ := Prod.mk.inj (Except.ok.inj hok)
    exact (precedes_add m _).trans (precedes_modify _ _ fun old => ⟨rfl, List.subset_append_left ..⟩)

theorem precedes_perform {call : Call} {answer : Answer} (hok : call.perform m = .ok (answer, m')) :
    m.Precedes m' := by
  cases call with
  | addPackage name =>
    obtain ⟨-, rfl⟩ := Prod.mk.inj (Except.ok.inj hok)
    exact precedes_addPackage m name
  | addTypeParameter owner name variance =>
    rw [Call.perform] at hok
    cases hadded : m.addTypeParameter owner name variance with
    | error e =>
      rw [hadded] at hok
      cases hok
    | ok added =>
      rw [hadded] at hok
      obtain ⟨-, rfl⟩ := Prod.mk.inj (Except.ok.inj hok)
      exact precedes_addTypeParameter hadded
  | setSelfType | setExtended | addSatisfied | setAliasTarget =>
    exact precedes_change (eq_ok_of_map_done hok) fun _ => ⟨rfl, List.Subset.refl _⟩
  | _ =>
    obtain ⟨-, rfl⟩ := Prod.mk.inj (Except.ok.inj hok)
    exact precedes_add m _

theorem precedes_buildAll (m : Model) (calls : List Call) : m.Precedes (m.buildAll calls) := by
  induction calls generalizing m with
  | nil => exact .refl m
  | cons call calls ih =>
    have hcall : m.Precedes (call.inPlace.runOn m).2 := by
      rw [inPlace_eq]
      cases hperform : call.perform m with
      | error e => exact .refl m
      | ok r => exact precedes_perform hperform
    exact hcall.trans (ih _)

/-! ## Types -/

/-- A type made by the model or by one that it was before, of types made in this way. -/
inductive HasMade (m : Model) : Ty → Prop
  | apply {earlier : Model} {d : DeclId} {args : List Ty} {t : Ty} (hearlier : earlier.Precedes m)
      (hargs : ∀ u ∈ args, HasMade m u) (h : earlier.apply d args = .ok t) : HasMade m t
  | paramType {earlier : Model} {p : DeclId} {t : Ty} (hearlier : earlier.Precedes m)
      (h : earlier.paramType p = .ok t) : HasMade m t
  | typeOf {earlier : Model} (hearlier : earlier.Precedes m) (d : DeclId) : HasMade m (earlier.typeOf d)
  | unite {ms : List Ty} (h : ∀ u ∈ ms, HasMade m u) : HasMade m (Ty.unite ms)
  | intersect {ms : List Ty} (h : ∀ u ∈ ms, HasMade m u) : HasMade m (Ty.intersect ms)

/-- A known type parameter. -/
def IsParameter (m : Model) (p : DeclId) : Prop := ∃ decl, m.get? p = some decl ∧ decl.kind = .typeParameter

/-- A known declaration of another kind. -/
def IsDeclared (m : Model) (d : DeclId) : Prop := ∃ decl, m.get? d = some decl ∧ decl.kind ≠ .typeParameter

theorem Precedes.isParameter (h : m.Precedes m') (hget : m.get? d = some decl) (hkind : decl.kind = .typeParameter) :
    m'.IsParameter d := by
  obtain ⟨decl', hget', hkind', -⟩ := h d decl hget
  exact ⟨decl', hget', hkind'.trans hkind⟩

theorem Precedes.isDeclared (h : m.Precedes m') (hget : m.get? d = some decl) (hkind : decl.kind ≠ .typeParameter) :
    m'.IsDeclared d := by
  obtain ⟨decl', hget', hkind', -⟩ := h d decl hget
  exact ⟨decl', hget', hkind' ▸ hkind⟩

theorem Disciplined.isParameter (hm : m.Disciplined) (d : DeclId) (hp : p ∈ m.typeParametersOf d) :
    m.IsParameter p := by
  obtain ⟨param, hparam, hkind, -⟩ := hm.parameters d p hp
  exact ⟨param, hparam, hkind⟩

theorem composed_typeOf (hm : ∀ d, ∀ p ∈ m.typeParametersOf d, m.IsParameter p) {earlier : Model}
    (h : earlier.Precedes m) (d : DeclId) : (earlier.typeOf d).Composed m.IsParameter m.IsDeclared Ty.Members := by
  unfold typeOf
  split
  · next decl hget =>
    split
    · next hkind => exact .param (h.isParameter hget hkind)
    · next hkind =>
      obtain ⟨decl', hget', -, hparameters⟩ := h d decl hget
      refine .applied (h.isDeclared hget hkind) (List.forall_mem_map.2 fun p hp => ?_)
      exact .param (hm d p (typeParametersOf_of_get?_eq_some hget' ▸ hparameters hp))
  · exact .nothing

/-- **What has been made is over what is declared**, and unions and intersections have members that belong in them. -/
theorem HasMade.composed (hm : ∀ d, ∀ p ∈ m.typeParametersOf d, m.IsParameter p) (h : m.HasMade t) :
    t.Composed m.IsParameter m.IsDeclared Ty.Members := by
  induction h with
  | apply hearlier _ h ih =>
    obtain ⟨rfl, decl, hget, hgeneric, -⟩ := of_apply h
    have hkind : decl.kind ≠ .typeParameter := fun hkind => by simp [hkind, DeclKind.isGeneric] at hgeneric
    exact .applied (hearlier.isDeclared hget hkind) ih
  | paramType hearlier h =>
    obtain ⟨rfl, decl, hget, hkind⟩ := of_paramType h
    exact .param (hearlier.isParameter hget hkind)
  | typeOf hearlier d => exact composed_typeOf hm hearlier d
  | unite _ ih => exact .unite ih
  | intersect _ ih => exact .intersect ih

end SemCheck.Model
