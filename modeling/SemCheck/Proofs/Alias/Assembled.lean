import SemCheck.Model.Build
import SemCheck.Model.Resolve
import SemCheck.Proofs.Alias.Guarded

/-!
# Types as they are made

Types that a model makes of types made before (`Ty.Built`), and more generally types whose unions and intersections are
not put together by hand (`Ty.Assembled`), are normal.
-/

namespace SemCheck

/-- A type made of types that have been made, each by a model as it was at the time. -/
inductive Ty.Built : Ty → Prop
  | apply {m : Model} {d : DeclId} {args : List Ty} {t : Ty} (hargs : ∀ u ∈ args, Built u) (h : m.apply d args = .ok t) :
      Built t
  | paramType {m : Model} {p : DeclId} {t : Ty} (h : m.paramType p = .ok t) : Built t
  | typeOf (m : Model) (d : DeclId) : Built (m.typeOf d)
  | unite {ms : List Ty} (h : ∀ u ∈ ms, Built u) : Built (Ty.unite ms)
  | intersect {ms : List Ty} (h : ∀ u ∈ ms, Built u) : Built (Ty.intersect ms)
  | substitute (m : Model) {s : Substitution} {t : Ty} (hs : ∀ p u, s.get? p = some u → Built u) (h : Built t) :
      Built (m.substitute s t).1
  | resolve {m : Model} {t : Ty} (hm : ∀ d target, m.aliasTarget? d = some target → Built target) (h : Built t) :
      Built (m.resolve t).1

namespace Model

variable {m : Model} {d p : DeclId} {args : List Ty} {t : Ty}

/-- What can be applied, to how many arguments, and to what it is applied. -/
theorem of_apply (h : m.apply d args = .ok t) :
    t = .applied d args ∧
      ∃ decl, m.get? d = some decl ∧ decl.kind.isGeneric = true ∧ decl.typeParameters.length = args.length := by
  unfold apply get at h
  cases hget : m.get? d with
  | none =>
    rw [hget] at h
    exact absurd h nofun
  | some decl =>
    simp only [hget, bind, Except.bind, pure, Except.pure, throw, throwThe, MonadExceptOf.throw] at h
    split at h
    · exact absurd h nofun
    · next hgeneric =>
      split at h
      · exact absurd h nofun
      · next hlength => exact ⟨(Except.ok.inj h).symm, decl, rfl, by simpa using hgeneric, not_not.1 hlength⟩

theorem of_paramType (h : m.paramType p = .ok t) :
    t = .param p ∧ ∃ decl, m.get? p = some decl ∧ decl.kind = .typeParameter := by
  unfold paramType get at h
  cases hget : m.get? p with
  | none =>
    rw [hget] at h
    exact absurd h nofun
  | some decl =>
    simp only [hget, bind, Except.bind, pure, Except.pure, throw, throwThe, MonadExceptOf.throw] at h
    split at h
    · exact absurd h nofun
    · next hkind => exact ⟨(Except.ok.inj h).symm, decl, rfl, not_not.1 hkind⟩

theorem substitute_fst (m : Model) (s : Substitution) (t : Ty) : (m.substitute s t).1 = t.substitute s :=
  TyPool.substitute_fst m.types s t

end Model

/-- A type of which no union or intersection has been put together by hand, but all have been made by `unite` and
`intersect`. -/
inductive Ty.Assembled : Ty → Prop
  | nothing : Assembled .nothing
  | unknown (n : Nat) : Assembled (.unknown n)
  | param (p : DeclId) : Assembled (.param p)
  | applied (d : DeclId) {args : List Ty} (hargs : ∀ u ∈ args, Assembled u) : Assembled (.applied d args)
  | unite {ms : List Ty} (h : ∀ u ∈ ms, Assembled u) : Assembled (Ty.unite ms)
  | intersect {ms : List Ty} (h : ∀ u ∈ ms, Assembled u) : Assembled (Ty.intersect ms)
  | substitute (m : Model) {s : Substitution} {t : Ty} (hs : ∀ p u, s.get? p = some u → Assembled u)
      (h : Assembled t) : Assembled (m.substitute s t).1
  | resolve {m : Model} {t : Ty} (hm : ∀ d target, m.aliasTarget? d = some target → Assembled target)
      (h : Assembled t) : Assembled (m.resolve t).1

theorem Model.assembled_typeOf (m : Model) (d : DeclId) : (m.typeOf d).Assembled := by
  unfold typeOf
  split
  · split
    · exact .param d
    · exact .applied d (List.forall_mem_map.2 fun p _ => .param p)
  · exact .nothing

theorem Ty.Built.assembled {t : Ty} (h : t.Built) : t.Assembled := by
  induction h with
  | apply _ h ih =>
    rw [(Model.of_apply h).1]
    exact .applied _ ih
  | paramType h =>
    rw [(Model.of_paramType h).1]
    exact .param _
  | typeOf m d => exact m.assembled_typeOf d
  | unite _ ih => exact .unite ih
  | intersect _ ih => exact .intersect ih
  | substitute m _ _ ihs ih => exact .substitute m ihs ih
  | resolve _ _ ihm ih => exact .resolve ihm ih

/-- **Whatever is made is normal**. -/
theorem Ty.Assembled.normal {t : Ty} (h : t.Assembled) : t.Normal := by
  induction h with
  | nothing => exact .nothing
  | unknown n => exact .unknown n
  | param p => exact .param p
  | applied d _ ih => exact .applied d ih
  | unite _ ih => exact .unite ih
  | intersect _ ih => exact .intersect ih
  | substitute m _ _ ihs ih =>
    rw [Model.substitute_fst, ih.substitute_eq, Ty.replaceParams_eq]
    exact (Ty.keeps_replacement ihs).normal _
  | resolve _ _ ihm _ =>
    rw [Model.resolve_fst]
    exact Model.normal_resolveWithin ihm _ _ _

theorem Ty.Built.normal {t : Ty} (h : t.Built) : t.Normal := h.assembled.normal

end SemCheck
