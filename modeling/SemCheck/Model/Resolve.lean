import SemCheck.Model.Alias

/-!
# Expanding aliases part by part

`Model.resolve` comes to the same as `resolveAliases` and keeps the types it makes in the model. A type in which no
alias is applied is *plain*: what it is resolved to depends on nothing but itself, so it is found once and looked up
from then on. Main statement: `resolve_fst`.
-/

namespace SemCheck

open Ty (rebuild rebuildAll)

/-! ## Plain types -/

/-- What a plain type is resolved to, whatever becomes of aliases and whatever the guard is. -/
abbrev PlainImage (m : Model) (t : Ty) := { u : Ty // ∀ expand g, rebuild (m.resolveNode expand) t g = (u, g) }

/-- The images of types that are all known to be plain. -/
def PlainImage.all? {m : Model} (known? : (t : Ty) → Option (PlainImage m t)) (ts : List Ty) :
    Option { us : List Ty // ∀ expand g, rebuildAll (m.resolveNode expand) ts g = (us, g) } :=
  if h : ts.all fun t => (known? t).isSome then
    some ⟨ts.map fun t => ((known? t).map Subtype.val).getD t, fun expand g =>
      Ty.rebuildAll_of_forall _ fun t ht => by
        obtain ⟨u, hu⟩ := Option.isSome_iff_exists.1 (List.all_eq_true.1 h t ht)
        simp [hu, u.2]⟩
  else none

/-- The image of a type whose parts are known to be plain, if it is plain itself. -/
def PlainImage.build? {m : Model} (known? : (t : Ty) → Option (PlainImage m t)) : (t : Ty) → Option (PlainImage m t)
  | .applied d args =>
    if h : m.aliasTarget? d = none then
      (all? known? args).map fun us =>
        ⟨.applied d us.1, fun expand g => by simp [rebuild, us.2, Model.resolveNode, h]⟩
    else none
  | .union members =>
    (all? known? members).map fun us => ⟨.unite us.1, fun expand g => by simp [rebuild, us.2, Model.resolveNode]⟩
  | .intersection members =>
    (all? known? members).map fun us => ⟨.intersect us.1, fun expand g => by simp [rebuild, us.2, Model.resolveNode]⟩
  | .param d => some ⟨.param d, fun _ _ => rfl⟩
  | .nothing => some ⟨.nothing, fun _ _ => rfl⟩
  | .unknown n => some ⟨.unknown n, fun _ _ => rfl⟩

/-- What has been found out about a type: its image, if it is plain. -/
structure Survey (m : Model) where
  source : Ty
  image? : Option (PlainImage m source)

/-- All that has been found out, and the types kept. -/
structure Surveys (m : Model) where
  pool : TyPool
  found : KeyTable (Survey m) := .empty

namespace Surveys

variable {m : Model}

/-- The image of a type that is known to be plain. -/
def plain? (s : Surveys m) (t : Ty) : Option (PlainImage m t) :=
  match h : s.found.find? Survey.source t with
  | some survey => survey.image?.map fun u => ⟨u.1, by rw [← KeyTable.ix_of_find?_eq_some _ h]; exact u.2⟩
  | none => if t.parts.isEmpty then PlainImage.build? (fun _ => none) t else none

/-- Finds out about a type from what is known of its parts. -/
def add (s : Surveys m) (t : Ty) : Surveys m :=
  match PlainImage.build? s.plain? t with
  | none => { s with found := s.found.insert Survey.source ⟨t, none⟩ }
  | some u =>
    let shared := s.pool.share u.1
    { pool := shared.2
      found := s.found.insert Survey.source ⟨t, some ⟨shared.1, by rw [TyPool.share_fst]; exact u.2⟩⟩ }

/-- Finds out about a type and everything in it. -/
def cover (t : Ty) (s : Surveys m) : Surveys m :=
  Ty.innerFirst (fun t s => (s.found.find? Survey.source t).isSome) (fun t s => s.add t) t s

end Surveys

/-! ## Resolution -/

/-- A resolution under way. -/
structure Resolution (m : Model) where
  guard : Guard DeclId
  surveys : Surveys m

namespace Resolution

variable {m : Model}

/-- Keeps a type in the pool. -/
def share (r : Resolution m) (t : Ty) : Ty × Resolution m :=
  let (t, pool) := r.surveys.pool.share t
  (t, { r with surveys := { r.surveys with pool } })

/-- The result for a plain type. -/
def known? (t : Ty) (r : Resolution m) : Option Ty := (r.surveys.plain? t).map Subtype.val

/-- What is left of a resolution without what it has found out. -/
def view (p : Ty × Resolution m) : Ty × Guard DeclId := (p.1, p.2.guard)

@[simp] theorem view_share (r : Resolution m) (t : Ty) : view (r.share t) = (t, r.guard) := by simp [view, share]

theorem rebuild_of_known?_eq_some (expand : Ty → Guard DeclId → Ty × Guard DeclId) (t : Ty) (r : Resolution m) (u : Ty)
    (h : known? t r = some u) : rebuild (m.resolveNode expand) t r.guard = (u, r.guard) := by
  obtain ⟨image, _, rfl⟩ := Option.map_eq_some_iff.1 h
  exact image.2 expand r.guard

end Resolution

namespace Model

variable (m : Model)

/-- `resolveNode` with what has been found out. -/
def resolveKnownNode (expand : Ty → Resolution m → Ty × Resolution m) : Ty → Resolution m → Ty × Resolution m
  | .applied d args, r =>
    match m.aliasTarget? d with
    | none => r.share (.applied d args)
    | some target =>
      let body (g : Guard DeclId) : (Ty × Surveys m) × Guard DeclId :=
        let (t, pool) := r.surveys.pool.substitute (m.argumentMap d args) target
        let (t, r) := expand t ⟨g, { r.surveys with pool }⟩
        ((t, r.surveys), r.guard)
      match r.guard.scope d body with
      | (.ok (resolved, surveys), guard) => (resolved, { guard, surveys })
      | (.error _, guard) => { r with guard }.share (.applied d args)
  | .union members, r => r.share (.unite members)
  | .intersection members, r => r.share (.intersect members)
  | t, r => (t, r)

/-- Resolves a type after a survey of it. -/
def resolveSurveyed (expand : Ty → Resolution m → Ty × Resolution m) (t : Ty) (r : Resolution m) : Ty × Resolution m :=
  Ty.rebuildFrames (m.resolveKnownNode expand) Resolution.known? t { r with surveys := r.surveys.cover t }

/-- `resolveWithin` with what has been found out. -/
def resolveKnownWithin : Nat → Ty → Resolution m → Ty × Resolution m
  | 0 => m.resolveSurveyed fun t r => (t, r)
  | room + 1 => m.resolveSurveyed (resolveKnownWithin room)

/-- The type with all aliases expanded, kept. -/
def resolve (t : Ty) : Ty × Model :=
  let (t, r) := m.resolveKnownWithin Limits.aliasResolutionDepth t ⟨.ofProfile .aliasResolution, { pool := m.types }⟩
  (t, { m with types := r.surveys.pool })

open Resolution (view)

variable {m} {expand : Ty → Resolution m → Ty × Resolution m} {expand' : Ty → Guard DeclId → Ty × Guard DeclId}

theorem view_resolveKnownNode (h : ∀ t r, view (expand t r) = expand' t r.guard) (t : Ty) (r : Resolution m) :
    view (m.resolveKnownNode expand t r) = m.resolveNode expand' t r.guard := by
  cases t with
  | applied d args =>
    cases ha : m.aliasTarget? d with
    | none => simp [resolveKnownNode, resolveNode, ha]
    | some target =>
      rcases hg : r.guard.enter d with ⟨_ | _, g⟩
      · have key := h (r.surveys.pool.substitute (m.argumentMap d args) target).1
          ⟨g, { r.surveys with pool := (r.surveys.pool.substitute (m.argumentMap d args) target).2 }⟩
        rw [TyPool.substitute_fst] at key
        simp [resolveKnownNode, resolveNode, ha, Guard.scope, hg, ← key, view]
      all_goals simp [resolveKnownNode, resolveNode, ha, Guard.scope, hg]
  | union members => simp [resolveKnownNode, resolveNode]
  | intersection members => simp [resolveKnownNode, resolveNode]
  | _ => rfl

theorem view_resolveSurveyed (h : ∀ t r, view (expand t r) = expand' t r.guard) (t : Ty) (r : Resolution m) :
    view (m.resolveSurveyed expand t r) = rebuild (m.resolveNode expand') t r.guard :=
  Ty.rebuildFrames_map Resolution.guard (view_resolveKnownNode h) (Resolution.rebuild_of_known?_eq_some expand') t
    { r with surveys := r.surveys.cover t }

theorem view_resolveKnownWithin (room : Nat) (t : Ty) (r : Resolution m) :
    view (m.resolveKnownWithin room t r) = m.resolveWithin room t r.guard := by
  induction room generalizing t r with
  | zero => exact view_resolveSurveyed (fun _ _ => rfl) t r
  | succ room ih => exact view_resolveSurveyed ih t r

/-- **What has been found out changes nothing**. -/
theorem resolve_fst (m : Model) (t : Ty) : (m.resolve t).1 = m.resolveAliases t :=
  congrArg Prod.fst (view_resolveKnownWithin Limits.aliasResolutionDepth t
    ⟨.ofProfile .aliasResolution, { pool := m.types }⟩)

end Model

end SemCheck
