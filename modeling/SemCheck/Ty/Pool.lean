import SemCheck.Ty.InnerFirst
import SemCheck.Ty.Substitution

/-!
# Pools of types

A pool keeps one object for each type that goes through it. A type made of kept parts is told from others, or found
equal to them, without a walk through it, however often its parts are shared.

`TyPool.substitute` replaces parameters in this way, and finds the image of every part once. Main statement: the result
is that of `Ty.substitute` (`substitute_fst`).
-/

namespace SemCheck

structure TyPool where
  types : KeySet Ty := .empty

namespace TyPool

/-- The type itself, as the object that the pool keeps for it. A type without parts is as good as any other copy. -/
def share (pool : TyPool) (t : Ty) : Ty × TyPool :=
  if t.parts.isEmpty then (t, pool)
  else
    match pool.types.find? id t with
    | some u => (u, pool)
    | none => (t, ⟨pool.types.insert t⟩)

@[simp] theorem share_fst (pool : TyPool) (t : Ty) : (pool.share t).1 = t := by
  unfold share
  split
  · rfl
  · split
    · next u h => exact KeyTable.ix_of_find?_eq_some id h
    · rfl

end TyPool

/-! ## Replacing parameters part by part -/

/-- A type and what becomes of it. -/
structure Image (s : Substitution) where
  source : Ty
  target : Ty
  target_eq : target = source.replaceParams s

/-- A replacement under way: the images found so far. -/
structure Replacement (s : Substitution) where
  pool : TyPool
  images : KeyTable (Image s) := .empty

namespace Replacement

variable {s : Substitution}

/-- The image of a type; one that has been found is not built again. -/
def image (r : Replacement s) (t : Ty) : { u : Ty // u = t.replaceParams s } :=
  match h : r.images.find? Image.source t with
  | some i => ⟨i.target, by rw [i.target_eq, KeyTable.ix_of_find?_eq_some _ h]⟩
  | none => ⟨t.replaceParams s, rfl⟩

/-- Adds the image of `t`, which is built from those of its parts. -/
def add (r : Replacement s) (t : Ty) : Replacement s :=
  let u : { u : Ty // u = t.replaceParams s } :=
    match t with
    | .applied d args =>
      ⟨.applied d (args.map fun a => (r.image a).1), by simp [Ty.replaceParams, Ty.replaceParamsOf_eq, (r.image _).2]⟩
    | .union members =>
      ⟨.unite (members.map fun a => (r.image a).1), by simp [Ty.replaceParams, Ty.replaceParamsOf_eq, (r.image _).2]⟩
    | .intersection members =>
      ⟨.intersect (members.map fun a => (r.image a).1),
        by simp [Ty.replaceParams, Ty.replaceParamsOf_eq, (r.image _).2]⟩
    | t => ⟨t.replaceParams s, rfl⟩
  let shared := r.pool.share u
  { pool := shared.2
    images := r.images.insert Image.source ⟨t, shared.1, by rw [TyPool.share_fst, u.2]⟩ }

/-- Finds the images of a type and of everything in it. -/
def cover (t : Ty) (r : Replacement s) : Replacement s :=
  Ty.innerFirst (fun t r => (r.images.find? Image.source t).isSome) (fun t r => r.add t) t r

end Replacement

/-- `t` with its parameters replaced, as an object of the pool. -/
def TyPool.substitute (pool : TyPool) (s : Substitution) (t : Ty) : Ty × TyPool :=
  if s.isEmpty then (t, pool)
  else
    let r : Replacement s := Replacement.cover t { pool }
    ((r.image t).1, r.pool)

@[simp] theorem TyPool.substitute_fst (pool : TyPool) (s : Substitution) (t : Ty) :
    (pool.substitute s t).1 = t.substitute s := by
  unfold substitute Ty.substitute
  split
  · rfl
  · exact (Replacement.image _ t).2

end SemCheck
