import SemCheck.Proofs.Ty.Normal
import SemCheck.TypeTable

/-!
# Types by their handles

A table of types that is only asked for applications, parameter references, unions and intersections of handles that
it has issued is *sound* (`TypeTable.Sound`): no shape is in it twice, the handles in a shape are older than the shape,
and unions and intersections have members as they are left by flattening. One request keeps a table sound
(`Sound.answer`), because all requests before did: flattening opens one level only.

Main statements: a handle stands for one type for ever, and two handles for the same type are equal
(`canonical_answerAll`). What is done with handles is done to the types behind them (`Sound.unfold_answer`), so that
types may be taken for trees.
-/

namespace SemCheck

/-! ## Shapes -/

namespace Shape

variable {α : Type}

/-- The handles in a shape. -/
def parts : Shape → List TypeId
  | nothing | param _ => []
  | applied _ ts | union ts | intersection ts => ts

/-- Whether a shape is a union or an intersection. -/
def isJoint : Shape → Bool
  | union _ | intersection _ => true
  | _ => false

/-- The type of a shape, from the types of the handles in it. -/
def toTy (f : TypeId → Ty) : Shape → Ty
  | nothing => .nothing
  | param d => .param d
  | applied d ts => .applied d (ts.map f)
  | union ts => .union (ts.map f)
  | intersection ts => .intersection (ts.map f)

/-- A map that tells the handles in two lists apart tells the lists apart. -/
theorem eq_of_map_eq {f : TypeId → Ty} {ts us : List TypeId} (h : ∀ t ∈ ts, ∀ u ∈ us, f t = f u → t = u)
    (heq : ts.map f = us.map f) : ts = us := by
  induction ts generalizing us with
  | nil => exact (List.map_eq_nil_iff.1 heq.symm).symm
  | cons t ts ih =>
    obtain ⟨u, us, rfl, hu, hus⟩ := List.map_eq_cons_iff.1 heq.symm
    have ht := h t List.mem_cons_self u List.mem_cons_self hu.symm
    have hts := ih (fun x hx y hy => h x (List.mem_cons_of_mem _ hx) y (List.mem_cons_of_mem _ hy)) hus.symm
    rw [ht, hts]

theorem eq_of_toTy_eq {f : TypeId → Ty} {s s' : Shape} (h : ∀ t ∈ s.parts, ∀ u ∈ s'.parts, f t = f u → t = u)
    (heq : s.toTy f = s'.toTy f) : s = s' := by
  cases s <;> cases s' <;> simp only [toTy, reduceCtorEq, Ty.applied.injEq, Ty.param.injEq, Ty.union.injEq,
    Ty.intersection.injEq] at heq
  case nothing.nothing => rfl
  case param.param => rw [heq]
  case applied.applied => exact congrArg₂ applied heq.1 (eq_of_map_eq h heq.2)
  case union.union => exact congrArg union (eq_of_map_eq h heq)
  case intersection.intersection => exact congrArg intersection (eq_of_map_eq h heq)

theorem toTy_congr {f g : TypeId → Ty} {s : Shape} (h : ∀ t ∈ s.parts, f t = g t) : s.toTy f = s.toTy g := by
  cases s with
  | nothing | param => rfl
  | applied d ts => exact congrArg (Ty.applied d) (List.map_congr_left h)
  | union ts => exact congrArg Ty.union (List.map_congr_left h)
  | intersection ts => exact congrArg Ty.intersection (List.map_congr_left h)

end Shape

namespace Ty.Joint

/-- The shape of a union or intersection of handles. -/
def shape : Joint → List TypeId → Shape
  | union => .union
  | intersection => .intersection

def members? : Joint → Shape → Option (List TypeId)
  | union => Shape.unionMembers?
  | intersection => Shape.intersectionMembers?

theorem members?_eq_some_iff {j : Joint} {s : Shape} {ms : List TypeId} : j.members? s = some ms ↔ s = j.shape ms := by
  cases j <;> cases s <;> simp [members?, shape, Shape.unionMembers?, Shape.intersectionMembers?]

theorem parts_shape (j : Joint) (ms : List TypeId) : (j.shape ms).parts = ms := by cases j <;> rfl

theorem shape_injective {j j' : Joint} {ms ms' : List TypeId} (h : j.shape ms = j'.shape ms') : j = j' ∧ ms = ms' := by
  cases j <;> cases j' <;> simp_all [shape]

end Ty.Joint

namespace TypeTable

open Ty (Joint)

variable {table table' : TypeTable} {t u : TypeId} {s : Shape} {ms : List TypeId} {j : Joint}

/-! ## Looking up and interning -/

/-- The handle has been issued. -/
def Has (table : TypeTable) (t : TypeId) : Prop := t.index < table.size

/-- The table with a further shape. -/
def push (table : TypeTable) (s : Shape) : TypeTable := ⟨table.shapes.push s⟩

theorem size_push : (table.push s).size = table.size + 1 := Array.size_push ..

theorem isSome_lookup_iff : (table.lookup t).isSome ↔ table.Has t := by
  simp [lookup, Has, size]

theorem has_of_lookup (h : table.lookup t = some s) : table.Has t := isSome_lookup_iff.1 (by simp [h])

theorem lookup_push : (table.push s).lookup t = if t.index = table.size then some s else table.lookup t :=
  Array.getElem?_push

theorem lookup_push_of_has (h : table.Has t) : (table.push s).lookup t = table.lookup t := by
  rw [lookup_push, if_neg (Nat.ne_of_lt h)]

theorem new_or_old_of_lookup_push {s' : Shape} (h : (table.push s).lookup t = some s') :
    t = ⟨table.size⟩ ∧ s' = s ∨ table.lookup t = some s' := by
  rw [lookup_push] at h
  split at h
  · next hsize => exact Or.inl ⟨congrArg TypeId.mk hsize, (Option.some.inj h).symm⟩
  · exact Or.inr h

/-- A shape that a table does not have may be put at its end without repetition. -/
theorem unique_push (hunique : ∀ t u s, table.lookup t = some s → table.lookup u = some s → t = u)
    (hnew : ∀ t, table.lookup t ≠ some s) (t u : TypeId) (s' : Shape) (ht : (table.push s).lookup t = some s')
    (hu : (table.push s).lookup u = some s') : t = u := by
  rcases new_or_old_of_lookup_push ht with ⟨rfl, rfl⟩ | ht
  · rcases new_or_old_of_lookup_push hu with ⟨rfl, -⟩ | hu
    · rfl
    · exact absurd hu (hnew u)
  · rcases new_or_old_of_lookup_push hu with ⟨-, heq⟩ | hu
    · exact absurd (heq ▸ ht) (hnew t)
    · exact hunique t u s' ht hu

/-- A shape is found in the table or put at its end. -/
theorem intern_cases (table : TypeTable) (s : Shape) :
    (∃ t, table.lookup t = some s ∧ table.intern s = (t, table)) ∨
      (∀ t, table.lookup t ≠ some s) ∧ table.intern s = (⟨table.size⟩, table.push s) := by
  unfold intern
  cases hidx : table.shapes.idxOf? s with
  | some i =>
    obtain ⟨k, hk, rfl⟩ := Option.map_eq_some_iff.1 hidx
    have heq := (Array.finIdxOf?_eq_some_iff.1 hk).1
    exact Or.inl ⟨⟨k⟩, Array.getElem?_eq_some_iff.2 ⟨k.isLt, heq⟩, rfl⟩
  | none =>
    refine Or.inr ⟨fun t ht => ?_, rfl⟩
    exact Array.idxOf?_eq_none_iff.1 hidx (Array.mem_of_getElem? ht)

/-- A shape that the table has is not issued anew. -/
theorem intern_of_lookup (hunique : ∀ t u s, table.lookup t = some s → table.lookup u = some s → t = u)
    (h : table.lookup t = some s) : table.intern s = (t, table) := by
  rcases intern_cases table s with ⟨u, hu, heq⟩ | ⟨hnew, -⟩
  · rw [heq, hunique t u s h hu]
  · exact absurd h (hnew t)

theorem lookup_intern (table : TypeTable) (s : Shape) : (table.intern s).2.lookup (table.intern s).1 = some s := by
  rcases intern_cases table s with ⟨t, ht, heq⟩ | ⟨-, heq⟩
  · rwa [heq]
  · rw [heq, lookup_push, if_pos rfl]

/-! ## Requests -/

/-- What a table can be asked to hold. -/
inductive Request
  | intern (shape : Shape)
  | union (members : List TypeId)
  | intersection (members : List TypeId)

/-- The handle that a request is answered by, and the table after it. -/
def answer (table : TypeTable) : Request → TypeId × TypeTable
  | .intern s => table.intern s
  | .union ms => table.union ms
  | .intersection ms => table.intersection ms

/-- A request that names issued handles only, and leaves it to the table to make unions and intersections. -/
def Proper (table : TypeTable) : Request → Prop
  | .intern s => s.isJoint = false ∧ ∀ t ∈ s.parts, table.Has t
  | .union ms | .intersection ms => ∀ t ∈ ms, table.Has t

/-- The table after requests, one after the other. -/
def answerAll (table : TypeTable) : List Request → TypeTable
  | [] => table
  | r :: rs => answerAll (table.answer r).2 rs

/-- Requests of which each is proper when its turn comes. -/
def AllProper (table : TypeTable) : List Request → Prop
  | [] => True
  | r :: rs => table.Proper r ∧ AllProper (table.answer r).2 rs

instance (table : TypeTable) (t : TypeId) : Decidable (table.Has t) := inferInstanceAs (Decidable (_ < _))

instance (table : TypeTable) : (r : Request) → Decidable (table.Proper r)
  | .intern _ => inferInstanceAs (Decidable (_ ∧ _))
  | .union _ | .intersection _ => inferInstanceAs (Decidable (∀ _ ∈ _, _))

instance decidableAllProper : (table : TypeTable) → (rs : List Request) → Decidable (table.AllProper rs)
  | _, [] => .isTrue trivial
  | table, _ :: rs => @instDecidableAnd _ _ _ (decidableAllProper (table.answer _).2 rs)

/-! ## Sound tables -/

/-- Members as they are left by flattening, and enough of them. -/
structure Members (table : TypeTable) (j : Joint) (ms : List TypeId) : Prop where
  two : 2 ≤ ms.length
  nodup : ms.Nodup
  members : ∀ t ∈ ms, t ≠ .nothing ∧ ∀ us, table.lookup t ≠ some (j.shape us)

structure Sound (table : TypeTable) : Prop where
  bottom : table.lookup .nothing = some .nothing
  unique : ∀ t u s, table.lookup t = some s → table.lookup u = some s → t = u
  earlier : ∀ t s, table.lookup t = some s → ∀ u ∈ s.parts, u.index < t.index
  members : ∀ j t ms, table.lookup t = some (j.shape ms) → table.Members j ms

/-- The table `table'` has all that `table` has, at the same places. -/
def Extends (table table' : TypeTable) : Prop := ∀ t s, table.lookup t = some s → table'.lookup t = some s

theorem Extends.refl (table : TypeTable) : table.Extends table := fun _ _ => id

theorem Extends.trans {table'' : TypeTable} (h : table.Extends table') (h' : table'.Extends table'') :
    table.Extends table'' := fun t s ht => h' t s (h t s ht)

theorem extends_push (table : TypeTable) (s : Shape) : table.Extends (table.push s) := fun _ _ ht =>
  (lookup_push_of_has (has_of_lookup ht)).trans ht

theorem sound_new : new.Sound := by
  have hone (t : TypeId) (s : Shape) (h : new.lookup t = some s) : t = .nothing ∧ s = .nothing := by
    obtain ⟨hlt, heq⟩ := Array.getElem?_eq_some_iff.1 h
    obtain ⟨i⟩ := t
    obtain rfl := Nat.lt_one_iff.1 hlt
    exact ⟨rfl, heq.symm⟩
  constructor
  case bottom => rfl
  case unique => exact fun t u s ht hu => (hone t s ht).1.trans (hone u s hu).1.symm
  case earlier =>
    intro t s ht u hu
    rw [(hone t s ht).2] at hu
    exact absurd hu List.not_mem_nil
  case members =>
    intro j t ms ht
    cases j <;> exact absurd (hone t _ ht).2 nofun

theorem Members.push (h : table.Members j ms) (hms : ∀ t ∈ ms, table.Has t) (s : Shape) :
    (table.push s).Members j ms where
  two := h.two
  nodup := h.nodup
  members t ht := by
    rw [lookup_push_of_has (hms t ht)]
    exact h.members t ht

/-- The parts of a shape in a sound table have been issued. -/
theorem Sound.has_of_mem_parts (h : table.Sound) (hs : table.lookup t = some s) (hu : u ∈ s.parts) : table.Has u :=
  Nat.lt_trans (h.earlier t s hs u hu) (has_of_lookup hs)

/-- A new shape over issued handles keeps a table sound. -/
theorem Sound.push (h : table.Sound) (hnew : ∀ t, table.lookup t ≠ some s) (hparts : ∀ t ∈ s.parts, table.Has t)
    (hmembers : ∀ j ms, s = j.shape ms → table.Members j ms) : (table.push s).Sound := by
  constructor
  case bottom => exact extends_push table s _ _ h.bottom
  case unique => exact unique_push h.unique hnew
  case earlier =>
    intro t s' ht u hu
    rcases new_or_old_of_lookup_push ht with ⟨rfl, rfl⟩ | ht
    · exact hparts u hu
    · exact h.earlier t s' ht u hu
  case members =>
    intro j t ms ht
    rcases new_or_old_of_lookup_push ht with ⟨-, rfl⟩ | ht
    · exact (hmembers j ms rfl).push (fun u hu => hparts u (by rwa [j.parts_shape])) _
    · exact (h.members j t ms ht).push (fun u hu => h.has_of_mem_parts ht (by rwa [j.parts_shape])) _

/-! ## What an answer keeps -/

/-- A sound table, and a handle that it has issued after `table` or had before. -/
structure Answers (table : TypeTable) (r : TypeId × TypeTable) : Prop where
  sound : r.2.Sound
  has : r.2.Has r.1
  grows : r.2 = table ∨ r.1 = ⟨table.size⟩ ∧ ∃ s, r.2 = table.push s

theorem Sound.has_nothing (h : table.Sound) : table.Has .nothing := has_of_lookup h.bottom

theorem Sound.intern (h : table.Sound) (hparts : ∀ t ∈ s.parts, table.Has t)
    (hmembers : ∀ j ms, s = j.shape ms → table.Members j ms) : table.Answers (table.intern s) := by
  rcases intern_cases table s with ⟨t, ht, heq⟩ | ⟨hnew, heq⟩
  · rw [heq]
    exact ⟨h, has_of_lookup ht, Or.inl rfl⟩
  · rw [heq]
    refine ⟨h.push hnew hparts hmembers, ?_, Or.inr ⟨rfl, s, rfl⟩⟩
    show table.size < (table.push s).size
    rw [size_push]
    exact Nat.lt_succ_self _

/-- The members that flattening leaves. -/
def flat (table : TypeTable) (j : Joint) (ms : List TypeId) : List TypeId :=
  flatten .nothing (fun t => table.lookup t >>= j.members?) ms

theorem inner?_eq_some_iff {us : List TypeId} :
    (table.lookup t >>= j.members?) = some us ↔ table.lookup t = some (j.shape us) := by
  rw [Option.bind_eq_bind, Option.bind_eq_some_iff]
  constructor
  · rintro ⟨s, hs, hus⟩
    rw [hs, Joint.members?_eq_some_iff.1 hus]
  · exact fun hs => ⟨_, hs, Joint.members?_eq_some_iff.2 rfl⟩

/-- One level is enough: the members of a member are no unions or intersections of that kind any more. -/
theorem Sound.mem_flat (h : table.Sound) (hms : ∀ t ∈ ms, table.Has t) (hu : u ∈ table.flat j ms) :
    table.Has u ∧ u ≠ .nothing ∧ ∀ us, table.lookup u ≠ some (j.shape us) := by
  rw [flat, flatten, distinct_eq, List.mem_eraseDups] at hu
  obtain ⟨t, ht, hu⟩ := List.mem_flatMap.1 hu
  unfold contribution at hu
  split at hu
  · next us hus =>
    have hlookup := inner?_eq_some_iff.1 hus
    exact ⟨h.has_of_mem_parts hlookup (by rwa [j.parts_shape]), (h.members j t us hlookup).members u hu⟩
  · next hnone =>
    split at hu
    · exact absurd hu List.not_mem_nil
    · next hne =>
      obtain rfl := List.mem_singleton.1 hu
      exact ⟨hms u ht, hne, fun us hus => absurd (hnone.symm.trans (inner?_eq_some_iff.2 hus)) nofun⟩

theorem Sound.collapse (h : table.Sound) (hms : ∀ t ∈ ms, table.Has t) :
    table.Answers (table.collapse j.shape (table.flat j ms)) := by
  have hflat (u : TypeId) (hu : u ∈ table.flat j ms) := h.mem_flat hms hu
  have hnodup : (table.flat j ms).Nodup := nodup_distinct _
  generalize table.flat j ms = us at hflat hnodup
  match us with
  | [] => exact ⟨h, h.has_nothing, Or.inl rfl⟩
  | [u] => exact ⟨h, (hflat u (List.mem_singleton_self u)).1, Or.inl rfl⟩
  | u :: u' :: us =>
    refine h.intern (fun t ht => (hflat t (by rwa [j.parts_shape] at ht)).1) fun j' ms' heq => ?_
    obtain ⟨rfl, rfl⟩ := Joint.shape_injective heq
    exact ⟨by simp, hnodup, fun t ht => (hflat t ht).2⟩

/-- A proper request leaves a sound table. -/
theorem Sound.answer (h : table.Sound) {r : Request} (hr : table.Proper r) : table.Answers (table.answer r) := by
  cases r with
  | intern s =>
    refine h.intern hr.2 fun j ms heq => ?_
    have hjoint := hr.1
    rw [heq] at hjoint
    cases j <;> exact absurd hjoint nofun
  | union ms => exact h.collapse (j := .union) hr
  | intersection ms =>
    show table.Answers (table.intersection ms)
    unfold TypeTable.intersection
    split
    · exact ⟨h, h.has_nothing, Or.inl rfl⟩
    · exact h.collapse (j := .intersection) hr

theorem Answers.extends {r : TypeId × TypeTable} (h : table.Answers r) : table.Extends r.2 := by
  rcases h.grows with heq | ⟨-, s, heq⟩
  · rw [heq]
    exact .refl table
  · rw [heq]
    exact extends_push table s

/-- Requests keep a table sound and take nothing out of it. -/
theorem Sound.answerAll {rs : List Request} (h : table.Sound) (hrs : table.AllProper rs) :
    (table.answerAll rs).Sound ∧ table.Extends (table.answerAll rs) := by
  induction rs generalizing table with
  | nil => exact ⟨h, .refl table⟩
  | cons r rs ih =>
    have hanswer := h.answer hrs.1
    obtain ⟨hsound, hextends⟩ := ih hanswer.sound hrs.2
    exact ⟨hsound, hanswer.extends.trans hextends⟩

/-! ## The types behind the handles -/

/-- The type behind a handle, down to `room` levels. -/
def unfoldWithin (table : TypeTable) : (room : Nat) → TypeId → Ty
  | 0, t => .unknown t.index
  | room + 1, t =>
    match table.lookup t with
    | some s => s.toTy (unfoldWithin table room)
    | none => .unknown t.index

/-- The type behind a handle. The handles in a shape are older than it, so no path is longer than the handle's
number. -/
def unfold (table : TypeTable) (t : TypeId) : Ty := table.unfoldWithin (t.index + 1) t

theorem Sound.unfoldWithin_eq (h : table.Sound) {room room' : Nat} (hroom : t.index < room) (hroom' : t.index < room') :
    table.unfoldWithin room t = table.unfoldWithin room' t := by
  induction room generalizing t room' with
  | zero => exact absurd hroom (Nat.not_lt_zero _)
  | succ room ih =>
    obtain _ | room' := room'
    · exact absurd hroom' (Nat.not_lt_zero _)
    rw [unfoldWithin, unfoldWithin]
    cases hs : table.lookup t with
    | none => rfl
    | some s =>
      refine Shape.toTy_congr fun u hu => ?_
      have hlt := h.earlier t s hs u hu
      exact ih (by omega) (by omega)

theorem Sound.unfold_eq (h : table.Sound) (hs : table.lookup t = some s) : table.unfold t = s.toTy table.unfold := by
  rw [unfold, unfoldWithin, hs]
  exact Shape.toTy_congr fun u hu => h.unfoldWithin_eq (h.earlier t s hs u hu) (Nat.lt_succ_self _)

/-- **Handles for one type are equal**: by induction on the handle, as the handles in its shape are older. -/
theorem Sound.unfold_injective (h : table.Sound) (ht : table.Has t) (hu : table.Has u)
    (heq : table.unfold t = table.unfold u) : t = u := by
  induction hn : t.index using Nat.strongRecOn generalizing t u with
  | _ n ih =>
    obtain ⟨s, hs⟩ := Option.isSome_iff_exists.1 (isSome_lookup_iff.2 ht)
    obtain ⟨s', hs'⟩ := Option.isSome_iff_exists.1 (isSome_lookup_iff.2 hu)
    rw [h.unfold_eq hs, h.unfold_eq hs'] at heq
    have hparts : ∀ x ∈ s.parts, ∀ y ∈ s'.parts, table.unfold x = table.unfold y → x = y := by
      intro x hx y hy hxy
      have hlt := h.earlier t s hs x hx
      exact ih x.index (hn ▸ hlt) (h.has_of_mem_parts hs hx) (h.has_of_mem_parts hs' hy) hxy rfl
    obtain rfl := Shape.eq_of_toTy_eq hparts heq
    exact h.unique t u s hs hs'

/-! ## Handles and types -/

theorem Sound.unfold_eq_nothing_iff (h : table.Sound) (ht : table.Has t) :
    table.unfold t = .nothing ↔ t = .nothing := by
  have hbottom : table.unfold .nothing = .nothing := h.unfold_eq h.bottom
  constructor
  · exact fun heq => h.unfold_injective ht h.has_nothing (heq.trans hbottom.symm)
  · rintro rfl
    exact hbottom

theorem Sound.inner?_unfold (h : table.Sound) (ht : table.Has t) :
    j.inner? (table.unfold t) = (table.lookup t >>= j.members?).map (List.map table.unfold) := by
  obtain ⟨s, hs⟩ := Option.isSome_iff_exists.1 (isSome_lookup_iff.2 ht)
  rw [h.unfold_eq hs, hs]
  cases j <;> cases s <;> rfl

/-- Flattening handles is flattening the types behind them. -/
theorem Sound.map_flat (h : table.Sound) (hms : ∀ t ∈ ms, table.Has t) :
    (table.flat j ms).map table.unfold = j.flat (ms.map table.unfold) := by
  have hopened : ∀ t ∈ ms,
      (contribution .nothing (fun t => table.lookup t >>= j.members?) t).map table.unfold =
        j.opened (table.unfold t) := by
    intro t ht
    rw [Joint.opened, contribution, contribution, h.inner?_unfold (hms t ht)]
    cases table.lookup t >>= j.members? with
    | some us => rfl
    | none =>
      by_cases hnothing : t = .nothing
      · simp [hnothing, (h.unfold_eq_nothing_iff h.has_nothing).2 rfl]
      · simp [hnothing, h.unfold_eq_nothing_iff (hms t ht)]
  have hinjective : ∀ t ∈ table.flat j ms, ∀ u ∈ table.flat j ms, table.unfold t = table.unfold u → t = u :=
    fun t ht u hu => h.unfold_injective (h.mem_flat hms ht).1 (h.mem_flat hms hu).1
  rw [flat, flatten, distinct_eq] at hinjective ⊢
  simp only [List.mem_eraseDups] at hinjective
  rw [← eraseDups_map hinjective, j.flat_eq, List.map_flatMap, List.flatMap_map, List.flatMap_congr hopened]

theorem Sound.unfold_extends (h : table.Sound) (h' : table'.Sound) (hextends : table.Extends table')
    (ht : table.Has t) : table'.unfold t = table.unfold t := by
  induction hn : t.index using Nat.strongRecOn generalizing t with
  | _ n ih =>
    obtain ⟨s, hs⟩ := Option.isSome_iff_exists.1 (isSome_lookup_iff.2 ht)
    rw [h.unfold_eq hs, h'.unfold_eq (hextends t s hs)]
    exact Shape.toTy_congr fun u hu => ih u.index (hn ▸ h.earlier t s hs u hu) (h.has_of_mem_parts hs hu) rfl

theorem Sound.unfold_intern (h : table.Sound) (hparts : ∀ t ∈ s.parts, table.Has t)
    (hanswer : table.Answers (table.intern s)) :
    (table.intern s).2.unfold (table.intern s).1 = s.toTy table.unfold := by
  rw [hanswer.sound.unfold_eq (lookup_intern table s)]
  exact Shape.toTy_congr fun t ht => h.unfold_extends hanswer.sound hanswer.extends (hparts t ht)

theorem Sound.unfold_collapse (h : table.Sound) (hms : ∀ t ∈ ms, table.Has t) :
    (table.collapse j.shape (table.flat j ms)).2.unfold (table.collapse j.shape (table.flat j ms)).1 =
      j.join (ms.map table.unfold) := by
  have hanswer := h.collapse (j := j) hms
  have hhas (t : TypeId) (ht : t ∈ table.flat j ms) : table.Has t := (h.mem_flat hms ht).1
  rw [Joint.join, ← h.map_flat hms]
  generalize table.flat j ms = us at hanswer hhas
  rcases us with _ | ⟨u, _ | ⟨u', us⟩⟩
  · exact h.unfold_eq h.bottom
  · rfl
  · refine (h.unfold_intern (fun t ht => hhas t (by rwa [j.parts_shape] at ht)) hanswer).trans ?_
    cases j <;> rfl

/-- The type that a request asks for, from the types behind the handles. -/
def Request.ty (f : TypeId → Ty) : Request → Ty
  | .intern s => s.toTy f
  | .union ms => .unite (ms.map f)
  | .intersection ms => .intersect (ms.map f)

/-- **Handles are as good as trees**: the handle that a request is answered by stands for the type that the same request
makes of the types behind the handles in it. -/
theorem Sound.unfold_answer (h : table.Sound) {r : Request} (hr : table.Proper r) :
    (table.answer r).2.unfold (table.answer r).1 = r.ty table.unfold := by
  cases r with
  | intern s => exact h.unfold_intern hr.2 (h.answer hr)
  | union ms => exact h.unfold_collapse (j := .union) hr
  | intersection ms =>
    have hnothing : .nothing ∈ ms.map table.unfold ↔ .nothing ∈ ms := by
      rw [List.mem_map]
      constructor
      · rintro ⟨t, ht, heq⟩
        exact (h.unfold_eq_nothing_iff (hr t ht)).1 heq ▸ ht
      · exact fun hmem => ⟨.nothing, hmem, h.unfold_eq h.bottom⟩
    show (table.intersection ms).2.unfold (table.intersection ms).1 = Ty.intersect (ms.map table.unfold)
    unfold TypeTable.intersection
    split
    · next hmem =>
      rw [Ty.intersect_of_mem (hnothing.2 hmem)]
      exact h.unfold_eq h.bottom
    · next hmem =>
      rw [Ty.intersect_of_not_mem (mt hnothing.1 hmem)]
      exact h.unfold_collapse (j := .intersection) hr

/-! ## What handles stand for -/

/-- A table in which every handle stands for one type and every type has one handle. -/
structure Canonical (table : TypeTable) : Prop where
  bottom : table.lookup .nothing = some .nothing
  /-- No shape is in the table twice. -/
  unique : ∀ t u s, table.lookup t = some s → table.lookup u = some s → t = u
  /-- The handle of a shape stands for it. -/
  issued : ∀ s, (table.intern s).2.lookup (table.intern s).1 = some s
  /-- A shape that the table has is not issued anew. -/
  known : ∀ t s, table.lookup t = some s → table.intern s = (t, table)
  /-- A handle is equal to another exactly if the types behind them are. -/
  unfold_eq_iff : ∀ t u, table.Has t → table.Has u → (table.unfold t = table.unfold u ↔ t = u)
  /-- What a handle stands for stays. -/
  lasting : ∀ rs, table.AllProper rs → table.Extends (table.answerAll rs)
  /-- The handles issued are the numbers below the size of the table. -/
  dense : ∀ t, (table.lookup t).isSome ↔ t.index < table.size
  /-- A request is answered by a handle that is there already, or by the next number. -/
  next : ∀ r, table.Proper r →
    (table.answer r).2 = table ∧ (table.answer r).1.index < table.size ∨
      (table.answer r).2.size = table.size + 1 ∧ (table.answer r).1.index = table.size
  /-- Unions and intersections have two members or more, all different, none `nothing` or of their own kind. -/
  members : ∀ j t ms, table.lookup t = some (j.shape ms) → table.Members j ms
  /-- The handles in a shape are older than the shape. -/
  earlier : ∀ t s, table.lookup t = some s → ∀ u ∈ s.parts, u.index < t.index

theorem Sound.next (h : table.Sound) {r : Request} (hr : table.Proper r) :
    (table.answer r).2 = table ∧ (table.answer r).1.index < table.size ∨
      (table.answer r).2.size = table.size + 1 ∧ (table.answer r).1.index = table.size := by
  have hanswer := h.answer hr
  rcases hanswer.grows with heq | ⟨hfst, s, heq⟩
  · have hhas := hanswer.has
    rw [heq] at hhas
    exact Or.inl ⟨heq, hhas⟩
  · rw [heq, hfst]
    exact Or.inr ⟨size_push, rfl⟩

/-- **Handles and types correspond** in every table that has only had proper requests. -/
theorem canonical_answerAll {rs : List Request} (h : AllProper .new rs) : (answerAll .new rs).Canonical := by
  have hsound := (sound_new.answerAll h).1
  generalize answerAll .new rs = table at hsound
  constructor
  case bottom => exact hsound.bottom
  case unique => exact hsound.unique
  case issued => exact lookup_intern table
  case known => exact fun t s => intern_of_lookup hsound.unique
  case unfold_eq_iff =>
    intro t u ht hu
    exact ⟨hsound.unfold_injective ht hu, congrArg _⟩
  case lasting => exact fun rs hrs => (hsound.answerAll hrs).2
  case dense => exact fun t => isSome_lookup_iff
  case next => exact fun r hr => hsound.next hr
  case members => exact hsound.members
  case earlier => exact hsound.earlier

/-- `?2`, `#3<?2>`, their union, `#4` and the intersection of both; last a union of `nothing`, `?2` and the first
union. -/
def nestedJoints : List Request := [.intern (.param ⟨2⟩), .intern (.applied ⟨3⟩ [⟨1⟩]), .union [⟨2⟩, ⟨1⟩],
  .intern (.applied ⟨4⟩ []), .intersection [⟨3⟩, ⟨4⟩], .union [⟨0⟩, ⟨2⟩, ⟨3⟩]]

/-- The last union is the first one again. -/
theorem canonical_answerAll_nestedJoints :
    AllProper .new nestedJoints ∧ (answerAll .new nestedJoints).Canonical ∧
      (answerAll .new nestedJoints).shapes = #[.nothing, .param ⟨2⟩, .applied ⟨3⟩ [⟨1⟩], .union [⟨2⟩, ⟨1⟩],
        .applied ⟨4⟩ [], .intersection [⟨3⟩, ⟨4⟩]] := by
  have hproper : AllProper .new nestedJoints := by decide +kernel
  exact ⟨hproper, canonical_answerAll hproper, by decide +kernel⟩

end TypeTable

end SemCheck
