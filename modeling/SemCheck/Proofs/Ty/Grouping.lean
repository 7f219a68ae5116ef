import Mathlib.Data.List.Perm.Subperm
import SemCheck.Proofs.Ty.Interning

/-!
# Unions and intersections in groups

Whether members of a union are given at once or some of them as a union of their own makes no difference: what is opened
again is what would have been flattened with the others (`Tidy.opened_collapse`). All laws are laws of the list that is
left by flattening, as the handle of a union or intersection depends on that list only.

They need less than sound tables. It is enough that nobody has interned a union or intersection as given
(`TypeTable.Leads`), so that those in the table have two different members and no `nothing` among them
(`TypeTable.Tidy`).

Main statement: unions and intersections may be regrouped, `nothing` is a unit of one and absorbs the other, and
repeated members count for nothing (`Leads.laws`).
-/

namespace SemCheck.TypeTable

open Ty (Joint)

variable {table later : TypeTable} {t u : TypeId} {s : Shape} {ms xs ys zs : List TypeId} {j : Joint}

/-! ## Tidy tables -/

/-- Whether a union or intersection is to be interned as it is given. -/
def Request.isRaw : Request → Bool
  | .intern s => s.isJoint
  | .union _ | .intersection _ => false

/-- From `table` to `later` by requests none of which is raw. -/
def Leads (table later : TypeTable) : Prop := ∃ rs, (∀ r ∈ rs, r.isRaw = false) ∧ table.answerAll rs = later

/-- Two members or more, all different, and `nothing` is none of them. -/
def Several (ms : List TypeId) : Prop := 2 ≤ ms.length ∧ ms.Nodup ∧ .nothing ∉ ms

/-- A table without repetition whose unions and intersections have several members. -/
structure Tidy (table : TypeTable) : Prop where
  bottom : table.lookup .nothing = some .nothing
  unique : ∀ t u s, table.lookup t = some s → table.lookup u = some s → t = u
  joints : ∀ (j : Joint) t ms, table.lookup t = some (j.shape ms) → Several ms

theorem tidy_new : new.Tidy :=
  ⟨sound_new.bottom, sound_new.unique, fun j t ms h =>
    have hms := sound_new.members j t ms h
    ⟨hms.two, hms.nodup, fun hmem => (hms.members _ hmem).1 rfl⟩⟩

theorem Tidy.intern (h : table.Tidy) (hs : ∀ (j : Joint) ms, s = j.shape ms → Several ms) :
    (table.intern s).2.Tidy := by
  rcases intern_cases table s with ⟨t, -, heq⟩ | ⟨hnew, heq⟩
  · rwa [heq]
  · rw [heq]
    refine ⟨extends_push table s _ _ h.bottom, unique_push h.unique hnew, fun j t ms ht => ?_⟩
    rcases new_or_old_of_lookup_push ht with ⟨-, heq⟩ | ht
    · exact hs j ms heq.symm
    · exact h.joints j t ms ht

theorem extends_intern (table : TypeTable) (s : Shape) : table.Extends (table.intern s).2 := by
  rcases intern_cases table s with ⟨t, -, heq⟩ | ⟨-, heq⟩ <;> rw [heq]
  · exact .refl table
  · exact extends_push table s

theorem extends_collapse (table : TypeTable) (wrap : List TypeId → Shape) (ms : List TypeId) :
    table.Extends (table.collapse wrap ms).2 :=
  match ms with
  | [] | [_] => .refl table
  | _ :: _ :: _ => extends_intern table _

/-! ## What members come to -/

/-- The members that one member comes to. -/
def opened (table : TypeTable) (j : Joint) (t : TypeId) : List TypeId :=
  contribution .nothing (fun t => table.lookup t >>= j.members?) t

theorem flat_eq (table : TypeTable) (j : Joint) (ms : List TypeId) :
    table.flat j ms = (ms.flatMap (table.opened j)).eraseDups := distinct_eq _

theorem mem_flat_iff : u ∈ table.flat j ms ↔ ∃ t ∈ ms, u ∈ table.opened j t := by
  rw [flat_eq, List.mem_eraseDups, List.mem_flatMap]

theorem nodup_flat (table : TypeTable) (j : Joint) (ms : List TypeId) : (table.flat j ms).Nodup := nodup_distinct _

theorem opened_of_joint (h : table.lookup t = some (j.shape ms)) : table.opened j t = ms := by
  rw [opened, contribution, inner?_eq_some_iff.2 h]

/-- A member is a union or intersection of that kind and opened, or `nothing`, or counts for itself. -/
theorem opened_cases (table : TypeTable) (j : Joint) (t : TypeId) :
    (∃ ms, table.lookup t = some (j.shape ms) ∧ table.opened j t = ms) ∨
      t = .nothing ∧ table.opened j t = [] ∨ t ≠ .nothing ∧ table.opened j t = [t] := by
  cases hinner : table.lookup t >>= j.members? with
  | some ms => exact Or.inl ⟨ms, inner?_eq_some_iff.1 hinner, opened_of_joint (inner?_eq_some_iff.1 hinner)⟩
  | none =>
    rw [opened, contribution, hinner]
    by_cases ht : t = .nothing
    · exact Or.inr (Or.inl ⟨ht, if_pos ht⟩)
    · exact Or.inr (Or.inr ⟨ht, if_neg ht⟩)

theorem Tidy.opened_nothing (h : table.Tidy) : table.opened j .nothing = [] := by
  rcases opened_cases table j .nothing with ⟨ms, hms, -⟩ | ⟨-, heq⟩ | ⟨hne, -⟩
  · rw [h.bottom] at hms
    cases j <;> exact absurd hms nofun
  · exact heq
  · exact absurd rfl hne

theorem Tidy.opened_ne_nil (h : table.Tidy) (ht : t ≠ .nothing) : table.opened j t ≠ [] := by
  rcases opened_cases table j t with ⟨ms, hms, heq⟩ | ⟨heq, -⟩ | ⟨-, heq⟩
  · rw [heq]
    exact List.ne_nil_of_length_pos (Nat.lt_of_lt_of_le Nat.two_pos (h.joints j t ms hms).1)
  · exact absurd heq ht
  · rw [heq]
    exact List.cons_ne_nil t []

theorem opened_of_has (hextends : table.Extends later) (ht : table.Has t) : later.opened j t = table.opened j t := by
  obtain ⟨s, hs⟩ := Option.isSome_iff_exists.1 (isSome_lookup_iff.2 ht)
  rw [opened, opened, contribution, contribution, hs, hextends t s hs]

theorem flat_of_has (hextends : table.Extends later) (hms : ∀ t ∈ ms, table.Has t) :
    later.flat j ms = table.flat j ms := by
  rw [flat_eq, flat_eq, List.flatMap_congr fun t ht => opened_of_has hextends (hms t ht)]

/-- A single member that is left after flattening was among the members, and is no union or intersection of that
kind. -/
theorem Tidy.opened_of_flat_eq_singleton (h : table.Tidy) (hflat : table.flat j ms = [u]) :
    u ∈ ms ∧ table.opened j u = [u] := by
  obtain ⟨t, ht, hmem⟩ := mem_flat_iff.1 (hflat ▸ List.mem_singleton_self u)
  rcases opened_cases table j t with ⟨us, hus, heq⟩ | ⟨-, heq⟩ | ⟨-, heq⟩
  · -- all of the two members or more would be left
    obtain ⟨htwo, hnodup, -⟩ := h.joints j t us hus
    have hsub : us ⊆ [u] := fun x hx => hflat ▸ mem_flat_iff.2 ⟨t, ht, heq ▸ hx⟩
    exact absurd (hnodup.subperm hsub).length_le (Nat.not_le_of_gt htwo)
  · rw [heq] at hmem
    exact absurd hmem List.not_mem_nil
  · rw [heq, List.mem_singleton] at hmem
    rw [hmem]
    exact ⟨ht, heq⟩

theorem Tidy.nothing_not_mem_flat (h : table.Tidy) (ms : List TypeId) : .nothing ∉ table.flat j ms := by
  intro hmem
  obtain ⟨t, -, hmem⟩ := mem_flat_iff.1 hmem
  rcases opened_cases table j t with ⟨us, hus, heq⟩ | ⟨-, heq⟩ | ⟨hne, heq⟩ <;> rw [heq] at hmem
  · exact (h.joints j t us hus).2.2 hmem
  · exact List.not_mem_nil hmem
  · exact hne (List.mem_singleton.1 hmem).symm

/-! ## Requests that are not raw -/

theorem Tidy.collapse (h : table.Tidy) (j : Joint) (ms : List TypeId) :
    (table.collapse j.shape (table.flat j ms)).2.Tidy := by
  have hnothing := h.nothing_not_mem_flat (j := j) ms
  have hnodup := nodup_flat table j ms
  generalize table.flat j ms = us at hnothing hnodup
  match us with
  | [] | [_] => exact h
  | u :: u' :: us =>
    refine h.intern fun j' ms' heq => ?_
    obtain ⟨-, rfl⟩ := Joint.shape_injective heq
    exact ⟨by simp, hnodup, hnothing⟩

theorem Tidy.answer (h : table.Tidy) {r : Request} (hr : r.isRaw = false) : (table.answer r).2.Tidy := by
  cases r with
  | intern s =>
    refine h.intern fun j ms heq => ?_
    rw [heq] at hr
    cases j <;> exact absurd hr nofun
  | union ms => exact h.collapse .union ms
  | intersection ms =>
    show (table.intersection ms).2.Tidy
    unfold TypeTable.intersection
    split
    · exact h
    · exact h.collapse .intersection ms

theorem extends_answer (table : TypeTable) (r : Request) : table.Extends (table.answer r).2 := by
  cases r with
  | intern s => exact extends_intern table s
  | union ms => exact extends_collapse table _ _
  | intersection ms =>
    show table.Extends (table.intersection ms).2
    unfold TypeTable.intersection
    split
    · exact .refl table
    · exact extends_collapse table _ _

theorem Tidy.leads (h : table.Tidy) (hlater : table.Leads later) : later.Tidy ∧ table.Extends later := by
  obtain ⟨rs, hraw, rfl⟩ := hlater
  induction rs generalizing table with
  | nil => exact ⟨h, .refl table⟩
  | cons r rs ih =>
    obtain ⟨hr, hrs⟩ := List.forall_mem_cons.1 hraw
    obtain ⟨htidy, hextends⟩ := ih (h.answer hr) hrs
    exact ⟨htidy, (extends_answer table r).trans hextends⟩

/-! ## Regrouping -/

/-- **What is made of flattened members is opened to the same members**, now and in later tables. -/
theorem Tidy.opened_collapse (h : table.Tidy) (hms : ∀ t ∈ ms, table.Has t) (hlater : later.Tidy)
    (hextends : (table.collapse j.shape (table.flat j ms)).2.Extends later) :
    later.opened j (table.collapse j.shape (table.flat j ms)).1 = table.flat j ms := by
  have hsingle (u : TypeId) (heq : table.flat j ms = [u]) := h.opened_of_flat_eq_singleton heq
  generalize table.flat j ms = us at hextends hsingle
  match us with
  | [] => exact hlater.opened_nothing
  | [u] =>
    obtain ⟨hmem, heq⟩ := hsingle u rfl
    exact (opened_of_has hextends (hms u hmem)).trans heq
  | u :: u' :: us => exact opened_of_joint (hextends _ _ (lookup_intern table _))

/-- A member may stand for what its members come to. -/
theorem flat_regroup (hu : table.opened j u = table.flat j ys) :
    table.flat j (xs ++ u :: zs) = table.flat j (xs ++ ys ++ zs) := by
  have hself : (table.flat j ys).eraseDups = (ys.flatMap (table.opened j)).eraseDups := by
    rw [eraseDups_of_nodup (nodup_flat table j ys), flat_eq]
  rw [flat_eq, flat_eq, List.flatMap_append, List.flatMap_cons, hu, List.append_assoc, List.flatMap_append,
    List.flatMap_append]
  exact eraseDups_append_congr rfl (eraseDups_append_congr hself rfl)

theorem Tidy.flat_nothing (h : table.Tidy) : table.flat j (xs ++ .nothing :: zs) = table.flat j (xs ++ zs) := by
  rw [flat_eq, flat_eq, List.flatMap_append, List.flatMap_cons, h.opened_nothing, List.nil_append, List.flatMap_append]

theorem flat_of_subset (h : ys ⊆ xs) : table.flat j (xs ++ ys ++ zs) = table.flat j (xs ++ zs) := by
  have hsub : ys.flatMap (table.opened j) ⊆ xs.flatMap (table.opened j) := fun u hu => by
    obtain ⟨t, ht, hu⟩ := List.mem_flatMap.1 hu
    exact List.mem_flatMap.2 ⟨t, h ht, hu⟩
  simp only [flat_eq, List.flatMap_append]
  exact eraseDups_append_congr (eraseDups_append_of_subset hsub) rfl

/-- What has been collapsed once is found again. -/
theorem Tidy.collapse_again (hlater : later.Tidy) {us : List TypeId}
    (hextends : (table.collapse j.shape us).2.Extends later) :
    later.collapse j.shape us = ((table.collapse j.shape us).1, later) :=
  match us with
  | [] | [_] => rfl
  | _ :: _ :: _ => intern_of_lookup hlater.unique (hextends _ _ (lookup_intern table _))

/-- Nothing is made of a single member. -/
theorem Tidy.collapse_singleton (h : table.Tidy) (j : Joint) (t : TypeId) :
    table.collapse j.shape (table.flat j [t]) = (t, table) := by
  rw [flat_eq, List.flatMap_singleton]
  rcases opened_cases table j t with ⟨ms, hms, heq⟩ | ⟨rfl, heq⟩ | ⟨-, heq⟩ <;> rw [heq]
  · obtain ⟨htwo, hnodup, -⟩ := h.joints j t ms hms
    rw [eraseDups_of_nodup hnodup]
    match ms with
    | [] | [_] => exact absurd htwo (by simp)
    | _ :: _ :: _ => exact intern_of_lookup h.unique hms
  · rfl
  · rfl

theorem union_eq (table : TypeTable) (ms : List TypeId) :
    table.union ms = table.collapse Joint.union.shape (table.flat .union ms) := rfl

theorem intersection_of_mem (h : .nothing ∈ ms) : table.intersection ms = (.nothing, table) := if_pos h

theorem intersection_of_not_mem (h : .nothing ∉ ms) :
    table.intersection ms = table.collapse Joint.intersection.shape (table.flat .intersection ms) := if_neg h

/-- Intersections with the same flattened members are the same if `nothing` is among both or none. -/
theorem intersection_congr (hmem : .nothing ∈ xs ↔ .nothing ∈ ys)
    (hflat : table.flat .intersection xs = table.flat .intersection ys) :
    table.intersection xs = table.intersection ys := by
  by_cases h : .nothing ∈ xs
  · rw [intersection_of_mem h, intersection_of_mem (hmem.1 h)]
  · rw [intersection_of_not_mem h, intersection_of_not_mem (mt hmem.2 h), hflat]

theorem Tidy.union_regroup (h : table.Tidy) (hys : ∀ t ∈ ys, table.Has t) (hlater : later.Tidy)
    (hextends : (table.union ys).2.Extends later) :
    later.union (xs ++ (table.union ys).1 :: zs) = later.union (xs ++ ys ++ zs) := by
  have hopened : later.opened .union (table.union ys).1 = later.flat .union ys := by
    rw [flat_of_has ((extends_answer table (.union ys)).trans hextends) hys]
    exact h.opened_collapse hys hlater hextends
  rw [union_eq later, union_eq later, flat_regroup hopened]

/-- An intersection of some members, none of which is `nothing`, is not `nothing`. -/
theorem Tidy.intersection_ne_nothing (h : table.Tidy) (hne : ms ≠ []) (hmem : .nothing ∉ ms) :
    (table.intersection ms).1 ≠ .nothing := by
  obtain ⟨t, ts, rfl⟩ := List.exists_cons_of_ne_nil hne
  obtain ⟨u, hu⟩ := List.exists_mem_of_ne_nil _
    (h.opened_ne_nil (j := .intersection) fun heq => hmem (heq ▸ List.mem_cons_self))
  have hu : u ∈ table.flat .intersection (t :: ts) := mem_flat_iff.2 ⟨t, List.mem_cons_self, hu⟩
  have hnothing := h.nothing_not_mem_flat (j := .intersection) (t :: ts)
  have htidy := h.collapse .intersection (t :: ts)
  rw [intersection_of_not_mem hmem]
  generalize table.flat .intersection (t :: ts) = us at hu hnothing htidy
  match us with
  | [] => exact absurd hu List.not_mem_nil
  | [x] => exact fun heq => hnothing (heq ▸ List.mem_singleton_self x)
  | x :: x' :: us =>
    intro heq
    have hlookup := lookup_intern table (Joint.intersection.shape (x :: x' :: us))
    rw [show (table.intern _).1 = .nothing from heq] at hlookup
    exact absurd (htidy.bottom.symm.trans hlookup) nofun

theorem Tidy.intersection_regroup (h : table.Tidy) (hys : ∀ t ∈ ys, table.Has t) (hne : ys ≠ []) (hlater : later.Tidy)
    (hextends : (table.intersection ys).2.Extends later) :
    later.intersection (xs ++ (table.intersection ys).1 :: zs) = later.intersection (xs ++ ys ++ zs) := by
  by_cases hmem : .nothing ∈ ys
  · rw [intersection_of_mem hmem, intersection_of_mem (by simp), intersection_of_mem (by simp [hmem])]
  · have hnothing := h.intersection_ne_nothing hne hmem
    have hopened : later.opened .intersection (table.intersection ys).1 = later.flat .intersection ys := by
      rw [flat_of_has ((extends_answer table (.intersection ys)).trans hextends) hys]
      rw [intersection_of_not_mem hmem] at hextends ⊢
      exact h.opened_collapse hys hlater hextends
    exact intersection_congr (by simp [hmem, hnothing.symm]) (flat_regroup hopened)

/-- The laws of unions and intersections in a table. A handle that is made in one table may be used in any later one. -/
structure Laws (table : TypeTable) : Prop where
  union_regroup : ∀ xs ys zs, (∀ t ∈ ys, table.Has t) → ∀ later, (table.union ys).2.Leads later →
    later.union (xs ++ (table.union ys).1 :: zs) = later.union (xs ++ ys ++ zs)
  intersection_regroup : ∀ xs ys zs, (∀ t ∈ ys, table.Has t) → ys ≠ [] →
    ∀ later, (table.intersection ys).2.Leads later →
      later.intersection (xs ++ (table.intersection ys).1 :: zs) = later.intersection (xs ++ ys ++ zs)
  /-- `nothing` is a unit of the union. -/
  union_nothing : ∀ xs zs, table.union (xs ++ .nothing :: zs) = table.union (xs ++ zs)
  /-- `nothing` absorbs an intersection. -/
  intersection_nothing : ∀ xs zs, table.intersection (xs ++ .nothing :: zs) = (.nothing, table)
  union_singleton : ∀ t, table.union [t] = (t, table)
  intersection_singleton : ∀ t, table.intersection [t] = (t, table)
  union_repeat : ∀ xs ys zs, ys ⊆ xs → table.union (xs ++ ys ++ zs) = table.union (xs ++ zs)
  intersection_repeat : ∀ xs ys zs, ys ⊆ xs → table.intersection (xs ++ ys ++ zs) = table.intersection (xs ++ zs)
  /-- A union that was made is the same later. -/
  union_again : ∀ xs, (∀ t ∈ xs, table.Has t) → ∀ later, (table.union xs).2.Leads later →
    later.union xs = ((table.union xs).1, later)
  intersection_again : ∀ xs, (∀ t ∈ xs, table.Has t) → ∀ later, (table.intersection xs).2.Leads later →
    later.intersection xs = ((table.intersection xs).1, later)

/-- **Grouping makes no difference** in a table in which no union or intersection was interned as given. -/
theorem Leads.laws (h : new.Leads table) : table.Laws := by
  have htidy := (tidy_new.leads h).1
  have hunion (ys : List TypeId) (later : TypeTable) (hlater : (table.union ys).2.Leads later) :
      later.Tidy ∧ (table.union ys).2.Extends later := (htidy.answer (r := .union ys) rfl).leads hlater
  have hintersection (ys : List TypeId) (later : TypeTable) (hlater : (table.intersection ys).2.Leads later) :
      later.Tidy ∧ (table.intersection ys).2.Extends later := (htidy.answer (r := .intersection ys) rfl).leads hlater
  constructor
  case union_regroup =>
    intro xs ys zs hys later hlater
    obtain ⟨hlater, hextends⟩ := hunion ys later hlater
    exact htidy.union_regroup hys hlater hextends
  case intersection_regroup =>
    intro xs ys zs hys hne later hlater
    obtain ⟨hlater, hextends⟩ := hintersection ys later hlater
    exact htidy.intersection_regroup hys hne hlater hextends
  case union_nothing =>
    intro xs zs
    rw [union_eq, union_eq, htidy.flat_nothing]
  case intersection_nothing => exact fun xs zs => intersection_of_mem (by simp)
  case union_singleton => exact fun t => htidy.collapse_singleton .union t
  case intersection_singleton =>
    intro t
    by_cases ht : t = .nothing
    · rw [ht, intersection_of_mem (List.mem_singleton_self _)]
    · rw [intersection_of_not_mem fun hmem => ht (List.mem_singleton.1 hmem).symm, htidy.collapse_singleton]
  case union_repeat =>
    intro xs ys zs hsub
    rw [union_eq, union_eq, flat_of_subset hsub]
  case intersection_repeat =>
    intro xs ys zs hsub
    refine intersection_congr ?_ (flat_of_subset hsub)
    have hnothing : .nothing ∈ ys → .nothing ∈ xs := fun hmem => hsub hmem
    simp only [List.mem_append]
    tauto
  case union_again =>
    intro xs hxs later hlater
    obtain ⟨hlater, hextends⟩ := hunion xs later hlater
    rw [union_eq later, flat_of_has ((extends_answer table (.union xs)).trans hextends) hxs]
    exact hlater.collapse_again hextends
  case intersection_again =>
    intro xs hxs later hlater
    by_cases hmem : .nothing ∈ xs
    · rw [intersection_of_mem hmem, intersection_of_mem hmem]
    · obtain ⟨hlater, hextends⟩ := hintersection xs later hlater
      have hflat := flat_of_has (j := .intersection) ((extends_answer table (.intersection xs)).trans hextends) hxs
      rw [intersection_of_not_mem hmem] at hextends
      rw [intersection_of_not_mem hmem, intersection_of_not_mem hmem, hflat]
      exact hlater.collapse_again hextends

/-- `#4`, `?2`, `#3<?2>` and the union of the last two are made into one union, once with `?2` and `#3<?2>` as a union of
their own. -/
theorem laws_nestedJoints :
    (answerAll .new nestedJoints).Laws ∧
      ((answerAll .new nestedJoints).union [⟨1⟩, ⟨2⟩]).1 = ⟨6⟩ ∧
      ((answerAll .new nestedJoints).union [⟨1⟩, ⟨2⟩]).2.union [⟨4⟩, ⟨6⟩, ⟨3⟩] =
        ((answerAll .new nestedJoints).union [⟨1⟩, ⟨2⟩]).2.union [⟨4⟩, ⟨1⟩, ⟨2⟩, ⟨3⟩] ∧
      (((answerAll .new nestedJoints).union [⟨1⟩, ⟨2⟩]).2.union [⟨4⟩, ⟨6⟩, ⟨3⟩]).1 = ⟨7⟩ := by
  have hleads : new.Leads (answerAll .new nestedJoints) := ⟨nestedJoints, by decide, rfl⟩
  have hlaws := hleads.laws
  have hfirst : ((answerAll .new nestedJoints).union [⟨1⟩, ⟨2⟩]).1 = ⟨6⟩ := by decide +kernel
  have hregroup := hlaws.union_regroup [⟨4⟩] [⟨1⟩, ⟨2⟩] [⟨3⟩] (by decide +kernel) _ ⟨[], nofun, rfl⟩
  rw [hfirst] at hregroup
  exact ⟨hlaws, hfirst, hregroup, by decide +kernel⟩

end SemCheck.TypeTable
