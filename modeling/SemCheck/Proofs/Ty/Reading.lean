import SemCheck.Proofs.Ty.Extension

/-!
# Types as their text is read

The text of a type sets the members of unions and intersections side by side, whatever is a member of what. Who reads it
takes what stands between the marks of unions together first: `Ty.reread` is the type that is read in this way. It is in
layers, a union of intersections of names (`Spelled.ofSummands`). Main statement: just the types that are in layers, in
which no union is a member of an intersection, are read as what they are (`Composed.layered_iff`).
-/

namespace SemCheck.Ty

/-! ## Layers -/

/-- How loosely a type hangs together. -/
def rank : Ty → Nat
  | .union _ => 2
  | .intersection _ => 1
  | _ => 0

namespace Joint

def rank : Joint → Nat
  | union => 2
  | intersection => 1

/-- The members of a type of this kind; any other type by itself. -/
def split (j : Joint) (t : Ty) : List Ty := (j.inner? t).getD [t]

variable (j : Joint) {t : Ty} {ms : List Ty}

theorem rank_wrap (ms : List Ty) : (j.wrap ms).rank = j.rank := by cases j <;> rfl

theorem parts_wrap (ms : List Ty) : (j.wrap ms).parts = ms := by cases j <;> rfl

theorem rank_pos : 0 < j.rank := by cases j <;> decide

theorem rank_le_union : j.rank ≤ union.rank := by cases j <;> decide

theorem split_wrap (ms : List Ty) : j.split (j.wrap ms) = ms := by
  rw [split, j.inner?_eq_some_iff.2 rfl, Option.getD_some]

/-- A type that hangs together more closely is not split. -/
theorem split_of_rank_lt (h : t.rank < j.rank) : j.split t = [t] := by
  cases hinner : j.inner? t with
  | none => rw [split, hinner, Option.getD_none]
  | some ms =>
    rw [j.inner?_eq_some_iff.1 hinner, rank_wrap] at h
    exact absurd h (Nat.lt_irrefl _)

/-- Only the types of a kind hang together as loosely as the kind. -/
theorem exists_eq_wrap (h : t.rank = j.rank) : ∃ ms, t = j.wrap ms := by
  cases j <;> cases t <;> first | exact ⟨_, rfl⟩ | cases h

theorem collapse_wrap (h : 2 ≤ ms.length) : collapse j.wrap ms = j.wrap ms :=
  match ms, h with
  | _ :: _ :: _, _ => rfl

end Joint

/-- A type over parameters in `P` and declarations in `D`, whose unions and intersections have members as `C` says. -/
inductive Composed (P D : DeclId → Prop) (C : Joint → List Ty → Prop) : Ty → Prop
  | nothing : Composed P D C .nothing
  | param {p : DeclId} (hp : P p) : Composed P D C (.param p)
  | applied {d : DeclId} {args : List Ty} (hd : D d) (hargs : ∀ t ∈ args, Composed P D C t) :
      Composed P D C (.applied d args)
  | wrap {j : Joint} {ms : List Ty} (h : ∀ t ∈ ms, Composed P D C t) (hms : C j ms) : Composed P D C (j.wrap ms)

/-- At least two members, each of which hangs together more closely than the whole. -/
def Tighter (j : Joint) (ms : List Ty) : Prop := 2 ≤ ms.length ∧ ∀ u ∈ ms, u.rank < j.rank

theorem Tighter.ne_nil {j : Joint} {ms : List Ty} (h : Tighter j ms) : ms ≠ [] :=
  List.ne_nil_of_length_pos (Nat.lt_of_lt_of_le Nat.zero_lt_two h.1)

/-! ## Reading -/

/-- Takes together what stands next to the mark of an intersection. -/
def link : List (List Ty) → List (List Ty) → List (List Ty)
  | [], uss => uss
  | [ts], [] => [ts]
  | [ts], us :: uss => (ts ++ us) :: uss
  | ts :: ts' :: tss, uss => ts :: link (ts' :: tss) uss

/-- What is read where two texts stand side by side with a mark between them. -/
def Joint.beside : Joint → List (List Ty) → List (List Ty) → List (List Ty)
  | union => (· ++ ·)
  | intersection => link

/-- The union of intersections that is read. -/
def ofSummands (tss : List (List Ty)) : Ty := collapse .union (tss.map (collapse .intersection))

mutual

/-- What stands between the marks of unions in the text of a type, each taken apart at the marks of intersections.
Arguments stand in brackets and are read by themselves. -/
def summands : Ty → List (List Ty)
  | .union ms => summandsOf .union ms
  | .intersection ms => summandsOf .intersection ms
  | .applied d args => [[.applied d (rereadAll args)]]
  | t => [[t]]

def summandsOf (j : Joint) : List Ty → List (List Ty)
  | [] => []
  | t :: ts => j.beside (summands t) (summandsOf j ts)

def rereadAll : List Ty → List Ty
  | [] => []
  | t :: ts => ofSummands (summands t) :: rereadAll ts

end

/-- The type that is read from the text of a type. -/
def reread (t : Ty) : Ty := ofSummands t.summands

section

variable {P D : DeclId → Prop} {C : Joint → List Ty → Prop} {j : Joint} {t : Ty} {ts ms : List Ty}
  {tss uss : List (List Ty)}

theorem summands_wrap (j : Joint) (ms : List Ty) : (j.wrap ms).summands = summandsOf j ms := by cases j <;> rfl

theorem rereadAll_eq (ts : List Ty) : rereadAll ts = ts.map reread := by
  induction ts with
  | nil => rfl
  | cons t ts ih => rw [rereadAll, ih, List.map_cons, reread]

/-- With nothing beside it, a text stays what it is. -/
theorem beside_nil (j : Joint) (tss : List (List Ty)) : j.beside tss [] = tss := by
  cases j with
  | union => exact List.append_nil tss
  | intersection =>
    induction tss with
    | nil => rfl
    | cons ts tss ih =>
      cases tss with
      | nil => rfl
      | cons ts' tss => exact congrArg (ts :: ·) ih

/-! ## What is read is in layers -/

/-- Summands of names whose arguments are in layers, with at least one summand and one name in each. -/
structure Spelled (P D : DeclId → Prop) (tss : List (List Ty)) : Prop where
  ne_nil : tss ≠ []
  factors : ∀ ts ∈ tss, ts ≠ [] ∧ ∀ t ∈ ts, t.Composed P D Tighter ∧ t.rank = 0

theorem spelled_singleton (h : t.Composed P D Tighter) (hrank : t.rank = 0) : Spelled P D [[t]] :=
  ⟨List.cons_ne_nil _ _, List.forall_mem_singleton.2 ⟨List.cons_ne_nil _ _, List.forall_mem_singleton.2 ⟨h, hrank⟩⟩⟩

theorem Spelled.of_cons {ts' : List Ty} (h : Spelled P D (ts :: ts' :: tss)) : Spelled P D (ts' :: tss) :=
  ⟨List.cons_ne_nil _ _, (List.forall_mem_cons.1 h.factors).2⟩

theorem Spelled.beside (j : Joint) (h : Spelled P D tss) (h' : Spelled P D uss) : Spelled P D (j.beside tss uss) := by
  cases j with
  | union => exact ⟨List.append_ne_nil_of_left_ne_nil h.ne_nil _, List.forall_mem_append.2 ⟨h.factors, h'.factors⟩⟩
  | intersection =>
    show Spelled P D (link tss uss)
    fun_induction link tss uss with
    | case1 => exact h'
    | case2 => exact h
    | case3 ts us uss =>
      -- what stands on both sides of the mark becomes one summand
      obtain ⟨hts, -⟩ := List.forall_mem_cons.1 h.factors
      obtain ⟨hus, huss⟩ := List.forall_mem_cons.1 h'.factors
      exact ⟨List.cons_ne_nil _ _, List.forall_mem_cons.2
        ⟨⟨List.append_ne_nil_of_left_ne_nil hts.1 _, List.forall_mem_append.2 ⟨hts.2, hus.2⟩⟩, huss⟩⟩
    | case4 ts ts' tss uss ih =>
      exact ⟨List.cons_ne_nil _ _, List.forall_mem_cons.2 ⟨h.factors ts List.mem_cons_self, (ih h.of_cons h').factors⟩⟩

theorem spelled_summandsOf (hne : ms ≠ []) (h : ∀ t ∈ ms, Spelled P D t.summands) : Spelled P D (summandsOf j ms) := by
  induction ms with
  | nil => exact absurd rfl hne
  | cons t ts ih =>
    obtain ⟨ht, hts⟩ := List.forall_mem_cons.1 h
    cases ts with
    | nil => rwa [summandsOf, summandsOf, beside_nil]
    | cons u us => exact ht.beside j (ih (List.cons_ne_nil _ _) hts)

/-- A single one stands for itself, more than one are put together. -/
theorem composed_collapse (hne : ts ≠ []) (h : ∀ t ∈ ts, t.Composed P D Tighter ∧ t.rank < j.rank) :
    (collapse j.wrap ts).Composed P D Tighter ∧ (collapse j.wrap ts).rank ≤ j.rank := by
  match ts, hne with
  | [t], _ =>
    obtain ⟨ht, hrank⟩ := h t (List.mem_singleton_self t)
    exact ⟨ht, Nat.le_of_lt hrank⟩
  | t :: u :: ts, _ =>
    exact ⟨.wrap (fun v hv => (h v hv).1) ⟨Nat.le_add_left 2 ts.length, fun v hv => (h v hv).2⟩,
      Nat.le_of_eq (j.rank_wrap _)⟩

theorem Spelled.ofSummands (h : Spelled P D tss) : (ofSummands tss).Composed P D Tighter := by
  have hfactors (ts : List Ty) (hts : ts ∈ tss) := composed_collapse (j := .intersection) (h.factors ts hts).1
    fun t ht => ⟨((h.factors ts hts).2 t ht).1, ((h.factors ts hts).2 t ht).2 ▸ Joint.intersection.rank_pos⟩
  refine (composed_collapse (j := .union) (mt List.map_eq_nil_iff.1 h.ne_nil) ?_).1
  exact List.forall_mem_map.2 fun ts hts => ⟨(hfactors ts hts).1, Nat.lt_succ_of_le (hfactors ts hts).2⟩

theorem Composed.spelled (hC : ∀ j ms, C j ms → ms ≠ []) (h : t.Composed P D C) : Spelled P D t.summands := by
  induction h with
  | nothing => exact spelled_singleton .nothing rfl
  | param hp => exact spelled_singleton (.param hp) rfl
  | applied hd _ ih =>
    rw [summands, rereadAll_eq]
    exact spelled_singleton (.applied hd (List.forall_mem_map.2 fun u hu => (ih u hu).ofSummands)) rfl
  | wrap _ hms ih =>
    rw [summands_wrap]
    exact spelled_summandsOf (hC _ _ hms) ih

/-! ## Layers are read as they are -/

theorem Composed.of_wrap (h : (j.wrap ms).Composed P D C) : (∀ t ∈ ms, t.Composed P D C) ∧ C j ms := by
  generalize heq : j.wrap ms = t at h
  cases h with
  | @wrap j' ms' h hms =>
    cases j <;> cases j' <;> cases heq <;> exact ⟨h, hms⟩
  | _ => cases j <;> cases heq

theorem Composed.collapse_split (h : t.Composed P D Tighter) (j : Joint) : collapse j.wrap (j.split t) = t := by
  cases hinner : j.inner? t with
  | none =>
    rw [Joint.split, hinner, Option.getD_none]
    rfl
  | some ms =>
    obtain rfl := j.inner?_eq_some_iff.1 hinner
    rw [j.split_wrap, j.collapse_wrap h.of_wrap.2.1]

theorem Composed.split_ne_nil (h : t.Composed P D Tighter) (j : Joint) : j.split t ≠ [] := by
  cases hinner : j.inner? t with
  | none =>
    rw [Joint.split, hinner]
    exact List.cons_ne_nil _ _
  | some ms =>
    obtain rfl := j.inner?_eq_some_iff.1 hinner
    rw [j.split_wrap]
    exact h.of_wrap.2.ne_nil

/-- Types in layers are told apart by what they are split into. -/
theorem Composed.split_inj {u : Ty} (ht : t.Composed P D Tighter) (hu : u.Composed P D Tighter)
    (h : j.split t = j.split u) : t = u := by
  rw [← ht.collapse_split j, h, hu.collapse_split j]

theorem summandsOf_intersection (hne : ts ≠ []) (h : ∀ t ∈ ts, t.summands = [[t]]) :
    summandsOf .intersection ts = [ts] := by
  induction ts with
  | nil => exact absurd rfl hne
  | cons t ts ih =>
    obtain ⟨ht, hts⟩ := List.forall_mem_cons.1 h
    rw [summandsOf, ht]
    cases ts with
    | nil => rfl
    | cons u us =>
      rw [ih (List.cons_ne_nil _ _) hts]
      rfl

theorem summandsOf_union (ts : List Ty) : summandsOf .union ts = ts.flatMap summands := by
  induction ts with
  | nil => rfl
  | cons t ts ih =>
    rw [summandsOf, ih]
    rfl

theorem Composed.of_mem_split {u : Ty} (h : t.Composed P D Tighter) (hrank : t.rank ≤ j.rank) (hu : u ∈ j.split t) :
    u.Composed P D Tighter ∧ u.rank < j.rank := by
  cases hinner : j.inner? t with
  | none =>
    rw [Joint.split, hinner, Option.getD_none, List.mem_singleton] at hu
    refine hu ▸ ⟨h, Nat.lt_of_le_of_ne hrank fun heq => ?_⟩
    obtain ⟨ms, rfl⟩ := j.exists_eq_wrap heq
    exact absurd (hinner.symm.trans (j.inner?_eq_some_iff.2 rfl)) nofun
  | some ms =>
    obtain rfl := j.inner?_eq_some_iff.1 hinner
    rw [j.split_wrap] at hu
    exact ⟨h.of_wrap.1 u hu, h.of_wrap.2.2 u hu⟩

theorem rank_le (t : Ty) : t.rank ≤ Joint.union.rank := by cases t <;> simp [rank, Joint.rank]

theorem Composed.ofSummands_eq (h : t.Composed P D Tighter) :
    ofSummands ((Joint.union.split t).map Joint.intersection.split) = t := by
  have hsummand : ∀ u ∈ Joint.union.split t,
      (collapse .intersection ∘ Joint.intersection.split) u = u := fun u hu =>
    (h.of_mem_split (rank_le t) hu).1.collapse_split .intersection
  rw [ofSummands, List.map_map, List.map_congr_left hsummand, List.map_id']
  exact h.collapse_split .union

theorem Composed.summands_eq (h : t.Composed P D Tighter) :
    t.summands = (Joint.union.split t).map Joint.intersection.split := by
  induction h with
  | nothing => rfl
  | param => rfl
  | @applied d args hd hargs ih =>
    have hreread : ∀ u ∈ args, u.reread = u := by
      intro u hu
      rw [reread, ih u hu, (hargs u hu).ofSummands_eq]
    rw [summands, rereadAll_eq, List.map_congr_left hreread, List.map_id']
    rfl
  | @wrap j ms h hms ih =>
    rw [summands_wrap]
    cases j with
    | union =>
      have hmember : ∀ t ∈ ms, t.summands = [Joint.intersection.split t] := by
        intro t ht
        rw [ih t ht, Joint.union.split_of_rank_lt (hms.2 t ht), List.map_singleton]
      rw [summandsOf_union, List.flatMap_congr hmember, Joint.split_wrap, ← List.map_eq_flatMap]
    | intersection =>
      have hmember : ∀ t ∈ ms, t.summands = [[t]] := by
        intro t ht
        rw [ih t ht, Joint.union.split_of_rank_lt (Nat.lt_succ_of_lt (hms.2 t ht)), List.map_singleton,
          Joint.intersection.split_of_rank_lt (hms.2 t ht)]
      rw [summandsOf_intersection hms.ne_nil hmember, Joint.union.split_of_rank_lt (by rw [Joint.rank_wrap]; decide),
        List.map_singleton, Joint.split_wrap]

theorem Composed.reread_eq (h : t.Composed P D Tighter) : t.reread = t := by
  rw [reread, h.summands_eq, h.ofSummands_eq]

/-! ## Types that are in layers -/

/-- No intersection in the type has a union among its members. -/
def Layered (t : Ty) : Prop := ∀ ms, (intersection ms).Occurs t → ∀ us, union us ∉ ms

theorem Layered.of_part {u : Ty} (h : t.Layered) (hu : u ∈ t.parts) : u.Layered :=
  fun ms hms => h ms (hms.of_part hu)

theorem Composed.normal (h : t.Composed P D Members) : t.Normal := by
  induction h with
  | nothing => exact .nothing
  | param => exact .param _
  | applied _ _ ih => exact .applied _ ih
  | wrap _ hms ih => exact .wrap ih hms

theorem Composed.of_part {u : Ty} (h : t.Composed P D C) (hu : u ∈ t.parts) : u.Composed P D C := by
  cases h with
  | nothing | param => exact absurd hu List.not_mem_nil
  | applied _ hargs => exact hargs u hu
  | @wrap j _ h _ => cases j <;> exact h u hu

theorem Composed.join (h : ∀ t ∈ ms, t.Composed P D Members) : (j.join ms).Composed P D Members := by
  have hnormal : ∀ t ∈ ms, t.Normal := fun t ht => (h t ht).normal
  have hflat : ∀ u ∈ j.flat ms, u.Composed P D Members := by
    intro u hu
    obtain ⟨-, -, t, ht, rfl | hpart⟩ := mem_flat hnormal hu
    · exact h u ht
    · exact (h t ht).of_part hpart
  rcases join_cases (j := j) hnormal with ⟨-, heq⟩ | ⟨t, hone, heq⟩ | ⟨hms, heq⟩
  · exact heq ▸ .nothing
  · exact heq ▸ hflat t (hone ▸ List.mem_singleton_self t)
  · exact heq ▸ .wrap hflat hms

theorem Composed.unite (h : ∀ t ∈ ms, t.Composed P D Members) : (unite ms).Composed P D Members :=
  Composed.join (j := .union) h

theorem Composed.intersect (h : ∀ t ∈ ms, t.Composed P D Members) : (intersect ms).Composed P D Members := by
  unfold Ty.intersect
  split
  · exact .nothing
  · exact Composed.join (j := .intersection) h

theorem Composed.tighter (h : t.Composed P D Members) (hlayered : t.Layered) : t.Composed P D Tighter := by
  induction h with
  | nothing => exact .nothing
  | param hp => exact .param hp
  | applied hd _ ih => exact .applied hd fun u hu => ih u hu (hlayered.of_part hu)
  | @wrap j ms _ hms ih =>
    refine .wrap (fun u hu => ih u hu (hlayered.of_part ((j.parts_wrap ms).symm ▸ hu))) ⟨hms.two, fun u hu => ?_⟩
    -- a member is not of the kind itself, and no union where the type is in layers
    have hinner := (hms.members u hu).2
    cases j with
    | union =>
      refine Nat.lt_of_le_of_ne (rank_le u) fun heq => ?_
      obtain ⟨us, rfl⟩ := Joint.exists_eq_wrap _ heq
      exact nomatch hinner
    | intersection =>
      cases u with
      | union us => exact absurd hu (hlayered ms (.refl _) us)
      | intersection us => exact nomatch hinner
      | _ => exact Nat.one_pos

theorem Composed.layered (h : t.Composed P D Tighter) : t.Layered := by
  induction h with
  | nothing => simp [Layered]
  | param => simp [Layered]
  | applied _ _ ih =>
    intro ms hms
    obtain hself | ⟨u, hu, hin⟩ := occurs_applied.1 hms
    · exact nomatch hself
    · exact ih u hu ms hin
  | @wrap j ms _ hms ih =>
    intro vs hvs us hus
    rcases occurs_iff.1 hvs with hself | ⟨u, hu, hin⟩
    · cases j with
      | union => exact nomatch hself
      | intersection =>
        obtain rfl := intersection.inj hself
        exact absurd (show 2 < 1 from hms.2 _ hus) (by decide)
    · exact ih u (j.parts_wrap ms ▸ hu) vs hin us hus

theorem Members.ne_nil {j : Joint} (h : Members j ms) : ms ≠ [] :=
  List.ne_nil_of_length_pos (Nat.lt_of_lt_of_le Nat.zero_lt_two h.two)

/-- Just the types that are in layers are read as they are. -/
theorem Composed.layered_iff (h : t.Composed P D Members) : t.Layered ↔ t.reread = t := by
  refine ⟨fun hlayered => (h.tighter hlayered).reread_eq, fun heq => ?_⟩
  exact heq ▸ (h.spelled fun _ _ => Members.ne_nil).ofSummands.layered

end

end SemCheck.Ty
