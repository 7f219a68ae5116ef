import Mathlib.Data.List.Flatten
import Mathlib.Data.List.Induction
import Mathlib.Data.List.Nodup
import SemCheck.Ty.Substitution

/-!
# Normal types

A type is *normal* if each of its unions and intersections has at least two members, all of them different, none of
them `nothing` or of the kind of the whole. `Ty.unite` and `Ty.intersect` make normal types of normal members
(`Normal.unite`, `Normal.intersect`).

A map that makes the unions and intersections in a type anew commutes with `unite` and `intersect` on normal types
(`map_unite`, `map_intersect`): it makes no difference whether members are flattened, and repeated ones dropped, before
or after the map.
-/

namespace SemCheck

/-! ## Lists that drop repetitions to the same list -/

section

variable {α β : Type} [BEq α] [LawfulBEq α] {as as' bs bs' : List α}

theorem eraseDups_of_nodup (h : as.Nodup) : as.eraseDups = as := by
  induction as with
  | nil => rfl
  | cons a as ih =>
    obtain ⟨ha, hnodup⟩ := List.nodup_cons.1 h
    have hfilter : as.filter (fun b => !b == a) = as := by
      rw [List.filter_eq_self]
      intro b hb
      simpa using fun heq : b = a => ha (heq ▸ hb)
    rw [List.eraseDups_cons, hfilter, ih hnodup]

/-- What is there already is dropped. -/
theorem eraseDups_append_of_subset (h : bs ⊆ as) : (as ++ bs).eraseDups = as.eraseDups := by
  have hnone : bs.removeAll as = [] := by
    rw [List.removeAll, List.filter_eq_nil_iff]
    intro b hb
    simpa using h hb
  rw [List.eraseDups_append, hnone, List.eraseDups_nil, List.append_nil]

theorem eraseDups_append_singleton_of_mem {a : α} (h : a ∈ as) : (as ++ [a]).eraseDups = as.eraseDups :=
  eraseDups_append_of_subset (List.cons_subset.2 ⟨h, List.nil_subset as⟩)

theorem eraseDups_append_singleton_of_not_mem {a : α} (h : a ∉ as) : (as ++ [a]).eraseDups = as.eraseDups ++ [a] := by
  have hall : [a].removeAll as = [a] := by simpa [List.removeAll] using h
  rw [List.eraseDups_append, hall]
  rfl

theorem eraseDups_filter (p : α → Bool) (as : List α) : (as.filter p).eraseDups = as.eraseDups.filter p := by
  induction as using List.reverseRecOn with
  | nil => rfl
  | append_singleton as a ih =>
    rw [List.filter_append]
    by_cases ha : a ∈ as
    · have hsub : [a].filter p ⊆ as.filter p := by
        intro b hb
        obtain ⟨hb, hp⟩ := List.mem_filter.1 hb
        rw [List.mem_singleton.1 hb] at hp ⊢
        exact List.mem_filter.2 ⟨ha, hp⟩
      rw [eraseDups_append_of_subset hsub, eraseDups_append_singleton_of_mem ha, ih]
    · rw [eraseDups_append_singleton_of_not_mem ha, List.filter_append, ← ih]
      cases hp : p a with
      | false => simp [hp]
      | true =>
        rw [List.filter_cons_of_pos hp, List.filter_nil]
        exact eraseDups_append_singleton_of_not_mem fun hmem => ha (List.mem_filter.1 hmem).1

theorem eraseDups_append_congr (h : as.eraseDups = as'.eraseDups) (h' : bs.eraseDups = bs'.eraseDups) :
    (as ++ bs).eraseDups = (as' ++ bs').eraseDups := by
  have hmem (b : α) : as.elem b = as'.elem b := by
    rw [Bool.eq_iff_iff, List.elem_iff, List.elem_iff, ← List.mem_eraseDups, h, List.mem_eraseDups]
  simp only [List.eraseDups_append, List.removeAll, eraseDups_filter, h, h', hmem]

theorem eraseDups_flatMap_congr {as : List β} {f g : β → List α}
    (h : ∀ a ∈ as, (f a).eraseDups = (g a).eraseDups) : (as.flatMap f).eraseDups = (as.flatMap g).eraseDups := by
  induction as with
  | nil => rfl
  | cons a as ih =>
    obtain ⟨ha, has⟩ := List.forall_mem_cons.1 h
    exact eraseDups_append_congr ha (ih has)

/-- What a repeated value gives is there already. -/
theorem eraseDups_flatMap_eraseDups [BEq β] [LawfulBEq β] (as : List β) (f : β → List α) :
    (as.eraseDups.flatMap f).eraseDups = (as.flatMap f).eraseDups := by
  induction as using List.reverseRecOn with
  | nil => rfl
  | append_singleton as a ih =>
    rw [List.flatMap_append, List.flatMap_singleton]
    by_cases ha : a ∈ as
    · have hsub : f a ⊆ as.flatMap f := fun b hb => List.mem_flatMap.2 ⟨a, ha, hb⟩
      rw [eraseDups_append_singleton_of_mem ha, eraseDups_append_of_subset hsub, ih]
    · rw [eraseDups_append_singleton_of_not_mem ha, List.flatMap_append, List.flatMap_singleton]
      exact eraseDups_append_congr ih rfl

/-- A map that tells values apart keeps what is dropped. -/
theorem eraseDups_map [BEq β] [LawfulBEq β] {f : α → β} (h : ∀ a ∈ as, ∀ b ∈ as, f a = f b → a = b) :
    (as.map f).eraseDups = as.eraseDups.map f := by
  induction as using List.reverseRecOn with
  | nil => rfl
  | append_singleton as a ih =>
    have ih := ih fun b hb c hc => h b (List.mem_append_left _ hb) c (List.mem_append_left _ hc)
    rw [List.map_append, List.map_singleton]
    by_cases ha : a ∈ as
    · rw [eraseDups_append_singleton_of_mem ha, eraseDups_append_singleton_of_mem (List.mem_map_of_mem ha), ih]
    · have hmap : f a ∉ as.map f := by
        intro hmem
        obtain ⟨b, hb, heq⟩ := List.mem_map.1 hmem
        exact ha (h b (List.mem_append_left _ hb) a (by simp) heq ▸ hb)
      rw [eraseDups_append_singleton_of_not_mem ha, eraseDups_append_singleton_of_not_mem hmap, ih, List.map_append,
        List.map_singleton]

end

/-! ## Unions and intersections alike -/

namespace Ty

/-- A kind of type that is made of members. -/
inductive Joint
  | union
  | intersection

namespace Joint

def wrap : Joint → List Ty → Ty
  | union => .union
  | intersection => .intersection

def inner? : Joint → Ty → Option (List Ty)
  | union => unionMembers?
  | intersection => intersectionMembers?

/-- The members that one member comes to. -/
def opened (j : Joint) (t : Ty) : List Ty := contribution .nothing j.inner? t

/-- The members that all members come to. -/
def flat (j : Joint) (ms : List Ty) : List Ty := flatten .nothing j.inner? ms

/-- The type made of some members. -/
def join (j : Joint) (ms : List Ty) : Ty := collapse j.wrap (j.flat ms)

variable (j : Joint) {t : Ty} {ms : List Ty}

theorem inner?_eq_some_iff : j.inner? t = some ms ↔ t = j.wrap ms := by
  cases j <;> cases t <;> simp [inner?, wrap, unionMembers?, intersectionMembers?]

theorem inner?_nothing : j.inner? .nothing = none := by cases j <;> rfl

theorem opened_wrap (ms : List Ty) : j.opened (j.wrap ms) = ms := by
  rw [opened, contribution, j.inner?_eq_some_iff.2 rfl]

theorem opened_nothing : j.opened .nothing = [] := by
  rw [opened, contribution, j.inner?_nothing]
  exact if_pos rfl

theorem flat_eq (ms : List Ty) : j.flat ms = (ms.flatMap j.opened).eraseDups := distinct_eq _

theorem opened_subset_flat (h : t ∈ ms) : j.opened t ⊆ j.flat ms := by
  intro u hu
  rw [j.flat_eq, List.mem_eraseDups]
  exact List.mem_flatMap.2 ⟨t, h, hu⟩

end Joint

/-- A type that stands for itself among members. -/
def IsMember (j : Joint) (t : Ty) : Prop := t ≠ .nothing ∧ j.inner? t = none

/-- Members as they are left by flattening, and enough of them. -/
structure Members (j : Joint) (ms : List Ty) : Prop where
  two : 2 ≤ ms.length
  nodup : ms.Nodup
  members : ∀ t ∈ ms, IsMember j t

/-- A type whose unions and intersections are made of `Members`. -/
inductive Normal : Ty → Prop
  | nothing : Normal .nothing
  | unknown (n : Nat) : Normal (.unknown n)
  | param (p : DeclId) : Normal (.param p)
  | applied (d : DeclId) {args : List Ty} (h : ∀ t ∈ args, Normal t) : Normal (.applied d args)
  | union {ms : List Ty} (h : ∀ t ∈ ms, Normal t) (hms : Members .union ms) : Normal (.union ms)
  | intersection {ms : List Ty} (h : ∀ t ∈ ms, Normal t) (hms : Members .intersection ms) : Normal (.intersection ms)

section

variable {j : Joint} {t : Ty} {ms : List Ty}

theorem Normal.wrap (h : ∀ t ∈ ms, t.Normal) (hms : Members j ms) : (j.wrap ms).Normal := by
  cases j with
  | union => exact .union h hms
  | intersection => exact .intersection h hms

theorem Normal.of_wrap (h : (j.wrap ms).Normal) : (∀ t ∈ ms, t.Normal) ∧ Members j ms := by
  cases j with
  | union =>
    cases h with
    | union h hms => exact ⟨h, hms⟩
  | intersection =>
    cases h with
    | intersection h hms => exact ⟨h, hms⟩

theorem IsMember.opened (h : IsMember j t) : j.opened t = [t] := by
  rw [Joint.opened, contribution, h.2]
  exact if_neg h.1

/-- A normal type is `nothing`, made of members, or a member itself. -/
theorem Normal.cases_joint (h : t.Normal) :
    t = .nothing ∨ IsMember j t ∨ ∃ ms, t = j.wrap ms ∧ (∀ t ∈ ms, t.Normal) ∧ Members j ms := by
  cases hinner : j.inner? t with
  | none =>
    by_cases hnothing : t = .nothing
    · exact Or.inl hnothing
    · exact Or.inr (Or.inl ⟨hnothing, hinner⟩)
  | some ms =>
    obtain rfl := j.inner?_eq_some_iff.1 hinner
    exact Or.inr (Or.inr ⟨ms, rfl, h.of_wrap⟩)

/-! ### Joining normal types -/

theorem mem_opened (h : t.Normal) {u : Ty} (hu : u ∈ j.opened t) :
    IsMember j u ∧ u.Normal ∧ (u = t ∨ u ∈ t.parts) := by
  rcases h.cases_joint (j := j) with rfl | hmember | ⟨ms, rfl, hnormal, hms⟩
  · rw [j.opened_nothing] at hu
    exact absurd hu List.not_mem_nil
  · rw [hmember.opened, List.mem_singleton] at hu
    rw [hu]
    exact ⟨hmember, h, Or.inl rfl⟩
  · rw [j.opened_wrap] at hu
    refine ⟨hms.members u hu, hnormal u hu, Or.inr ?_⟩
    cases j <;> exact hu

theorem mem_flat (h : ∀ t ∈ ms, t.Normal) {u : Ty} (hu : u ∈ j.flat ms) :
    IsMember j u ∧ u.Normal ∧ ∃ t ∈ ms, u = t ∨ u ∈ t.parts := by
  rw [j.flat_eq, List.mem_eraseDups] at hu
  obtain ⟨t, ht, hu⟩ := List.mem_flatMap.1 hu
  obtain ⟨hmember, hnormal, hwhere⟩ := mem_opened (h t ht) hu
  exact ⟨hmember, hnormal, t, ht, hwhere⟩

theorem nodup_flat (ms : List Ty) : (j.flat ms).Nodup := nodup_distinct _

/-- What is joined: nothing, one member or several. -/
theorem join_cases (h : ∀ t ∈ ms, t.Normal) :
    j.flat ms = [] ∧ j.join ms = .nothing ∨ (∃ t, j.flat ms = [t] ∧ j.join ms = t) ∨
      Members j (j.flat ms) ∧ j.join ms = j.wrap (j.flat ms) := by
  unfold Joint.join
  rcases hflat : j.flat ms with _ | ⟨t, _ | ⟨u, us⟩⟩
  · exact Or.inl ⟨rfl, rfl⟩
  · exact Or.inr (Or.inl ⟨t, rfl, rfl⟩)
  · refine Or.inr (Or.inr ⟨⟨by simp, hflat ▸ nodup_flat ms, fun v hv => (mem_flat h (hflat ▸ hv)).1⟩, rfl⟩)

theorem Normal.join (h : ∀ t ∈ ms, t.Normal) : (j.join ms).Normal := by
  have hflat : ∀ t ∈ j.flat ms, t.Normal := fun t ht => (mem_flat h ht).2.1
  rcases join_cases (j := j) h with ⟨-, heq⟩ | ⟨t, hone, heq⟩ | ⟨hms, heq⟩
  · rw [heq]
    exact .nothing
  · rw [heq]
    exact hflat t (hone ▸ List.mem_singleton_self t)
  · rw [heq]
    exact .wrap hflat hms

/-- What is joined opens to the members again. -/
theorem opened_join (h : ∀ t ∈ ms, t.Normal) : j.opened (j.join ms) = j.flat ms := by
  rcases join_cases (j := j) h with ⟨hnil, heq⟩ | ⟨t, hone, heq⟩ | ⟨-, heq⟩
  · rw [heq, hnil, j.opened_nothing]
  · rw [heq, hone]
    exact (mem_flat h (hone ▸ List.mem_singleton_self t)).1.opened
  · rw [heq, j.opened_wrap]

theorem Members.collapse_eq (h : Members j ms) : collapse j.wrap ms = j.wrap ms :=
  match ms, h.two with
  | _ :: _ :: _, _ => rfl

/-- Members are left as they are. -/
theorem Members.join_eq (h : Members j ms) : j.join ms = j.wrap ms := by
  have hopened : ms.flatMap j.opened = ms := by
    rw [List.flatMap_congr fun t ht => (h.members t ht).opened, List.flatMap_singleton']
  rw [Joint.join, j.flat_eq, hopened, eraseDups_of_nodup h.nodup, h.collapse_eq]

/-- A normal type is what its members are joined to. -/
theorem Normal.collapse_opened (h : t.Normal) : collapse j.wrap (j.opened t) = t := by
  rcases h.cases_joint (j := j) with rfl | hmember | ⟨ms, rfl, -, hms⟩
  · rw [j.opened_nothing]
    rfl
  · rw [hmember.opened]
    rfl
  · rw [j.opened_wrap, hms.collapse_eq]

theorem Normal.nodup_opened (h : t.Normal) : (j.opened t).Nodup := by
  rcases h.cases_joint (j := j) with rfl | hmember | ⟨ms, rfl, -, hms⟩
  · rw [j.opened_nothing]
    exact List.nodup_nil
  · rw [hmember.opened]
    exact List.nodup_singleton t
  · rw [j.opened_wrap]
    exact hms.nodup

theorem Normal.join_singleton (h : t.Normal) : j.join [t] = t := by
  rw [Joint.join, j.flat_eq, List.flatMap_singleton, eraseDups_of_nodup h.nodup_opened, h.collapse_opened]

theorem join_ne_nothing (h : ∀ t ∈ ms, t.Normal) (ht : t ∈ ms) (hne : t ≠ .nothing) : j.join ms ≠ .nothing := by
  rcases join_cases (j := j) h with ⟨hnil, -⟩ | ⟨u, hone, heq⟩ | ⟨-, heq⟩
  · have hopened : j.opened t = [] := by
      rw [List.eq_nil_iff_forall_not_mem]
      intro u hu
      have hmem := j.opened_subset_flat ht hu
      rw [hnil] at hmem
      exact List.not_mem_nil hmem
    have hcollapse := (h t ht).collapse_opened (j := j)
    rw [hopened] at hcollapse
    exact absurd hcollapse.symm hne
  · rw [heq]
    exact (mem_flat h (hone ▸ List.mem_singleton_self u)).1.1
  · rw [heq]
    cases j <;> exact nofun

/-! ### Maps -/

variable {f : Ty → Ty}

theorem flat_map (h : ∀ t ∈ ms, (j.opened (f t)).eraseDups = ((j.opened t).flatMap fun u => j.opened (f u)).eraseDups) :
    j.flat (ms.map f) = j.flat ((j.flat ms).map f) := by
  simp only [j.flat_eq, List.flatMap_map]
  rw [eraseDups_flatMap_congr h, eraseDups_flatMap_eraseDups, List.flatMap_assoc]

/-- A map that joins the images of the members of what it is given commutes with joining. -/
theorem map_join (h : ∀ t ∈ ms, t.Normal) (hf : ∀ t, (f t).Normal) (hnothing : f .nothing = .nothing)
    (hwrap : ∀ us ⊆ j.flat ms, f (j.wrap us) = j.join (us.map f)) : f (j.join ms) = j.join (ms.map f) := by
  have hopened : ∀ t ∈ ms,
      (j.opened (f t)).eraseDups = ((j.opened t).flatMap fun u => j.opened (f u)).eraseDups := by
    intro t ht
    rcases (h t ht).cases_joint (j := j) with rfl | hmember | ⟨us, rfl, -, -⟩
    · rw [hnothing, j.opened_nothing, List.flatMap_nil]
    · rw [hmember.opened, List.flatMap_singleton]
    · have hsub : us ⊆ j.flat ms := by
        intro u hu
        rw [j.flat_eq, List.mem_eraseDups]
        exact List.mem_flatMap.2 ⟨_, ht, by rwa [j.opened_wrap]⟩
      have hnormal : ∀ u ∈ us.map f, u.Normal := List.forall_mem_map.2 fun u _ => hf u
      rw [hwrap us hsub, opened_join hnormal, j.opened_wrap, eraseDups_of_nodup (nodup_flat _), j.flat_eq,
        List.flatMap_map]
  have hjoin : j.join (ms.map f) = j.join ((j.flat ms).map f) := by
    rw [Joint.join, Joint.join, flat_map hopened]
  rw [hjoin]
  rcases join_cases (j := j) h with ⟨hnil, heq⟩ | ⟨t, hone, heq⟩ | ⟨-, heq⟩
  · rw [heq, hnil, hnothing]
    rfl
  · rw [heq, hone]
    exact (hf t).join_singleton.symm
  · rw [heq]
    exact hwrap _ (List.Subset.refl _)

theorem intersect_of_mem (h : .nothing ∈ ms) : intersect ms = .nothing := if_pos h

theorem intersect_of_not_mem (h : .nothing ∉ ms) : intersect ms = Joint.intersection.join ms := if_neg h

theorem Members.unite_eq (h : Members .union ms) : unite ms = .union ms := h.join_eq

theorem Members.intersect_eq (h : Members .intersection ms) : intersect ms = .intersection ms := by
  rw [intersect_of_not_mem fun hms => (h.members _ hms).1 rfl]
  exact h.join_eq

theorem Normal.unite (h : ∀ t ∈ ms, t.Normal) : (unite ms).Normal := Normal.join (j := .union) h

theorem Normal.intersect (h : ∀ t ∈ ms, t.Normal) : (intersect ms).Normal := by
  unfold Ty.intersect
  split
  · exact .nothing
  · exact Normal.join (j := .intersection) h

theorem map_unite (h : ∀ t ∈ ms, t.Normal) (hf : ∀ t, (f t).Normal) (hnothing : f .nothing = .nothing)
    (hunion : ∀ us, f (.union us) = unite (us.map f)) : f (unite ms) = unite (ms.map f) :=
  map_join (j := .union) h hf hnothing fun us _ => hunion us

/-- A member of a member that the map takes to `nothing` takes the whole member there. -/
theorem nothing_mem_map_of_flat (h : ∀ t ∈ ms, t.Normal) (hnothing : f .nothing = .nothing)
    (hintersection : ∀ us, f (.intersection us) = intersect (us.map f)) {u : Ty} (hu : u ∈ Joint.intersection.flat ms)
    (habsorbed : f u = .nothing) : .nothing ∈ ms.map f := by
  rw [Joint.flat_eq, List.mem_eraseDups] at hu
  obtain ⟨t, ht, hu⟩ := List.mem_flatMap.1 hu
  refine List.mem_map.2 ⟨t, ht, ?_⟩
  rcases (h t ht).cases_joint (j := .intersection) with rfl | hmember | ⟨us, rfl, -, -⟩
  · exact hnothing
  · rw [hmember.opened, List.mem_singleton] at hu
    rw [← hu, habsorbed]
  · rw [Joint.opened_wrap] at hu
    exact (hintersection us).trans (intersect_of_mem (List.mem_map.2 ⟨u, hu, habsorbed⟩))

/-- No other members are taken there. -/
theorem exists_mem_flat_of_nothing_mem_map (h : ∀ t ∈ ms, t.Normal) (hf : ∀ t, (f t).Normal) (hms : .nothing ∉ ms)
    (hintersection : ∀ us, f (.intersection us) = intersect (us.map f)) (himage : .nothing ∈ ms.map f) :
    ∃ u ∈ Joint.intersection.flat ms, f u = .nothing := by
  obtain ⟨t, ht, heq⟩ := List.mem_map.1 himage
  have hopened := Joint.intersection.opened_subset_flat ht
  rcases (h t ht).cases_joint (j := .intersection) with rfl | hmember | ⟨us, rfl, -, htwo, -⟩
  · exact absurd ht hms
  · rw [hmember.opened] at hopened
    exact ⟨t, hopened (List.mem_singleton_self t), heq⟩
  · rw [Joint.opened_wrap] at hopened
    by_cases hmem : .nothing ∈ us.map f
    · obtain ⟨u, hu, habsorbed⟩ := List.mem_map.1 hmem
      exact ⟨u, hopened hu, habsorbed⟩
    · obtain ⟨u, hu⟩ := List.exists_mem_of_length_pos (Nat.lt_of_lt_of_le Nat.zero_lt_two htwo)
      have hne : f u ≠ .nothing := fun habsorbed => hmem (List.mem_map.2 ⟨u, hu, habsorbed⟩)
      have hjoin := join_ne_nothing (j := .intersection) (List.forall_mem_map.2 fun v _ => hf v)
        (List.mem_map_of_mem hu) hne
      rw [← intersect_of_not_mem hmem, ← hintersection us] at hjoin
      exact absurd heq hjoin

/-- Members that the map takes to `nothing` absorb the others before the map or after it. -/
theorem map_intersect (h : ∀ t ∈ ms, t.Normal) (hf : ∀ t, (f t).Normal) (hnothing : f .nothing = .nothing)
    (hintersection : ∀ us, f (.intersection us) = intersect (us.map f)) : f (intersect ms) = intersect (ms.map f) := by
  by_cases hms : .nothing ∈ ms
  · have himage : .nothing ∈ ms.map f := List.mem_map.2 ⟨.nothing, hms, hnothing⟩
    rw [intersect_of_mem hms, intersect_of_mem himage, hnothing]
  rw [intersect_of_not_mem hms]
  by_cases habsorbed : ∃ u ∈ Joint.intersection.flat ms, f u = .nothing
  · obtain ⟨u, hu, habsorbed⟩ := habsorbed
    rw [intersect_of_mem (nothing_mem_map_of_flat h hnothing hintersection hu habsorbed)]
    rcases join_cases (j := .intersection) h with ⟨hnil, -⟩ | ⟨t, hone, heq⟩ | ⟨-, heq⟩
    · rw [hnil] at hu
      exact absurd hu List.not_mem_nil
    · rw [hone, List.mem_singleton] at hu
      rw [heq, ← hu, habsorbed]
    · rw [heq]
      exact (hintersection _).trans (intersect_of_mem (List.mem_map.2 ⟨u, hu, habsorbed⟩))
  · rw [intersect_of_not_mem (mt (exists_mem_flat_of_nothing_mem_map h hf hms hintersection) habsorbed)]
    refine map_join (j := .intersection) h hf hnothing fun us hus => ?_
    have hkept : .nothing ∉ us.map f := by
      intro hmem
      obtain ⟨u, hu, heq⟩ := List.mem_map.1 hmem
      exact habsorbed ⟨u, hus hu, heq⟩
    exact (hintersection us).trans (intersect_of_not_mem hkept)

end

end Ty

end SemCheck
