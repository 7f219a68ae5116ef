import SemCheck.Proofs.Occurrence.SelfType
import SemCheck.Proofs.Ty.Normal

/-!
# Self types in unions and intersections

An argument may be joined with another type: a union or an intersection of the two takes its place. What is passed
illegally inside the argument stays so, as the scan goes into members (`Model.reports_join_iff`).

Main statement: the joint hides an illegal self type exactly if the argument is the self type itself and becomes a
member, and the self type is not passed illegally elsewhere or in what it is joined with
(`Model.illegalSelfTypes_joined`).
-/

namespace SemCheck

namespace Ty

/-- `v` is a union of `t` and `u`, or an intersection of them other than `nothing`. -/
def JoinedAs (t u v : Ty) : Prop :=
  (v = unite [t, u] ∨ v = unite [u, t]) ∨ (v = intersect [t, u] ∨ v = intersect [u, t]) ∧ v ≠ .nothing

variable {t u v : Ty} {ts ms : List Ty} {j : Joint} {n : Nat}

theorem JoinedAs.exists_join (h : t.JoinedAs u v) : ∃ (j : Joint) (ms : List Ty),
    (ms = [t, u] ∨ ms = [u, t]) ∧ v = j.join ms := by
  have hintersect {ms : List Ty} (heq : v = intersect ms) (hne : v ≠ .nothing) : v = Joint.intersection.join ms := by
    rw [heq] at hne ⊢
    exact intersect_of_not_mem fun hmem => hne (intersect_of_mem hmem)
  rcases h with (heq | heq) | ⟨heq | heq, hne⟩
  · exact ⟨.union, _, Or.inl rfl, heq⟩
  · exact ⟨.union, _, Or.inr rfl, heq⟩
  · exact ⟨.intersection, _, Or.inl rfl, hintersect heq hne⟩
  · exact ⟨.intersection, _, Or.inr rfl, hintersect heq hne⟩

/-- A parameter joined with itself stays as it is. -/
theorem JoinedAs.eq_param {p : DeclId} (h : (param p).JoinedAs (param p) v) : v = .param p := by
  obtain ⟨j, ms, hms, rfl⟩ := h.exists_join
  obtain rfl : ms = [.param p, .param p] := hms.elim id id
  have hmember : IsMember j (.param p) := by cases j <;> exact ⟨by simp, rfl⟩
  have hflat : j.flat [.param p, .param p] = [.param p] := by
    rw [j.flat_eq, List.flatMap_cons, List.flatMap_singleton, hmember.opened]
    exact eraseDups_append_of_subset (List.Subset.refl _)
  rw [Joint.join, hflat]
  rfl

/-! ## How much there is of a joint -/

theorem nestingOf_le_iff : nestingOf ts ≤ n ↔ ∀ t ∈ ts, t.nesting ≤ n := by
  induction ts with
  | nil => simp [nestingOf]
  | cons t ts ih => rw [nestingOf, Nat.max_le, ih, List.forall_mem_cons]

theorem nesting_wrap (ms : List Ty) : (j.wrap ms).nesting = nestingOf ms := by cases j <;> rfl

theorem applications_wrap (ms : List Ty) : (j.wrap ms).applications = applicationsOf ms := by cases j <;> rfl

theorem applicationsOf_append (ts us : List Ty) :
    applicationsOf (ts ++ us) = applicationsOf ts + applicationsOf us := by
  induction ts with
  | nil => simp [applicationsOf]
  | cons t ts ih => simp [applicationsOf, ih, Nat.add_assoc]

theorem applicationsOf_eraseDups_le (ts : List Ty) : applicationsOf ts.eraseDups ≤ applicationsOf ts := by
  induction ts using List.reverseRecOn with
  | nil => exact Nat.le_refl _
  | append_singleton ts t ih =>
    rw [applicationsOf_append]
    by_cases ht : t ∈ ts
    · rw [eraseDups_append_singleton_of_mem ht]
      omega
    · rw [eraseDups_append_singleton_of_not_mem ht, applicationsOf_append]
      omega

/-- What a member comes to: no type, itself or its own members. -/
theorem opened_cases (j : Joint) (t : Ty) :
    t = .nothing ∧ j.opened t = [] ∨ j.opened t = [t] ∨ t = j.wrap (j.opened t) := by
  rw [Joint.opened, contribution]
  split
  · next inner h => exact Or.inr (Or.inr (j.inner?_eq_some_iff.1 h))
  · split
    · next hnothing => exact Or.inl ⟨hnothing, rfl⟩
    · exact Or.inr (Or.inl rfl)

theorem nesting_le_of_mem_opened (h : u ∈ j.opened t) : u.nesting ≤ t.nesting := by
  rcases opened_cases j t with ⟨-, heq⟩ | heq | heq
  · exact absurd (heq ▸ h) List.not_mem_nil
  · rw [heq, List.mem_singleton] at h
    exact Nat.le_of_eq (congrArg nesting h)
  · rw [heq, nesting_wrap]
    exact nestingOf_le_iff.1 (Nat.le_refl _) u h

theorem applicationsOf_opened_le (j : Joint) (t : Ty) : applicationsOf (j.opened t) ≤ t.applications := by
  rcases opened_cases j t with ⟨-, heq⟩ | heq | heq
  · exact heq ▸ Nat.zero_le _
  · exact Nat.le_of_eq (by rw [heq]; rfl)
  · exact Nat.le_of_eq (by rw [← applications_wrap (j := j), ← heq])

theorem applicationsOf_flatMap_opened_le (j : Joint) (ms : List Ty) :
    applicationsOf (ms.flatMap j.opened) ≤ applicationsOf ms := by
  induction ms with
  | nil => exact Nat.le_refl _
  | cons t ms ih =>
    have ht := applicationsOf_opened_le j t
    rw [List.flatMap_cons, applicationsOf_append, applicationsOf]
    omega

theorem nesting_collapse (j : Joint) (ts : List Ty) : (collapse j.wrap ts).nesting = nestingOf ts :=
  match ts with
  | [] => rfl
  | [_] => (Nat.max_zero _).symm
  | _ :: _ :: _ => nesting_wrap _

theorem applications_collapse (j : Joint) (ts : List Ty) : (collapse j.wrap ts).applications = applicationsOf ts :=
  match ts with
  | [] => rfl
  | [_] => rfl
  | _ :: _ :: _ => applications_wrap _

theorem nesting_join_le (j : Joint) (ms : List Ty) : (j.join ms).nesting ≤ nestingOf ms := by
  rw [Joint.join, nesting_collapse, nestingOf_le_iff, j.flat_eq]
  intro u hu
  obtain ⟨t, ht, hu⟩ := List.mem_flatMap.1 (List.mem_eraseDups.1 hu)
  exact Nat.le_trans (nesting_le_of_mem_opened hu) (nestingOf_le_iff.1 (Nat.le_refl _) t ht)

theorem applications_join_le (j : Joint) (ms : List Ty) : (j.join ms).applications ≤ applicationsOf ms := by
  rw [Joint.join, applications_collapse, j.flat_eq]
  exact Nat.le_trans (applicationsOf_eraseDups_le _) (applicationsOf_flatMap_opened_le j ms)

theorem JoinedAs.nesting_le (h : t.JoinedAs u v) : v.nesting ≤ max t.nesting u.nesting := by
  obtain ⟨j, ms, hms, rfl⟩ := h.exists_join
  have hle := nesting_join_le j ms
  rcases hms with rfl | rfl
  all_goals
    simp only [nestingOf] at hle
    omega

theorem JoinedAs.applications_le (h : t.JoinedAs u v) : v.applications ≤ t.applications + u.applications := by
  obtain ⟨j, ms, hms, rfl⟩ := h.exists_join
  have hle := applications_join_le j ms
  rcases hms with rfl | rfl
  all_goals
    simp only [applicationsOf] at hle
    omega

theorem nestingOf_set_le (ts : List Ty) (i : Nat) (u : Ty) : nestingOf (ts.set i u) ≤ max (nestingOf ts) u.nesting := by
  rw [nestingOf_le_iff]
  intro t ht
  rcases List.mem_or_eq_of_mem_set ht with ht | rfl
  · exact Nat.le_trans (nestingOf_le_iff.1 (Nat.le_refl _) t ht) (Nat.le_max_left _ _)
  · exact Nat.le_max_right _ _

/-- What takes the place of an argument counts in its stead. -/
theorem applicationsOf_set {i : Nat} (h : ts[i]? = some t) (u : Ty) :
    applicationsOf (ts.set i u) + t.applications = applicationsOf ts + u.applications := by
  induction ts generalizing i with
  | nil => exact absurd h nofun
  | cons v ts ih =>
    cases i with
    | zero =>
      obtain rfl : v = t := Option.some.inj h
      simp only [List.set_cons_zero, applicationsOf]
      omega
    | succ i =>
      have := ih h
      simp only [List.set_cons_succ, applicationsOf]
      omega

end Ty

namespace Model

variable {m : Model} {enters : Argument → Prop} {report : Argument → DeclId → Prop} {polarity : Variance}

/-! ## What is reported for a joint -/

theorem reports_wrap_iff {j : Ty.Joint} {ms : List Ty} {p : DeclId} :
    m.Reports enters report polarity (j.wrap ms) p ↔ ∃ t ∈ ms, m.Reports enters report polarity t p := by
  cases j with
  | union => exact reports_union_iff
  | intersection => exact reports_intersection_iff

/-- **A joint is transparent**: what is reported for it is reported for one of the types that are joined. -/
theorem reports_join_iff {j : Ty.Joint} {ms : List Ty} {p : DeclId} :
    m.Reports enters report polarity (j.join ms) p ↔ ∃ t ∈ ms, m.Reports enters report polarity t p := by
  have hnothing : ¬ m.Reports enters report polarity .nothing p := not_reports_of_parts (by simp) rfl
  have hcollapse (ts : List Ty) : m.Reports enters report polarity (Ty.collapse j.wrap ts) p ↔
      ∃ t ∈ ts, m.Reports enters report polarity t p :=
    match ts with
    | [] => iff_of_false hnothing fun ⟨_, ht, _⟩ => List.not_mem_nil ht
    | [_] => by simp [Ty.collapse]
    | _ :: _ :: _ => reports_wrap_iff
  have hopened (t : Ty) : (∃ u ∈ j.opened t, m.Reports enters report polarity u p) ↔
      m.Reports enters report polarity t p := by
    rcases Ty.opened_cases j t with ⟨rfl, heq⟩ | heq | heq
    · rw [heq]
      exact iff_of_false (fun ⟨_, hu, _⟩ => List.not_mem_nil hu) hnothing
    · simp [heq]
    · rw [← reports_wrap_iff, ← heq]
  have hflat : (∃ u ∈ j.flat ms, m.Reports enters report polarity u p) ↔
      ∃ t ∈ ms, ∃ u ∈ j.opened t, m.Reports enters report polarity u p := by
    simp only [j.flat_eq, List.mem_eraseDups, List.mem_flatMap]
    grind
  rw [Ty.Joint.join, hcollapse, hflat]
  simp only [hopened]

theorem reports_joined_iff {t u v : Ty} {p : DeclId} (h : t.JoinedAs u v) :
    m.Reports enters report polarity v p ↔
      m.Reports enters report polarity t p ∨ m.Reports enters report polarity u p := by
  obtain ⟨j, ms, hms, rfl⟩ := h.exists_join
  rw [reports_join_iff]
  rcases hms with rfl | rfl
  · simp
  · simp [or_comm]

/-! ## Self types in the place of an argument -/

variable {d : DeclId} {args : List Ty} {i : Nat} {t u v : Ty}

theorem mem_argumentsOf_iff {a : Argument} : a ∈ m.argumentsOf polarity d args ↔
    ∃ (k : Nat) (p : DeclId) (t : Ty), (m.typeParametersOf d)[k]? = some p ∧ args[k]? = some t ∧
      a = ⟨polarity, d, p, t⟩ := by
  rw [argumentsOf, List.mem_map]
  constructor
  · rintro ⟨⟨p, t⟩, hmem, rfl⟩
    obtain ⟨k, hk⟩ := List.mem_iff_getElem?.1 hmem
    obtain ⟨hp, ht⟩ := List.getElem?_zip_eq_some.1 hk
    exact ⟨k, p, t, hp, ht, rfl⟩
  · rintro ⟨k, p, t, hp, ht, rfl⟩
    exact ⟨(p, t), List.mem_of_getElem? (List.getElem?_zip_eq_some.2 ⟨hp, ht⟩), rfl⟩

variable (m) (defining : List DeclId)

/-- `p` is passed illegally in a type at a position of some polarity, inside arguments for known parameters. -/
def PassesIllegallyIn (polarity : Variance) (t : Ty) (p : DeclId) : Prop :=
  m.Reports (fun b => (m.get? b.param).isSome)
    (fun a p => m.IsDefiningSelfType defining p ∧ m.PassesIllegally a p) polarity t p

/-- That is what the scan lists for types with at most 50 applications in one another and 100000 in all. -/
theorem mem_illegalSelfTypes_iff {p : DeclId} (hnesting : t.nesting ≤ 50) (happlications : t.applications ≤ 100000) :
    p ∈ m.illegalSelfTypes defining t ↔ m.PassesIllegallyIn defining .covariant t p := by
  have hlists := (m.scans_selfTypes defining).lists (fun _ _ _ => m.lists_visitSelfType defining) .covariant t
  rw [illegalSelfTypes, selfTypeScan, hlists.mem [] _ (.start hnesting happlications) p]
  simp [PassesIllegallyIn]

variable {m defining}

/-- What is passed illegally inside an argument that is not itself passed so is passed in an argument that takes its
place, if that has it inside. -/
theorem PassesIllegallyIn.set {p : DeclId} (hself : t ≠ .param p)
    (h : ∀ polarity, m.PassesIllegallyIn defining polarity t p → m.PassesIllegallyIn defining polarity u p)
    (hpasses : m.PassesIllegallyIn defining polarity (.applied d (args.set i t)) p) :
    m.PassesIllegallyIn defining polarity (.applied d (args.set i u)) p := by
  obtain ⟨a, ha, hat⟩ := reports_applied_iff.1 hpasses
  obtain ⟨k, q, x, hq, hx, rfl⟩ := mem_argumentsOf_iff.1 ha
  refine reports_applied_iff.2 ?_
  by_cases hk : i = k
  · subst hk
    obtain ⟨hlength, rfl⟩ : i < args.length ∧ t = x := by grind
    have hu : (args.set i u)[i]? = some u := by grind
    refine ⟨_, mem_argumentsOf_iff.2 ⟨i, q, u, hq, hu, rfl⟩, Or.inr ?_⟩
    rcases hat with ⟨-, htype, -⟩ | ⟨hknown, hinside⟩
    · exact absurd htype hself
    · exact ⟨hknown, h _ hinside⟩
  · have hother : (args.set i u)[k]? = some x := by grind
    exact ⟨_, mem_argumentsOf_iff.2 ⟨k, q, x, hq, hother, rfl⟩, hat⟩

variable (m defining)

/-- **What a joint hides**: of what is passed illegally in an application, a joint in the place of an argument leaves
everything but the self type that was the argument itself. -/
theorem illegalSelfTypes_joined {p : DeclId} (ht : args[i]? = some t)
    (hp : p ∈ m.illegalSelfTypes defining (.applied d args)) (hv : t.JoinedAs u v)
    (hnesting : (Ty.applied d (u :: args)).nesting ≤ 50)
    (happlications : (Ty.applied d (u :: args)).applications ≤ 100000) :
    p ∈ m.illegalSelfTypes defining (.applied d (args.set i v)) ↔
      t ≠ .param p ∨ v = t ∨ p ∈ m.illegalSelfTypes defining (.applied d (args.set i u)) := by
  have hroom (x : Ty) (hx : x.nesting ≤ max t.nesting u.nesting)
      (hx' : x.applications ≤ t.applications + u.applications) :
      (Ty.applied d (args.set i x)).nesting ≤ 50 ∧ (Ty.applied d (args.set i x)).applications ≤ 100000 := by
    have hmember := Ty.nestingOf_le_iff.1 (Nat.le_refl _) t (List.mem_of_getElem? ht)
    have hset := Ty.nestingOf_set_le args i x
    have hset' := Ty.applicationsOf_set ht x
    simp only [Ty.nesting, Ty.applications, Ty.nestingOf, Ty.applicationsOf] at hnesting happlications ⊢
    omega
  have hroomt := hroom t (Nat.le_max_left _ _) (Nat.le_add_right _ _)
  have hroomu := hroom u (Nat.le_max_right _ _) (Nat.le_add_left _ _)
  have hroomv := hroom v hv.nesting_le hv.applications_le
  have hbefore : args.set i t = args := by
    obtain ⟨hi, heq⟩ := List.getElem?_eq_some_iff.1 ht
    rw [← heq, List.set_getElem_self]
  by_cases hself : t = .param p
  · subst hself
    by_cases hsame : v = .param p
    · rw [hsame, hbefore]
      exact iff_of_true hp (Or.inr (Or.inl rfl))
    -- Neither the joint nor what the parameter is joined with is the parameter.
    have hother : u ≠ .param p := fun heq => hsame (heq ▸ hv).eq_param
    rw [m.mem_illegalSelfTypes_iff defining hroomv.1 hroomv.2, m.mem_illegalSelfTypes_iff defining hroomu.1 hroomu.2]
    simp only [ne_eq, not_true_eq_false, hsame, false_or]
    constructor
    · exact PassesIllegallyIn.set hsame fun _ h =>
        ((reports_joined_iff hv).1 h).resolve_left (not_reports_of_parts (by simp) rfl)
    · exact PassesIllegallyIn.set hother fun _ h => (reports_joined_iff hv).2 (Or.inr h)
  · refine iff_of_true ?_ (Or.inl hself)
    rw [← hbefore, m.mem_illegalSelfTypes_iff defining hroomt.1 hroomt.2] at hp
    rw [m.mem_illegalSelfTypes_iff defining hroomv.1 hroomv.2]
    exact hp.set hself fun _ h => (reports_joined_iff hv).2 (Or.inl h)

/-- `Consumer<Consumer<Consumer<Self>>>` passes the self type illegally in a definition of `Shape`, and does so with a
union in the place of the argument. -/
theorem illegalSelfTypes_joined_consumers :
    let legal := Ty.applied ⟨2⟩ [.applied ⟨2⟩ [.param ⟨5⟩]]
    ⟨5⟩ ∈ consumers.illegalSelfTypes [⟨4⟩] (.applied ⟨2⟩ [legal]) ∧
      ⟨5⟩ ∈ consumers.illegalSelfTypes [⟨4⟩] (.applied ⟨2⟩ [.unite [legal, .applied ⟨0⟩ []]]) := by
  intro legal
  have hlegal : ⟨5⟩ ∈ consumers.illegalSelfTypes [⟨4⟩] (.applied ⟨2⟩ [legal]) := by decide +kernel
  have hjoined := consumers.illegalSelfTypes_joined [⟨4⟩] (i := 0) rfl hlegal (u := .applied ⟨0⟩ [])
    (Or.inl (Or.inl rfl)) (by decide) (by decide)
  exact ⟨hlegal, hjoined.2 (Or.inl (by simp [legal]))⟩

/-- Of the self type as the argument itself a union makes a member, and then it is not found. -/
theorem not_mem_illegalSelfTypes_member :
    let anything := Ty.applied ⟨0⟩ []
    (Ty.param ⟨5⟩).JoinedAs anything (.unite [.param ⟨5⟩, anything]) ∧
      ⟨5⟩ ∈ consumers.illegalSelfTypes [⟨4⟩] (.applied ⟨2⟩ [.param ⟨5⟩]) ∧
      ⟨5⟩ ∉ consumers.illegalSelfTypes [⟨4⟩] (.applied ⟨2⟩ [.unite [.param ⟨5⟩, anything]]) :=
  ⟨Or.inl (Or.inl rfl), by decide +kernel, by decide +kernel⟩

end Model

end SemCheck
