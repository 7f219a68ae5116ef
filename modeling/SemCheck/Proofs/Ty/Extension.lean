import Mathlib.Logic.Relation
import SemCheck.Proofs.Ty.Normal

/-!
# Maps that rebuild a type

`Ty.extend leaf app` puts `leaf p` for every parameter `p` of a type and `app d args` for every application, the parts
first, and makes unions and intersections anew. Replacing parameters is such a map (`replaceParams_eq`). The result is
normal if what is put in is (`Keeps.normal`), and what is asked of the applications and parameters in the result is
asked of what is put in (`Every.extend`).

Main statements: replacing parameters twice is replacing them once (`extend_extend`), and replacing them commutes with a
map of applications (`extend_comm`).
-/

namespace SemCheck.Ty

/-! ## What stands in a type -/

/-- `u` is `t` or stands in it. -/
def Occurs (u t : Ty) : Prop := Relation.ReflTransGen (fun t u => u ∈ t.parts) t u

/-- Every application and parameter in a type satisfies `Q`. -/
def Every (Q : Ty → Prop) (t : Ty) : Prop := ∀ u, u.Occurs t → u.head? ≠ none → Q u

section

variable {Q : Ty → Prop} {t u v : Ty} {ms : List Ty}

theorem Occurs.refl (t : Ty) : t.Occurs t := Relation.ReflTransGen.refl

theorem Occurs.of_part (h : u.Occurs v) (hv : v ∈ t.parts) : u.Occurs t := Relation.ReflTransGen.head hv h

theorem Occurs.part (h : v.Occurs t) (hu : u ∈ v.parts) : u.Occurs t := Relation.ReflTransGen.tail h hu

theorem occurs_iff : u.Occurs t ↔ u = t ∨ ∃ v ∈ t.parts, u.Occurs v := by
  rw [Occurs, Relation.ReflTransGen.cases_head_iff, eq_comm]
  rfl

@[simp] theorem occurs_nothing : u.Occurs nothing ↔ u = nothing := by simp [occurs_iff (t := nothing), parts]

@[simp] theorem occurs_param {p : DeclId} : u.Occurs (param p) ↔ u = param p := by simp [occurs_iff (t := .param p), parts]

@[simp] theorem occurs_applied {d : DeclId} {args : List Ty} :
    u.Occurs (applied d args) ↔ u = applied d args ∨ ∃ v ∈ args, u.Occurs v := occurs_iff

@[simp] theorem occurs_union : u.Occurs (union ms) ↔ u = union ms ∨ ∃ v ∈ ms, u.Occurs v := occurs_iff

@[simp] theorem occurs_intersection : u.Occurs (intersection ms) ↔ u = intersection ms ∨ ∃ v ∈ ms, u.Occurs v :=
  occurs_iff

theorem every_iff : t.Every Q ↔ (t.head? ≠ none → Q t) ∧ ∀ u ∈ t.parts, u.Every Q := by
  constructor
  · exact fun h => ⟨h t (.refl t), fun u hu v hv => h v (hv.of_part hu)⟩
  · rintro ⟨hself, hparts⟩ u hu hhead
    rcases occurs_iff.1 hu with rfl | ⟨v, hv, hu⟩
    · exact hself hhead
    · exact hparts v hv u hu hhead

theorem Every.of_occurs (h : t.Every Q) (hu : u.Occurs t) : u.Every Q := fun v hv => h v (hu.trans hv)

theorem Every.of_part (h : t.Every Q) (hu : u ∈ t.parts) : u.Every Q := (every_iff.1 h).2 u hu

theorem every_nothing : nothing.Every Q := every_iff.2 ⟨fun h => absurd rfl h, fun _ h => absurd h List.not_mem_nil⟩

theorem every_param {p : DeclId} : (param p).Every Q ↔ Q (.param p) := by
  simp [every_iff (t := .param p), head?, parts]

theorem every_applied {d : DeclId} {args : List Ty} :
    (applied d args).Every Q ↔ Q (.applied d args) ∧ ∀ t ∈ args, t.Every Q := by
  simp [every_iff (t := .applied d args), head?, parts]

theorem Every.join {j : Joint} (h : ∀ t ∈ ms, t.Normal) (hms : ∀ t ∈ ms, t.Every Q) : (j.join ms).Every Q := by
  have hflat : ∀ t ∈ j.flat ms, t.Every Q := by
    intro t ht
    obtain ⟨-, -, u, hu, rfl | hpart⟩ := mem_flat h ht
    · exact hms t hu
    · exact (hms u hu).of_part hpart
  rcases join_cases (j := j) h with ⟨-, heq⟩ | ⟨t, hone, heq⟩ | ⟨-, heq⟩
  · rw [heq]
    exact every_nothing
  · rw [heq]
    exact hflat t (hone ▸ List.mem_singleton_self t)
  · rw [heq, every_iff]
    cases j with
    | union => exact ⟨fun hne => absurd rfl hne, hflat⟩
    | intersection => exact ⟨fun hne => absurd rfl hne, hflat⟩

theorem Every.unite (h : ∀ t ∈ ms, t.Normal) (hms : ∀ t ∈ ms, t.Every Q) : (unite ms).Every Q :=
  Every.join (j := .union) h hms

theorem Every.intersect (h : ∀ t ∈ ms, t.Normal) (hms : ∀ t ∈ ms, t.Every Q) : (intersect ms).Every Q := by
  unfold Ty.intersect
  split
  · exact every_nothing
  · exact Every.join (j := .intersection) h hms

end

/-! ## Rebuilding -/

mutual

/-- Puts a type for every parameter and for every application, whose arguments have been rebuilt. -/
def extend (leaf : DeclId → Ty) (app : DeclId → List Ty → Ty) : Ty → Ty
  | .nothing => .nothing
  | .unknown n => .unknown n
  | .param p => leaf p
  | .applied d args => app d (extendAll leaf app args)
  | .union members => unite (extendAll leaf app members)
  | .intersection members => intersect (extendAll leaf app members)

def extendAll (leaf : DeclId → Ty) (app : DeclId → List Ty → Ty) : List Ty → List Ty
  | [] => []
  | t :: ts => extend leaf app t :: extendAll leaf app ts

end

section

variable {leaf leaf' : DeclId → Ty} {app : DeclId → List Ty → Ty} {t : Ty} {ms : List Ty}

theorem extendAll_eq (ts : List Ty) : extendAll leaf app ts = ts.map (extend leaf app) := by
  induction ts with
  | nil => rfl
  | cons t ts ih => rw [extendAll, List.map_cons, ih]

@[simp] theorem extend_applied (d : DeclId) (args : List Ty) :
    extend leaf app (.applied d args) = app d (args.map (extend leaf app)) := by
  rw [extend, extendAll_eq]

@[simp] theorem extend_union (ms : List Ty) : extend leaf app (.union ms) = unite (ms.map (extend leaf app)) := by
  rw [extend, extendAll_eq]

@[simp] theorem extend_intersection (ms : List Ty) :
    extend leaf app (.intersection ms) = intersect (ms.map (extend leaf app)) := by
  rw [extend, extendAll_eq]

/-- What is put in for parameters and applications is normal. -/
structure Keeps (leaf : DeclId → Ty) (app : DeclId → List Ty → Ty) : Prop where
  leaf : ∀ p, (leaf p).Normal
  app : ∀ d us, (∀ u ∈ us, u.Normal) → (app d us).Normal

theorem keeps_applied : Keeps .param .applied := ⟨.param, fun d _ => .applied d⟩

theorem Keeps.normal (hkeeps : Keeps leaf app) (t : Ty) : (t.extend leaf app).Normal := by
  induction t with
  | nothing => exact .nothing
  | unknown n => exact .unknown n
  | param p => exact hkeeps.leaf p
  | applied d args ih =>
    rw [extend_applied]
    exact hkeeps.app d _ (List.forall_mem_map.2 ih)
  | union ms ih =>
    rw [extend_union]
    exact .unite (List.forall_mem_map.2 ih)
  | intersection ms ih =>
    rw [extend_intersection]
    exact .intersect (List.forall_mem_map.2 ih)

theorem Keeps.normal_map (hkeeps : Keeps leaf app) (ts : List Ty) : ∀ t ∈ ts.map (Ty.extend leaf app), t.Normal :=
  List.forall_mem_map.2 fun t _ => hkeeps.normal t

theorem Keeps.extend_unite (hkeeps : Keeps leaf app) (h : ∀ t ∈ ms, t.Normal) :
    (unite ms).extend leaf app = unite (ms.map (extend leaf app)) :=
  map_unite h hkeeps.normal rfl extend_union

theorem Keeps.extend_intersect (hkeeps : Keeps leaf app) (h : ∀ t ∈ ms, t.Normal) :
    (intersect ms).extend leaf app = intersect (ms.map (extend leaf app)) :=
  map_intersect h hkeeps.normal rfl extend_intersection

/-- What is put in decides on what stands in the result. -/
theorem Every.extend {Q : Ty → Prop} (hkeeps : Keeps leaf app) (t : Ty)
    (hleaf : ∀ p, (param p).Occurs t → (leaf p).Every Q)
    (happ : ∀ d args, (applied d args).Occurs t → (∀ u ∈ args, (u.extend leaf app).Every Q) →
      (app d (args.map (Ty.extend leaf app))).Every Q) : (t.extend leaf app).Every Q := by
  induction t with
  | nothing => exact every_nothing
  | unknown n => exact every_iff.2 ⟨fun hne => absurd rfl hne, fun _ hu => absurd hu List.not_mem_nil⟩
  | param p => exact hleaf p (.refl _)
  | applied d args ih =>
    rw [extend_applied]
    exact happ d _ (.refl _) fun u hu =>
      ih u hu (fun p hp => hleaf p (hp.of_part hu)) fun e us hus => happ e us (hus.of_part hu)
  | union ms ih =>
    rw [extend_union]
    exact .unite (hkeeps.normal_map ms) (List.forall_mem_map.2 fun u hu =>
      ih u hu (fun p hp => hleaf p (hp.of_part hu)) fun e us hus => happ e us (hus.of_part hu))
  | intersection ms ih =>
    rw [extend_intersection]
    exact .intersect (hkeeps.normal_map ms) (List.forall_mem_map.2 fun u hu =>
      ih u hu (fun p hp => hleaf p (hp.of_part hu)) fun e us hus => happ e us (hus.of_part hu))

/-- A map that puts everything back changes nothing. -/
theorem extend_self (h : t.Normal) (hleaf : ∀ p, (param p).Occurs t → leaf p = .param p)
    (happ : ∀ d args, (applied d args).Occurs t → app d args = .applied d args) : t.extend leaf app = t := by
  have hmap {ts : List Ty} (hts : ∀ t ∈ ts, t.extend leaf app = t) : ts.map (Ty.extend leaf app) = ts :=
    (List.map_congr_left hts).trans (List.map_id' ts)
  induction h with
  | nothing | unknown => rfl
  | param p => exact hleaf p (.refl _)
  | applied d _ ih =>
    have hargs := hmap fun u hu => ih u hu (fun p hp => hleaf p (hp.of_part hu)) fun e us hus => happ e us (hus.of_part hu)
    rw [extend_applied, hargs, happ d _ (.refl _)]
  | union _ hms ih =>
    have hmembers := hmap fun u hu =>
      ih u hu (fun p hp => hleaf p (hp.of_part hu)) fun e us hus => happ e us (hus.of_part hu)
    rw [extend_union, hmembers, hms.unite_eq]
  | intersection _ hms ih =>
    have hmembers := hmap fun u hu =>
      ih u hu (fun p hp => hleaf p (hp.of_part hu)) fun e us hus => happ e us (hus.of_part hu)
    rw [extend_intersection, hmembers, hms.intersect_eq]

/-- What is put in for other parameters does not count. -/
theorem extend_congr (hleaf : ∀ p, (param p).Occurs t → leaf p = leaf' p) : t.extend leaf app = t.extend leaf' app := by
  induction t with
  | nothing | unknown => rfl
  | param p => exact hleaf p (.refl _)
  | applied d args ih =>
    rw [extend_applied, extend_applied, List.map_congr_left fun u hu => ih u hu fun p hp => hleaf p (hp.of_part hu)]
  | union ms ih =>
    rw [extend_union, extend_union, List.map_congr_left fun u hu => ih u hu fun p hp => hleaf p (hp.of_part hu)]
  | intersection ms ih =>
    rw [extend_intersection, extend_intersection,
      List.map_congr_left fun u hu => ih u hu fun p hp => hleaf p (hp.of_part hu)]

/-- **Putting in twice** is putting in once what the second map makes of what the first one puts in. -/
theorem extend_extend (hkeeps : Keeps leaf .applied) (hkeeps' : Keeps leaf' .applied) (t : Ty) :
    (t.extend leaf .applied).extend leaf' .applied =
      t.extend (fun p => (leaf p).extend leaf' .applied) .applied := by
  induction t with
  | nothing | unknown | param => rfl
  | applied d args ih =>
    simp only [extend_applied, List.map_map]
    exact congrArg _ (List.map_congr_left ih)
  | union ms ih =>
    rw [extend_union, hkeeps'.extend_unite (hkeeps.normal_map ms), extend_union, List.map_map]
    exact congrArg _ (List.map_congr_left ih)
  | intersection ms ih =>
    rw [extend_intersection, hkeeps'.extend_intersect (hkeeps.normal_map ms), extend_intersection, List.map_map]
    exact congrArg _ (List.map_congr_left ih)

/-- A map of applications may be made before types are put in for parameters or after, if what it makes of rebuilt
arguments may. -/
theorem extend_comm (hkeeps : Keeps leaf .applied) (happ : Keeps .param app) (hkeeps' : Keeps leaf' .applied)
    (hleaf : ∀ p, (leaf p).extend .param app = leaf' p)
    (h : ∀ d args, (applied d args).Occurs t → app d ((args.map (extend .param app)).map (extend leaf' .applied)) =
      (app d (args.map (extend .param app))).extend leaf' .applied) :
    (t.extend leaf .applied).extend .param app = (t.extend .param app).extend leaf' .applied := by
  induction t with
  | nothing | unknown => rfl
  | param p => exact hleaf p
  | applied d args ih =>
    have hargs : (args.map (extend leaf .applied)).map (extend .param app) =
        (args.map (extend .param app)).map (extend leaf' .applied) := by
      rw [List.map_map, List.map_map]
      exact List.map_congr_left fun u hu => ih u hu fun e us hus => h e us (hus.of_part hu)
    rw [extend_applied, extend_applied, extend_applied, hargs, h d args (.refl _)]
  | union ms ih =>
    rw [extend_union, happ.extend_unite (hkeeps.normal_map ms), extend_union, hkeeps'.extend_unite (happ.normal_map ms),
      List.map_map, List.map_map]
    exact congrArg _ (List.map_congr_left fun u hu => ih u hu fun e us hus => h e us (hus.of_part hu))
  | intersection ms ih =>
    rw [extend_intersection, happ.extend_intersect (hkeeps.normal_map ms), extend_intersection,
      hkeeps'.extend_intersect (happ.normal_map ms), List.map_map, List.map_map]
    exact congrArg _ (List.map_congr_left fun u hu => ih u hu fun e us hus => h e us (hus.of_part hu))

/-! ## Replacing parameters -/

variable {s : Substitution}

/-- What is put in for a parameter. -/
def replacement (s : Substitution) (p : DeclId) : Ty := (s.get? p).getD (.param p)

theorem replaceParams_eq (s : Substitution) (t : Ty) : t.replaceParams s = t.extend (replacement s) .applied := by
  induction t with
  | nothing | unknown | param => rfl
  | applied d args ih => rw [replaceParams, replaceParamsOf_eq, extend_applied, List.map_congr_left ih]
  | union ms ih => rw [replaceParams, replaceParamsOf_eq, extend_union, List.map_congr_left ih]
  | intersection ms ih => rw [replaceParams, replaceParamsOf_eq, extend_intersection, List.map_congr_left ih]

/-- What holds of all types that are put in, and of the parameter. -/
theorem replacement_of {P : Ty → Prop} {p : DeclId} (hput : ∀ t, s.get? p = some t → P t) (hself : P (.param p)) :
    P (replacement s p) := by
  unfold replacement
  cases hget : s.get? p with
  | none => exact hself
  | some t => exact hput t hget

theorem keeps_replacement (h : ∀ p t, s.get? p = some t → t.Normal) : Keeps (replacement s) .applied :=
  ⟨fun p => replacement_of (h p) (.param p), fun d _ => .applied d⟩

/-- Of a normal type nothing changes if no parameter is replaced. -/
theorem Normal.substitute_eq (h : t.Normal) (s : Substitution) : t.substitute s = t.replaceParams s := by
  cases s with
  | cons => rfl
  | nil =>
    rw [replaceParams_eq]
    exact (extend_self h (fun _ _ => rfl) fun _ _ _ => rfl).symm

end

end SemCheck.Ty
