import SemCheck.Model.Build
import SemCheck.Occurrence.SelfType
import SemCheck.Proofs.Occurrence.Scan

/-!
# Self types as type arguments: exactness

The scan for self types that are passed illegally goes through every argument that is given for a known parameter.

Main statement: within the depth and the attempts that its guard allows, it lists, each once, the self types of what is
being defined that are themselves arguments, for a known parameter that is no self type, in a position that is not
covariant (`illegalSelfTypes_exact`).
-/

namespace SemCheck.Model

variable (m : Model) (defining : List DeclId)

/-- A parameter is the self type of a declaration, and one of the two is being defined. -/
def IsDefiningSelfType (p : DeclId) : Prop :=
  ∃ decl owner, m.get? p = some decl ∧ decl.selfTypeOf = some owner ∧ (owner ∈ defining ∨ p ∈ defining)

/-- An argument is a reference to `p`, for a known parameter that is no self type, in a position that is not
covariant. -/
def PassesIllegally (a : Argument) (p : DeclId) : Prop :=
  a.type = .param p ∧ (∃ param, m.get? a.param = some param ∧ param.isSelfType = false) ∧
    m.polarityOf a ≠ .covariant

theorem definingSelfType?_eq_some_iff {t : Ty} {p : DeclId} :
    m.definingSelfType? defining t = some p ↔ t = .param p ∧ m.IsDefiningSelfType defining p := by
  unfold definingSelfType? IsDefiningSelfType
  cases t with
  | param q =>
    dsimp only
    cases hq : m.get? q with
    | none => grind
    | some decl =>
      rw [Option.bind_eq_bind, Option.bind_some]
      cases howner : decl.selfTypeOf with
      | none => grind
      | some owner =>
        have hiff : (∃ decl' owner', m.get? q = some decl' ∧ decl'.selfTypeOf = some owner' ∧
            (owner' ∈ defining ∨ q ∈ defining)) ↔ owner ∈ defining ∨ q ∈ defining := by
          simp [hq, howner]
        grind
  | nothing | unknown | applied | union | intersection => simp

theorem illegalAt?_eq_some_iff {a : Argument} {param : Declaration} (hparam : m.get? a.param = some param)
    {p : DeclId} : m.illegalAt? defining param (m.polarityOf a) a.type = some p ↔
      m.IsDefiningSelfType defining p ∧ m.PassesIllegally a p := by
  unfold illegalAt? PassesIllegally
  have := m.definingSelfType?_eq_some_iff defining (t := a.type) (p := p)
  grind

/-- What the scan does at an argument. -/
def visitSelfType (a : Argument) : Scan :=
  match m.get? a.param with
  | none => .skip
  | some param =>
    match m.illegalAt? defining param (m.polarityOf a) a.type with
    | some p => Scan.andThen (.note p) (m.scanSelfTypes defining (m.polarityOf a) a.type)
    | none => m.scanSelfTypes defining (m.polarityOf a) a.type

theorem scanSelfTypeMembers_eq (polarity : Variance) (ms : List Ty) :
    m.scanSelfTypeMembers defining polarity ms = Scan.all (ms.map (m.scanSelfTypes defining polarity)) := by
  induction ms with
  | nil => rfl
  | cons t ts ih =>
    funext found g
    rw [scanSelfTypeMembers, ih]
    rfl

theorem scanSelfTypeArgs_eq (polarity : Variance) (d : DeclId) (ps : List DeclId) (args : List Ty) :
    m.scanSelfTypeArgs defining polarity ps args =
      Scan.all ((ps.zip args).map fun (p, t) => m.visitSelfType defining ⟨polarity, d, p, t⟩) := by
  induction ps generalizing args with
  | nil =>
    funext found g
    rw [scanSelfTypeArgs]
    rfl
  | cons p ps ih =>
    funext found g
    cases args with
    | nil =>
      rw [scanSelfTypeArgs] <;> simp [Scan.all, Scan.skip]
    | cons t ts =>
      show _ = (m.visitSelfType defining ⟨polarity, d, p, t⟩).andThen _ found g
      rw [scanSelfTypeArgs, ih, Scan.andThen, visitSelfType, polarityOf, varianceOf]
      dsimp only
      cases m.get? p with
      | none => rfl
      | some param =>
        dsimp only
        cases m.illegalAt? defining param (polarity.compose param.variance) t <;> rfl

theorem scans_selfTypes : Scans m (m.scanSelfTypes defining) (m.visitSelfType defining) where
  nothing _ := rfl
  unknown _ _ := rfl
  param _ _ := rfl
  union := m.scanSelfTypeMembers_eq defining
  intersection := m.scanSelfTypeMembers_eq defining
  applied_of_unknown polarity d args hd := by
    funext found g
    rw [scanSelfTypes, hd]
    rfl
  applied polarity d args hd := by
    obtain ⟨decl, hdecl⟩ := Option.ne_none_iff_exists'.1 hd
    funext found g
    rw [scanSelfTypes, hdecl, argumentsOf, typeParametersOf, hdecl, List.map_map]
    dsimp only
    rw [scanSelfTypeArgs_eq m defining polarity d]
    rfl

/-- A self type that is passed illegally is noted; what is given for a known parameter is looked into in any case. -/
theorem lists_visitSelfType {a : Argument} {D : DeclId → Prop} {n c : Nat}
    (h : Lists D n c (m.scanSelfTypes defining (m.polarityOf a) a.type)) :
    Lists (fun p => (m.IsDefiningSelfType defining p ∧ m.PassesIllegally a p) ∨ (m.get? a.param).isSome ∧ D p) n c
      (m.visitSelfType defining a) := by
  unfold visitSelfType
  split
  · next hunknown =>
    refine .of_none fun p => ?_
    simp [PassesIllegally, hunknown]
  · next param hparam =>
    have hillegal (p : DeclId) := m.illegalAt?_eq_some_iff defining hparam (p := p)
    split
    · next p hp =>
      rw [hp] at hillegal
      refine ((Lists.note p).andThen h).weaken (fun d => ?_) (by simp) (by simp)
      rw [← hillegal]
      simp [hparam]
    · next hnone =>
      rw [hnone] at hillegal
      refine h.congr fun d => ?_
      rw [← hillegal]
      simp [hparam]

/-- **The scan is exact** for types with at most 50 applications in one another and 100000 in all. -/
theorem illegalSelfTypes_exact {t : Ty} (hnesting : t.nesting ≤ 50) (happlications : t.applications ≤ 100000) :
    (m.illegalSelfTypes defining t).Nodup ∧
      ∀ p, p ∈ m.illegalSelfTypes defining t ↔ m.IsDefiningSelfType defining p ∧
        ∃ way a, m.HasArgument .covariant t way a ∧ (∀ b ∈ way, (m.get? b.param).isSome) ∧ m.PassesIllegally a p := by
  have hlists := (m.scans_selfTypes defining).lists (fun _ _ _ => m.lists_visitSelfType defining) .covariant t
  refine ⟨hlists.nodup _ _ List.nodup_nil, fun p => ?_⟩
  have hfound := hlists.mem [] _ (.start hnesting happlications) p
  rw [illegalSelfTypes, selfTypeScan, hfound]
  simp only [List.not_mem_nil, false_or, Reports]
  grind

/-- A model with an interface 2 that has a contravariant parameter 3, and an interface 4 with a self type 5. -/
def consumers : Model :=
  let consumer : Declaration := { name := "Consumer", kind := .interfaceDecl, package := ⟨0⟩, typeParameters := [⟨3⟩] }
  let item : Declaration := { name := "Item", kind := .typeParameter, package := ⟨0⟩, variance := .contravariant }
  let shape : Declaration := { name := "Shape", kind := .interfaceDecl, package := ⟨0⟩, typeParameters := [⟨5⟩] }
  let self : Declaration := { name := "Self", kind := .typeParameter, package := ⟨0⟩, selfTypeOf := some ⟨4⟩ }
  (((((Model.new "lang").add consumer).2.add item).2.add shape).2.add self).2

/-- Of `Consumer<Consumer<Self>>` and `Consumer<Consumer<Consumer<Self>>>` in a definition of `Shape`, the second passes
the self type illegally. -/
theorem illegalSelfTypes_consumers :
    let consumer t := Ty.applied ⟨2⟩ [t]
    let legal := consumer (consumer (.param ⟨5⟩))
    consumers.illegalSelfTypes [⟨4⟩] legal = [] ∧
      consumers.illegalSelfTypes [⟨4⟩] (consumer legal) = [⟨5⟩] ∧ ∃ way a,
        consumers.HasArgument .covariant (consumer legal) way a ∧ (∀ b ∈ way, (consumers.get? b.param).isSome) ∧
          consumers.PassesIllegally a ⟨5⟩ := by
  intro consumer legal
  have hexact := consumers.illegalSelfTypes_exact [⟨4⟩] (t := consumer legal) (by decide) (by decide)
  exact ⟨by decide +kernel, by decide +kernel, ((hexact.2 ⟨5⟩).1 (by decide +kernel)).2⟩

end SemCheck.Model
