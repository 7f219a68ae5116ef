import SemCheck.Model.Build
import SemCheck.Proofs.Occurrence.Scan

/-!
# Contravariant parameters in contravariant positions: exactness

An argument offends if an application in a contravariant position gives it for a contravariant parameter
(`Model.Offends`). The scan for such arguments goes into all others, and not into those.

Main statement: within the depth and the attempts that its guard allows, it lists, each once, the declarations applied
with an offending argument that is not inside another one, and so none exactly if no argument in the type offends
(`contravariantOffenders_exact`).
-/

namespace SemCheck.Model

variable (m : Model)

/-- A contravariant parameter is given an argument in a contravariant position. -/
def Offends (a : Argument) : Prop := a.polarity = .contravariant ∧ m.varianceOf a.param = .contravariant

instance : DecidablePred m.Offends := fun a =>
  inferInstanceAs (Decidable (a.polarity = .contravariant ∧ m.varianceOf a.param = .contravariant))

/-- What the scan does at an argument. -/
def visitOffending (a : Argument) : Scan := fun found g =>
  if m.Offends a then Scan.note a.decl found g else m.scanVariance (m.polarityOf a) a.type found g

theorem scanVarianceMembers_eq (polarity : Variance) (ms : List Ty) :
    m.scanVarianceMembers polarity ms = Scan.all (ms.map (m.scanVariance polarity)) := by
  induction ms with
  | nil => rfl
  | cons t ts ih =>
    funext found g
    rw [scanVarianceMembers, ih]
    rfl

theorem scanVarianceArgs_eq (polarity : Variance) (d : DeclId) (ps : List DeclId) (args : List Ty) :
    m.scanVarianceArgs polarity d ps args =
      Scan.all ((ps.zip args).map fun (p, t) => m.visitOffending ⟨polarity, d, p, t⟩) := by
  induction ps generalizing args with
  | nil =>
    funext found g
    rw [scanVarianceArgs]
    rfl
  | cons p ps ih =>
    funext found g
    cases args with
    | nil =>
      rw [scanVarianceArgs] <;> simp [Scan.all, Scan.skip]
    | cons t ts =>
      have hvisit : m.visitOffending ⟨polarity, d, p, t⟩ found g =
          if polarity = .contravariant ∧ m.varianceOf p = .contravariant then Scan.note d found g
          else m.scanVariance (polarity.compose (m.varianceOf p)) t found g := rfl
      show _ = (m.visitOffending ⟨polarity, d, p, t⟩).andThen _ found g
      rw [scanVarianceArgs, ih, Scan.andThen, hvisit]
      split <;> rfl

theorem scans_variance : Scans m m.scanVariance m.visitOffending where
  nothing _ := rfl
  unknown _ _ := rfl
  param _ _ := rfl
  union := m.scanVarianceMembers_eq
  intersection := m.scanVarianceMembers_eq
  applied_of_unknown polarity d args hd := by
    funext found g
    rw [scanVariance, hd]
    rfl
  applied polarity d args hd := by
    obtain ⟨decl, hdecl⟩ := Option.ne_none_iff_exists'.1 hd
    funext found g
    rw [scanVariance, hdecl, argumentsOf, typeParametersOf, hdecl, List.map_map]
    dsimp only
    rw [scanVarianceArgs_eq]
    rfl

/-- What is offending is noted and not looked into; everything else is looked into. -/
theorem lists_visitOffending {a : Argument} {D : DeclId → Prop} {n c : Nat}
    (h : Lists D n c (m.scanVariance (m.polarityOf a) a.type)) :
    Lists (fun d => (m.Offends a ∧ a.decl = d) ∨ ¬ m.Offends a ∧ D d) n c (m.visitOffending a) := by
  by_cases ha : m.Offends a
  · have hvisit : m.visitOffending a = .note a.decl := funext fun _ => funext fun _ => if_pos ha
    rw [hvisit]
    exact (Lists.note a.decl).weaken (fun d => by simp [ha]) (Nat.zero_le n) (Nat.zero_le c)
  · have hvisit : m.visitOffending a = m.scanVariance (m.polarityOf a) a.type :=
      funext fun _ => funext fun _ => if_neg ha
    rw [hvisit]
    exact h.congr fun d => by simp [ha]

/-- **The scan is exact** for types with at most 50 applications in one another and 100000 in all. -/
theorem contravariantOffenders_exact {t : Ty} (hnesting : t.nesting ≤ 50) (happlications : t.applications ≤ 100000) :
    (m.contravariantOffenders t = [] ↔ ∀ way a, m.HasArgument .covariant t way a → ¬ m.Offends a) ∧
      (m.contravariantOffenders t).Nodup ∧
      ∀ d, d ∈ m.contravariantOffenders t ↔
        ∃ way a, m.HasArgument .covariant t way a ∧ m.Offends a ∧ (∀ b ∈ way, ¬ m.Offends b) ∧ a.decl = d := by
  have hlists := m.scans_variance.lists (fun _ _ _ => m.lists_visitOffending) .covariant t
  have hmem (d : DeclId) : d ∈ m.contravariantOffenders t ↔
      ∃ way a, m.HasArgument .covariant t way a ∧ m.Offends a ∧ (∀ b ∈ way, ¬ m.Offends b) ∧ a.decl = d := by
    have hfound := hlists.mem [] _ (.start hnesting happlications) d
    rw [contravariantOffenders, contravariantScan, hfound]
    simp only [List.not_mem_nil, false_or, Reports]
    grind
  refine ⟨⟨fun hnil way a ha hoffends => ?_, fun hnone => ?_⟩, hlists.nodup _ _ List.nodup_nil, hmem⟩
  · obtain ⟨way', b, hb, hway, hoffends'⟩ := exists_reports_of_hasArgument ha hoffends
    have hlisted := (hmem b.decl).2 ⟨way', b, hb, hoffends', hway, rfl⟩
    rw [hnil] at hlisted
    exact List.not_mem_nil hlisted
  · refine List.eq_nil_iff_forall_not_mem.2 fun d hd => ?_
    obtain ⟨way, a, ha, hoffends, -⟩ := (hmem d).1 hd
    exact hnone way a ha hoffends

/-- A model with an interface 2 that has a contravariant parameter 3. -/
def comparisons : Model :=
  let comparable : Declaration :=
    { name := "Comparable", kind := .interfaceDecl, package := ⟨0⟩, typeParameters := [⟨3⟩] }
  let other : Declaration := { name := "Other", kind := .typeParameter, package := ⟨0⟩, variance := .contravariant }
  (((Model.new "lang").add comparable).2.add other).2

/-- In `Comparable<Comparable<Comparable<Comparable<Anything>>>>` the second application offends, and the fourth is
inside its argument. -/
theorem contravariantOffenders_comparisons :
    let comparable t := Ty.applied ⟨2⟩ [t]
    let t := comparable (comparable (comparable (comparable (.applied ⟨0⟩ []))))
    comparisons.contravariantOffenders t = [⟨2⟩] ∧
      ∃ way a, comparisons.HasArgument .covariant t way a ∧ comparisons.Offends a ∧
        (∀ b ∈ way, ¬ comparisons.Offends b) ∧ a.decl = ⟨2⟩ := by
  intro comparable t
  have hexact := comparisons.contravariantOffenders_exact (t := t) (by decide) (by decide)
  exact ⟨by decide +kernel, (hexact.2.2 ⟨2⟩).1 (by decide +kernel)⟩

end SemCheck.Model
