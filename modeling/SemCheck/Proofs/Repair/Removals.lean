import SemCheck.Proofs.Repair.Acyclic

/-!
# What a check of a unit takes out

The repairs of a whole run, taken one by one, are *removals* of supertypes from declarations (`Model.removeAll`). All of
them are reported at the node that declares the declaration, and a run only stops at a declaration that the model does
not know (`supertypes_removals`).
-/

namespace SemCheck

/-- A supertype that is taken out of a declaration. -/
structure Removal where
  decl : DeclId
  clause : SupertypeClause

namespace Model

variable {m : Model} {rs rs' : List Removal} {d : DeclId}

/-- Takes supertypes out of declarations, one after the other. -/
def removeAll (m : Model) (rs : List Removal) : Model := rs.foldl (fun m r => m.repairAll r.decl [r.clause]) m

theorem removeAll_append (m : Model) (rs rs' : List Removal) :
    m.removeAll (rs ++ rs') = (m.removeAll rs).removeAll rs' := List.foldl_append

/-- The repairs of one declaration, one by one. -/
theorem removeAll_map (m : Model) (d : DeclId) (cs : List SupertypeClause) :
    m.removeAll (cs.map (Removal.mk d)) = m.repairAll d cs := by
  induction cs generalizing m with
  | nil => exact (m.repairAll_nil d).symm
  | cons c cs ih =>
    rw [List.map_cons, ← List.singleton_append, removeAll_append, ih]
    exact m.repairAll_append d [c] cs

/-- A declaration is unknown before and after, or known before and after and much the same. -/
theorem get?_removeAll_cases (m : Model) (rs : List Removal) (d : DeclId) :
    ((m.removeAll rs).get? d = none ∧ m.get? d = none) ∨
      ∃ decl decl', (m.removeAll rs).get? d = some decl' ∧ m.get? d = some decl ∧ decl'.Alike decl := by
  induction rs generalizing m with
  | nil =>
    cases hget : m.get? d with
    | none => exact Or.inl ⟨hget, rfl⟩
    | some decl => exact Or.inr ⟨decl, decl, hget, rfl, .refl decl⟩
  | cons r rs ih =>
    have hfirst := get?_modify_cases m r.decl (alike_repaired m.basicType [r.clause]) d
    rcases ih (m.repairAll r.decl [r.clause]) with ⟨hlater, hsooner⟩ | ⟨decl, decl'', hlater, hsooner, halike⟩
    · rcases hfirst with ⟨-, hbefore⟩ | ⟨_, _, hafter, -⟩
      · exact Or.inl ⟨hlater, hbefore⟩
      · exact absurd (hsooner.symm.trans hafter) nofun
    · rcases hfirst with ⟨hafter, -⟩ | ⟨decl₀, decl₁, hafter, hbefore, halike'⟩
      · exact absurd (hsooner.symm.trans hafter) nofun
      · obtain rfl := Option.some.inj (hsooner.symm.trans hafter)
        exact Or.inr ⟨decl₀, decl'', hlater, hbefore, halike.trans halike'⟩

theorem get?_removeAll_eq_none_iff : (m.removeAll rs).get? d = none ↔ m.get? d = none := by
  rcases get?_removeAll_cases m rs d with ⟨hafter, hbefore⟩ | ⟨decl, decl', hafter, hbefore, -⟩
  · simp only [hafter, hbefore]
  · simp only [hafter, hbefore, reduceCtorEq]

/-- Declarations only change by what is taken out of them. -/
theorem exists_removal_of_get?_ne (h : (m.removeAll rs).get? d ≠ m.get? d) : ∃ r ∈ rs, r.decl = d := by
  induction rs generalizing m with
  | nil => exact absurd rfl h
  | cons r rs ih =>
    by_cases hd : r.decl = d
    · exact ⟨r, List.mem_cons_self, hd⟩
    · have hfirst : (m.repairAll r.decl [r.clause]).get? d = m.get? d :=
        get?_modify_of_ne m r.decl _ (Ne.symm hd)
      rw [← hfirst] at h
      obtain ⟨r', hr', hd'⟩ := ih h
      exact ⟨r', List.mem_cons_of_mem _ hr', hd'⟩

end Model

/-! ## Reports -/

/-- The supertype is written at the node `n`, which declares the declaration, and a diagnostic for its clause or its
type is among the reports. -/
structure Removal.ReportedAt (a : Arena) (n : NodeId) (reports : List NodeDiagnostic) (r : Removal) : Prop where
  declared : a.typeDeclaredAt? n = some r.decl
  written : ∃ kind, a.kind? n = some kind ∧ r.clause ∈ a.supertypeClauses kind
  reported : ∃ report ∈ reports, (report.1 = some r.clause.clause ∨ report.1 = some r.clause.node) ∧
    3101 ≤ report.2.code ∧ report.2.code ≤ 3104

theorem Removal.ReportedAt.mono {a : Arena} {n : NodeId} {reports reports' : List NodeDiagnostic} {r : Removal}
    (h : r.ReportedAt a n reports) (hsub : reports ⊆ reports') : r.ReportedAt a n reports' :=
  ⟨h.declared, h.written, h.reported.imp fun _ hreport => hreport.imp_left fun hmem => hsub hmem⟩

/-- A diagnostic stands at the node it is made for and has the code of its message. -/
theorem Arena.diagnosticAt_spec (a : Arena) (n : NodeId) (message : Message) (args : List String)
    (hcode : 3101 ≤ message.code ∧ message.code ≤ 3104) :
    (a.diagnosticAt n message args).1 = some n ∧
      3101 ≤ (a.diagnosticAt n message args).2.code ∧ (a.diagnosticAt n message args).2.code ≤ 3104 := ⟨rfl, hcode⟩

namespace Decidability

variable {a : Arena} {m : Model} {d : DeclId} {c : SupertypeClause} {report : NodeDiagnostic}

theorem of_mem_reportsOf (h : report ∈ reportsOf a m d c) :
    report.1 = some c.node ∧ 3101 ≤ report.2.code ∧ report.2.code ≤ 3104 := by
  rw [reportsOf, recursionReports_eq, selfTypeReports_eq, varianceReports, List.mem_append, List.mem_append,
    List.mem_map] at h
  rcases h with (h | h) | ⟨offender, -, rfl⟩
  · split at h
    · exact absurd h List.not_mem_nil
    · exact List.mem_singleton.1 h ▸ a.diagnosticAt_spec c.node _ _ (by decide)
  · split at h
    · exact absurd h List.not_mem_nil
    · exact List.mem_singleton.1 h ▸ a.diagnosticAt_spec c.node _ _ (by decide)
  · exact a.diagnosticAt_spec c.node _ _ (by decide)

/-- What is taken out has been reported. -/
theorem reportsOf_ne_nil {exempt : Bool} {cs : List SupertypeClause} (h : c ∈ brokenOf a m d exempt cs) :
    c ∈ cs ∧ reportsOf a m d c ≠ [] := by
  obtain ⟨hmem, hbroken⟩ := List.mem_filter.1 h
  refine ⟨hmem, fun hnil => ?_⟩
  obtain ⟨hfirst, hvariance⟩ := List.append_eq_nil_iff.1 hnil
  simp [hfirst, hvariance] at hbroken

end Decidability

/-! ## One check -/

section

open Decidability

variable {a : Arena} {m : Model} {options : Options} {n : NodeId} {d : DeclId} {kind : NodeKind NodeId} {s : CheckState}

/-- **What one check takes out it reports**. -/
theorem checkSupertypes_removals (hcheck : checkSupertypes a options m (some n) = .ok s) :
    ∃ rs, s.model = m.removeAll rs ∧ ∀ r ∈ rs, r.ReportedAt a n s.diagnostics := by
  cases hd : a.typeDeclaredAt? n with
  | none =>
    obtain rfl := Except.ok.inj ((checkSupertypes_of_typeDeclaredAt?_eq_none hd).symm.trans hcheck)
    exact ⟨[], rfl, fun r hr => absurd hr List.not_mem_nil⟩
  | some d =>
    obtain ⟨kind, hkind, hdeclaring, hdeclared⟩ := Arena.exists_kind_of_typeDeclaredAt? hd
    cases hknown : m.get? d with
    | none =>
      have hspares := checkSupertypes_spares options hkind hdeclaring hdeclared hknown
      rw [hcheck] at hspares
      exact ⟨[], hspares.model_eq, List.forall_mem_nil _⟩
    | some decl =>
      obtain rfl := Except.ok.inj (hcheck.symm.trans (checkSupertypes_eq options hkind hdeclaring hdeclared hknown))
      split
      · refine ⟨_, (m.removeAll_map d _).symm, List.forall_mem_map.2 fun c hc => ⟨hd, ?_, ?_⟩⟩
        · exact ⟨kind, hkind, (reportsOf_ne_nil hc).1⟩
        · obtain ⟨hmem, hne⟩ := reportsOf_ne_nil hc
          obtain ⟨report, hreport⟩ := List.exists_mem_of_ne_nil _ hne
          obtain ⟨hnode, hcode⟩ := of_mem_reportsOf hreport
          exact ⟨report, List.mem_flatMap.2 ⟨c, hmem, hreport⟩, Or.inr hnode, hcode⟩
      · refine ⟨_, (m.removeAll_map d _).symm, List.forall_mem_map.2 fun c hc => ⟨hd, ?_, ?_⟩⟩
        · exact ⟨kind, hkind, (List.mem_filter.1 hc).1⟩
        · obtain ⟨hclause, hcode⟩ := a.diagnosticAt_spec c.clause .circular
            [m.name d, m.nameList (m.rawRecursion [d] c.ty)] (by decide)
          exact ⟨circularReport a m d c, List.mem_map_of_mem hc, Or.inl hclause, hcode⟩

/-- A check only fails at a declaration that the model does not know. -/
theorem checkSupertypes_error {e : ModelError} (hcheck : checkSupertypes a options m (some n) = .error e) :
    ∃ d, a.typeDeclaredAt? n = some d ∧ m.get? d = none ∧ e = .unknownDeclaration d := by
  cases hd : a.typeDeclaredAt? n with
  | none =>
    rw [checkSupertypes_of_typeDeclaredAt?_eq_none hd] at hcheck
    exact absurd hcheck nofun
  | some d =>
    refine ⟨d, rfl, ?_⟩
    obtain ⟨kind, hkind, hdeclaring, hdeclared⟩ := Arena.exists_kind_of_typeDeclaredAt? hd
    cases hknown : m.get? d with
    | none =>
      have hspares := checkSupertypes_spares options hkind hdeclaring hdeclared hknown
      rw [hcheck] at hspares
      exact ⟨rfl, hspares.error_eq⟩
    | some decl =>
      rw [checkSupertypes_eq options hkind hdeclaring hdeclared hknown] at hcheck
      exact absurd hcheck nofun

/-! ## A whole run -/

/-- The check of every node in turn stops at no declaration or at an unknown one, and all that has been taken out by then
has been reported. -/
theorem supertypes_removals (ns : List NodeId) (s : CheckState) :
    ∃ rs reports, (UnitCheck.supertypes a options ns s).1 = s.model.removeAll rs ∧
      (∀ r ∈ rs, ∃ n ∈ ns, r.ReportedAt a n reports) ∧
      ((UnitCheck.supertypes a options ns s).2 = .ok (s.diagnostics ++ reports) ∨
        ∃ n ∈ ns, ∃ d, a.typeDeclaredAt? n = some d ∧ s.model.get? d = none ∧
          (UnitCheck.supertypes a options ns s).2 = .error (.unknownDeclaration d)) := by
  induction ns generalizing s with
  | nil => exact ⟨[], [], rfl, List.forall_mem_nil _, Or.inl (congrArg Except.ok (List.append_nil _).symm)⟩
  | cons n ns ih =>
    rw [UnitCheck.supertypes]
    cases hcheck : checkSupertypes a options s.model (some n) with
    | error e =>
      obtain ⟨d, hd, hunknown, rfl⟩ := checkSupertypes_error hcheck
      exact ⟨[], [], rfl, List.forall_mem_nil _, Or.inr ⟨n, List.mem_cons_self, d, hd, hunknown, rfl⟩⟩
    | ok t =>
      obtain ⟨rs, hmodel, hreported⟩ := checkSupertypes_removals hcheck
      obtain ⟨rs', reports, hmodel', hreported', houtcome⟩ :=
        ih { model := t.model, diagnostics := s.diagnostics ++ t.diagnostics }
      refine ⟨rs ++ rs', t.diagnostics ++ reports, ?_, List.forall_mem_append.2 ⟨fun r hr => ?_, fun r hr => ?_⟩, ?_⟩
      · rw [hmodel', hmodel, Model.removeAll_append]
      · exact ⟨n, List.mem_cons_self, (hreported r hr).mono (List.subset_append_left _ _)⟩
      · obtain ⟨n', hn', hr⟩ := hreported' r hr
        exact ⟨n', List.mem_cons_of_mem _ hn', hr.mono (List.subset_append_right _ _)⟩
      · rcases houtcome with h | ⟨n', hn', d, hd, hunknown, h⟩
        · exact Or.inl (h.trans (by rw [List.append_assoc]))
        · rw [hmodel, Model.get?_removeAll_eq_none_iff] at hunknown
          exact Or.inr ⟨n', List.mem_cons_of_mem _ hn', d, hd, hunknown, h⟩

end

end SemCheck
