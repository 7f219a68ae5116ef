import SemCheck.Proofs.Unit.Accounts

/-!
# The two parts of a check do not interfere

The check of assignments reads which declarations there are, their names, flags and kinds, but no supertypes
(`assignments_removeAll`), and the check of supertypes reads none of its reports. Main statement: both together report
and repair what each does alone (`checkUnit_both`).
-/

namespace SemCheck

namespace UnitCheck

variable {a : Arena} {m : Model} {options options' : Options} {ns : List NodeId}

/-! ## What either part does not see -/

/-- Of the options the check of supertypes only reads the exemptions. -/
theorem supertypes_congr (h : options.exemptPackages = options'.exemptPackages) (ns : List NodeId) (s : CheckState) :
    supertypes a options ns s = supertypes a options' ns s := by
  induction ns generalizing s with
  | nil => rfl
  | cons n ns ih =>
    have hcheck : checkSupertypes a options s.model (some n) = checkSupertypes a options' s.model (some n) := by
      simp only [checkSupertypes, h]
    rw [supertypes, supertypes, hcheck]
    split
    · exact ih _
    · rfl

/-- The check of assignments does not see which supertypes have been taken out. -/
theorem assignments_removeAll (a : Arena) (m : Model) (removals : List Removal) (ns : List NodeId) :
    assignments a (m.removeAll removals) ns = assignments a m ns := by
  have hnode (n : NodeId) : assignmentsAt a (m.removeAll removals) n = assignmentsAt a m n := by
    rw [assignmentsAt_eq, assignmentsAt_eq]
    cases a.declaredAt? n with
    | none => rfl
    | some d =>
      rcases m.get?_removeAll_cases removals d with ⟨hafter, hbefore⟩ | ⟨decl, decl', hafter, hbefore, halike⟩
      · simp only [hafter, hbefore]
      · have hname : (m.removeAll removals).name d = m.name d := by
          simp only [Model.name, hafter, hbefore, halike.name]
        have hwatched : decl'.needsAssignmentCheck = decl.needsAssignmentCheck := by
          rw [Declaration.needsAssignmentCheck, halike.flags, halike.kind, Declaration.needsAssignmentCheck]
        have hcheck : checkAssignment a (m.removeAll removals) d = checkAssignment a m d := by
          funext scope
          rw [checkAssignment, hname, checkAssignment]
        simp only [hafter, hbefore, hwatched, hcheck]
  induction ns with
  | nil => rfl
  | cons n ns ih => rw [assignments, assignments, hnode, ih]

/-! ## Both parts -/

theorem decidability_both (exempt : List String) :
    decidability a m ⟨exempt, true, true⟩ ns = decidability a m ⟨exempt, false, true⟩ ns :=
  @supertypes_congr a ⟨exempt, true, true⟩ ⟨exempt, false, true⟩ rfl ns { model := m }

/-- **Both parts report what each does alone**, one after the other. -/
theorem reports_both (a : Arena) (m : Model) (exempt : List String) (ns : List NodeId) :
    reports a m ⟨exempt, true, true⟩ ns = do
      let first ← reports a m ⟨exempt, false, true⟩ ns
      let second ← reports a m ⟨exempt, true, false⟩ ns
      return first ++ second := by
  obtain ⟨removals, _, hmodel, -, -⟩ := reports_cases a m ⟨exempt, false, true⟩ ns
  have hsecond : definiteAssignment a (decidability a m ⟨exempt, false, true⟩ ns).1 ⟨exempt, true, true⟩ ns =
      assignments a m ns := by
    rw [hmodel]
    exact assignments_removeAll a m removals ns
  have halone : reports a m ⟨exempt, true, false⟩ ns = assignments a m ns := by
    show (assignments a m ns).bind (fun second => .ok ([] ++ second)) = _
    cases assignments a m ns <;> rfl
  have hfirst : reports a m ⟨exempt, false, true⟩ ns = (decidability a m ⟨exempt, false, true⟩ ns).2 := by
    show (decidability a m ⟨exempt, false, true⟩ ns).2.bind (fun first => .ok (first ++ [])) = _
    cases (decidability a m ⟨exempt, false, true⟩ ns).2 with
    | error e => rfl
    | ok first => exact congrArg Except.ok (List.append_nil first)
  rw [halone, hfirst, reports, decidability_both, hsecond]

end UnitCheck

open UnitCheck in
/-- **The two parts of a check do not interfere**: if each alone comes to its end, both together report what they report
alone, and leave the model as the check of supertypes alone does. The arena is as it was but for its diagnostics, which
are followed by those that the check of supertypes alone attaches and then by those of the other, at the same nodes. -/
theorem checkUnit_both (a : Arena) (m : Model) (exempt : List String) (root : Option NodeId)
    (ds ds' : List Diagnostic) (hfirst : (checkUnit a m ⟨exempt, false, true⟩ root).outcome = .ok ds)
    (hsecond : (checkUnit a m ⟨exempt, true, false⟩ root).outcome = .ok ds') :
    (checkUnit a m ⟨exempt, true, true⟩ root).outcome = .ok (ds ++ ds') ∧
      (checkUnit a m ⟨exempt, true, true⟩ root).model = (checkUnit a m ⟨exempt, false, true⟩ root).model ∧
      ∃ rs rs' : List NodeDiagnostic, rs.map Prod.snd = ds ∧ rs'.map Prod.snd = ds' ∧
        (checkUnit a m ⟨exempt, false, true⟩ root).arena = { a with diagnostics := a.diagnostics ++ rs.toArray } ∧
        (checkUnit a m ⟨exempt, true, false⟩ root).arena = { a with diagnostics := a.diagnostics ++ rs'.toArray } ∧
        (checkUnit a m ⟨exempt, true, true⟩ root).arena =
          { a with diagnostics := a.diagnostics ++ (rs ++ rs').toArray } := by
  simp only [checkUnit_eq, reports_both, decidability_both] at hfirst hsecond ⊢
  cases hreports : reports a m ⟨exempt, false, true⟩ (a.nodesUnder root) with
  | error e =>
    rw [hreports] at hfirst
    exact absurd hfirst nofun
  | ok first =>
    cases hreports' : reports a m ⟨exempt, true, false⟩ (a.nodesUnder root) with
    | error e =>
      rw [hreports'] at hsecond
      exact absurd hsecond nofun
    | ok second =>
      rw [hreports] at hfirst
      rw [hreports'] at hsecond
      obtain rfl := Except.ok.inj hfirst
      obtain rfl := Except.ok.inj hsecond
      exact ⟨congrArg Except.ok List.map_append, rfl, first, second, rfl, rfl, a.attach_eq _, a.attach_eq _,
        a.attach_eq _⟩

/-- The model of `selfish` and a local value `x`, of number 3. -/
def selfishWithLocal : Model := (selfish.add { name := "x", kind := .value, package := ⟨0⟩ }).2

/-- A block with that interface, `value x;` and `x`. -/
def faultOfEachKind : Arena :=
  let (clause, a) := Arena.addSatisfiedTypes { fileName := "unit" } [.applied ⟨2⟩ []]
  let (interface, a) := a.add (.interfaceDecl ⟨2⟩ clause none)
  let (value, a) := a.add (.valueDecl ⟨3⟩ none none)
  let (read, a) := a.add (.reference ⟨3⟩ .unqualified)
  (a.add (.block [interface, value, read])).2

theorem placedCodes_of_eq {a a' : Arena} {reports : List NodeDiagnostic} (hnone : a.diagnostics = #[])
    (h : a' = { a with diagnostics := a.diagnostics ++ reports.toArray }) :
    placedCodes a'.diagnostics.toList = placedCodes reports := by
  rw [h, hnone, Array.empty_append]

/-- A circular supertype, reported at its clause, and a read of a value that has not been assigned, reported at the
reference. -/
theorem checkUnit_both_faultOfEachKind :
    ∃ ds ds', ds.map (·.code) = [3101] ∧ ds'.map (·.code) = [3002] ∧
      (checkUnit faultOfEachKind selfishWithLocal {} (some ⟨5⟩)).outcome = .ok (ds ++ ds') ∧
      (checkUnit faultOfEachKind selfishWithLocal {} (some ⟨5⟩)).model.supertypesOf ⟨2⟩ = [] ∧
      placedCodes (checkUnit faultOfEachKind selfishWithLocal {} (some ⟨5⟩)).arena.diagnostics.toList =
        [(some ⟨1⟩, 3101), (some ⟨4⟩, 3002)] := by
  obtain ⟨houtcome, hmodel, rs, rs', -, -, hfirst, hsecond, hboth⟩ :=
    checkUnit_both faultOfEachKind selfishWithLocal ["lumen"] (some ⟨5⟩) _ _ rfl rfl
  refine ⟨_, _, ?_, ?_, houtcome, ?_, ?_⟩
  · decide
  · decide
  · exact (congrArg (Model.supertypesOf · ⟨2⟩) hmodel).trans (by decide)
  · have hcircular : placedCodes rs = [(some ⟨1⟩, 3101)] := (placedCodes_of_eq rfl hfirst).symm.trans (by decide)
    have hunassigned : placedCodes rs' = [(some ⟨4⟩, 3002)] := (placedCodes_of_eq rfl hsecond).symm.trans (by decide)
    have happend : placedCodes (rs ++ rs') = placedCodes rs ++ placedCodes rs' := List.map_append
    rw [placedCodes_of_eq rfl hboth, happend, hcircular, hunassigned]
    rfl

end SemCheck
