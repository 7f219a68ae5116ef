import SemCheck.Proofs.Repair.Removals

/-!
# What a check of a unit reports

`checkUnit` takes supertypes out of the model node by node and attaches its diagnostics at the end. Main statement: if
it comes to its end, all that it has taken out is reported; otherwise it has met a declaration that the model does not
know (`checkUnit_accounts`). What has been taken out until then stays so, and nothing is reported (`RepairsSilently`).
-/

namespace SemCheck

namespace Arena

/-- The nodes under a root, inner ones first. -/
def nodesUnder (a : Arena) (root : Option NodeId) : List NodeId := (root.map a.postOrder).getD []

/-- Attaches diagnostics to their nodes, in order. -/
def attach (a : Arena) (reports : List NodeDiagnostic) : Arena :=
  reports.foldl (fun a (slot, report) => a.addDiagnostic slot report) a

/-- What is attached stands behind what has been attached before, and nothing else is changed. -/
theorem attach_eq (a : Arena) (reports : List NodeDiagnostic) :
    a.attach reports = { a with diagnostics := a.diagnostics ++ reports.toArray } := by
  induction reports generalizing a with
  | nil => simp [attach]
  | cons report reports ih =>
    have hfirst : a.attach (report :: reports) = (a.addDiagnostic report.1 report.2).attach reports := rfl
    simp [hfirst, ih, addDiagnostic]

theorem diagnosticsFor_attach (a : Arena) (reports : List NodeDiagnostic) (slot : Option NodeId) :
    (a.attach reports).diagnosticsFor slot =
      a.diagnosticsFor slot ++ reports.filterMap fun (at?, d) => if at? = slot then some d else none := by
  rw [attach_eq, diagnosticsFor, Array.toList_append, List.filterMap_append]
  rfl

theorem declaredAt?_of_typeDeclaredAt? {a : Arena} {n : NodeId} {d : DeclId} (h : a.typeDeclaredAt? n = some d) :
    a.declaredAt? n = some d := by
  obtain ⟨kind, hkind, -, hdeclared⟩ := exists_kind_of_typeDeclaredAt? h
  rw [declaredAt?, hkind, Option.bind_some, hdeclared]

end Arena

/-- A diagnostic with a code for supertypes is kept with the clause or the type of the supertype. -/
def Removal.AttachedIn (a : Arena) (r : Removal) : Prop :=
  ∃ slot, (slot = some r.clause.clause ∨ slot = some r.clause.node) ∧
    ∃ report ∈ a.diagnosticsFor slot, 3101 ≤ report.code ∧ report.code ≤ 3104

theorem Removal.ReportedAt.attachedIn {a : Arena} {n : NodeId} {reports : List NodeDiagnostic} {r : Removal}
    (h : r.ReportedAt a n reports) : r.AttachedIn (a.attach reports) := by
  obtain ⟨⟨slot, report⟩, hmem, hslot, hcode⟩ := h.reported
  refine ⟨slot, hslot, report, ?_, hcode⟩
  rw [Arena.diagnosticsFor_attach]
  exact List.mem_append_right _ (List.mem_filterMap.2 ⟨(slot, report), hmem, if_pos rfl⟩)

/-! ## The parts of a check -/

namespace UnitCheck

variable (a : Arena) (m : Model) (options : Options) (ns : List NodeId)

/-- The check of supertypes, if it is asked for. -/
def decidability : Model × Except ModelError (List NodeDiagnostic) :=
  if options.checkDecidability then supertypes a options ns { model := m } else (m, .ok [])

/-- The check of assignments, if it is asked for. -/
def definiteAssignment : Except ModelError (List NodeDiagnostic) :=
  if options.checkAssignment then assignments a m ns else .ok []

/-- All reports, those of the check of supertypes first; the check of assignments sees the model as repaired. -/
def reports : Except ModelError (List NodeDiagnostic) := do
  let first ← (decidability a m options ns).2
  let second ← definiteAssignment a (decidability a m options ns).1 options ns
  return first ++ second

variable {a m options ns} {root : Option NodeId} {rs : List NodeDiagnostic} {e : ModelError}

theorem checkUnit_eq (a : Arena) (m : Model) (options : Options) (root : Option NodeId) :
    checkUnit a m options root =
      match reports a m options (a.nodesUnder root) with
      | .error e => ⟨(decidability a m options (a.nodesUnder root)).1, a, .error e⟩
      | .ok rs => ⟨(decidability a m options (a.nodesUnder root)).1, a.attach rs, .ok (rs.map Prod.snd)⟩ := by
  obtain ⟨exempt, assignment, decidability⟩ := options
  cases assignment <;> cases decidability <;> rfl

/-! ## What stops a check -/

/-- The check of assignments at a node needs to know the declaration, its name and whether it is to be watched. -/
theorem assignmentsAt_eq (a : Arena) (m : Model) (n : NodeId) :
    assignmentsAt a m n =
      match a.declaredAt? n with
      | none => .ok []
      | some d =>
        match m.get? d with
        | none => .error (.unknownDeclaration d)
        | some decl => .ok
          (if decl.needsAssignmentCheck then ((a.enclosingScope? d).map (checkAssignment a m d)).getD [] else []) := by
  rw [assignmentsAt]
  show (match a.declaredAt? n with | none => _ | some d => _) = _
  cases a.declaredAt? n with
  | none => rfl
  | some d =>
    simp only [Model.get]
    cases m.get? d with
    | none => rfl
    | some decl =>
      simp only [bind, Except.bind]
      split
      · cases a.enclosingScope? d <;> rfl
      · rfl

theorem assignmentsAt_error {n : NodeId} {e : ModelError} (h : assignmentsAt a m n = .error e) :
    ∃ d, a.declaredAt? n = some d ∧ m.get? d = none ∧ e = .unknownDeclaration d := by
  rw [assignmentsAt_eq] at h
  split at h
  · exact absurd h nofun
  · next d hd =>
    split at h
    · next hunknown => exact ⟨d, hd, hunknown, (Except.error.inj h).symm⟩
    · exact absurd h nofun

theorem assignments_error {e : ModelError} (h : assignments a m ns = .error e) :
    ∃ n ∈ ns, ∃ d, a.declaredAt? n = some d ∧ m.get? d = none ∧ e = .unknownDeclaration d := by
  induction ns with
  | nil => exact absurd h nofun
  | cons n ns ih =>
    simp only [assignments, bind, Except.bind] at h
    cases hfirst : assignmentsAt a m n with
    | error e' =>
      rw [hfirst] at h
      obtain rfl := Except.error.inj h
      exact ⟨n, List.mem_cons_self, assignmentsAt_error hfirst⟩
    | ok first =>
      cases hrest : assignments a m ns with
      | error e' =>
        simp only [hfirst, hrest] at h
        obtain rfl := Except.error.inj h
        obtain ⟨n', hn', hd⟩ := ih hrest
        exact ⟨n', List.mem_cons_of_mem _ hn', hd⟩
      | ok rest =>
        simp only [hfirst, hrest] at h
        exact absurd h nofun

/-- A check comes to its end, with all that it has taken out reported, or it stops at an unknown declaration. -/
theorem reports_cases (a : Arena) (m : Model) (options : Options) (ns : List NodeId) :
    ∃ removals first, (decidability a m options ns).1 = m.removeAll removals ∧
      (∀ r ∈ removals, ∃ n ∈ ns, r.ReportedAt a n first) ∧
      ((∃ second, reports a m options ns = .ok (first ++ second)) ∨
        ∃ n ∈ ns, ∃ d, a.declaredAt? n = some d ∧ m.get? d = none ∧
          reports a m options ns = .error (.unknownDeclaration d)) := by
  obtain ⟨removals, first, hmodel, hreported, houtcome⟩ : ∃ removals first,
      (decidability a m options ns).1 = m.removeAll removals ∧ (∀ r ∈ removals, ∃ n ∈ ns, r.ReportedAt a n first) ∧
        ((decidability a m options ns).2 = .ok first ∨ ∃ n ∈ ns, ∃ d, a.typeDeclaredAt? n = some d ∧
          m.get? d = none ∧ (decidability a m options ns).2 = .error (.unknownDeclaration d)) := by
    unfold decidability
    split
    · exact supertypes_removals ns { model := m }
    · exact ⟨[], [], rfl, List.forall_mem_nil _, Or.inl rfl⟩
  refine ⟨removals, first, hmodel, hreported, ?_⟩
  simp only [reports, bind, Except.bind, pure, Except.pure]
  rcases houtcome with hok | ⟨n, hn, d, hd, hunknown, herror⟩
  · rw [hok]
    cases hsecond : definiteAssignment a (decidability a m options ns).1 options ns with
    | ok second => exact Or.inl ⟨second, rfl⟩
    | error e =>
      unfold definiteAssignment at hsecond
      split at hsecond
      · obtain ⟨n, hn, d, hd, hunknown, rfl⟩ := assignments_error hsecond
        rw [hmodel, Model.get?_removeAll_eq_none_iff] at hunknown
        exact Or.inr ⟨n, hn, d, hd, hunknown, rfl⟩
      · exact absurd hsecond nofun
  · rw [herror]
    exact Or.inr ⟨n, hn, d, Arena.declaredAt?_of_typeDeclaredAt? hd, hunknown, rfl⟩

end UnitCheck

/-! ## All that is taken out -/

open UnitCheck in
/-- **A check that comes to its end accounts for every repair**: all that it changes are declarations out of which it
takes supertypes, and for each of these the arena has a new diagnostic at the clause or the type. A check that does not
come to its end has met a declaration that the model does not know; it attaches nothing. -/
theorem checkUnit_accounts (a : Arena) (m : Model) (options : Options) (root : Option NodeId) :
    ∃ removals, (checkUnit a m options root).model = m.removeAll removals ∧
      (∀ d, (checkUnit a m options root).model.get? d ≠ m.get? d → ∃ r ∈ removals, r.decl = d) ∧
      ((∃ rs, (checkUnit a m options root).outcome = .ok (rs.map Prod.snd) ∧
        (checkUnit a m options root).arena = { a with diagnostics := a.diagnostics ++ rs.toArray } ∧
        ∀ r ∈ removals, (∃ n ∈ a.nodesUnder root, r.ReportedAt a n rs) ∧
          r.AttachedIn (checkUnit a m options root).arena) ∨
      ∃ n ∈ a.nodesUnder root, ∃ d, a.declaredAt? n = some d ∧ m.get? d = none ∧
        (checkUnit a m options root).outcome = .error (.unknownDeclaration d) ∧
        (checkUnit a m options root).arena = a) := by
  obtain ⟨removals, first, hmodel, hreported, houtcome⟩ := reports_cases a m options (a.nodesUnder root)
  have hmodel' : (checkUnit a m options root).model = m.removeAll removals := by
    rw [checkUnit_eq, ← hmodel]
    cases reports a m options (a.nodesUnder root) <;> rfl
  refine ⟨removals, hmodel', fun d hchanged => Model.exists_removal_of_get?_ne (hmodel' ▸ hchanged), ?_⟩
  rw [checkUnit_eq]
  rcases houtcome with ⟨second, hok⟩ | ⟨n, hn, d, hd, hunknown, herror⟩
  · rw [hok]
    refine Or.inl ⟨first ++ second, rfl, a.attach_eq _, fun r hr => ?_⟩
    obtain ⟨n, hn, hr⟩ := hreported r hr
    have hr := hr.mono (List.subset_append_left _ second)
    exact ⟨⟨n, hn, hr⟩, hr.attachedIn⟩
  · rw [herror]
    exact Or.inr ⟨n, hn, d, hd, hunknown, rfl, rfl⟩

/-- The supertypes of a declaration are others after the check, and no diagnostic in the arena has the code of one for
supertypes. -/
def RepairsSilently (a : Arena) (m : Model) (options : Options) (root : Option NodeId) : Prop :=
  (∃ d decl decl', m.get? d = some decl ∧ (checkUnit a m options root).model.get? d = some decl' ∧
    (decl'.extended ≠ decl.extended ∨ decl'.satisfied ≠ decl.satisfied)) ∧
    ∀ report ∈ (checkUnit a m options root).arena.allDiagnostics, ¬ (3101 ≤ report.code ∧ report.code ≤ 3104)

/-- An interface that satisfies itself, of number 2. -/
def selfish : Model :=
  ((Model.new "lang").add
    { name := "A", kind := .interfaceDecl, package := ⟨0⟩, satisfied := [.applied ⟨2⟩ []] }).2

/-- A block with that interface and a value that the model does not know. -/
def unknownLater : Arena :=
  let (clause, a) := Arena.addSatisfiedTypes { fileName := "unit" } [.applied ⟨2⟩ []]
  let (interface, a) := a.add (.interfaceDecl ⟨2⟩ clause none)
  let (value, a) := a.add (.valueDecl ⟨77⟩ none none)
  (a.add (.block [interface, value])).2

/-- The interface is repaired before the check comes to the value, where it fails and drops what it has to report. -/
theorem repairsSilently_unknownLater : RepairsSilently unknownLater selfish {} (some ⟨4⟩) := by
  refine ⟨⟨⟨2⟩, _, _, rfl, rfl, Or.inr (by decide)⟩, ?_⟩
  decide

end SemCheck
