import SemCheck.Decidability
import SemCheck.Proofs.Recursion.Budget
import SemCheck.Proofs.Repair.Frame

/-!
# A check of supertypes asks the model it was given

`checkSupertypes` repairs the model while it goes through the supertypes of a declaration, and asks the model as
repaired so far. All its repairs together are one change to that declaration (`repairAll`), which no later question can
see. So the outcome is what the questions say of the model before the check (`checkSupertypes_eq`): **the repairs of one
pass do not depend on one another** (`checkSupertypes_verdicts`).
-/

namespace SemCheck

/-! ## Several repairs at once -/

/-- What the repair of supertypes leaves of a declaration. Each satisfied type goes at its first place that is left. -/
def Declaration.repaired (basic : Ty) (cs : List SupertypeClause) (decl : Declaration) : Declaration :=
  { decl with
    extended := if cs.any (·.isExtended) then some basic else decl.extended
    satisfied := (cs.filter (!·.isExtended)).foldl (fun ts c => ts.erase c.ty) decl.satisfied
    broken := decl.broken ++ cs.map (·.ty) }

namespace Model

/-- Takes supertypes out of a declaration, one after the other. -/
def repairAll (m : Model) (d : DeclId) (cs : List SupertypeClause) : Model := m.modify d (·.repaired m.basicType cs)

variable {m : Model} {d : DeclId} {decl : Declaration}

theorem alike_repaired (basic : Ty) (cs : List SupertypeClause) (decl : Declaration) :
    (decl.repaired basic cs).Alike decl := ⟨rfl, rfl, rfl, rfl, rfl, rfl, rfl, rfl, rfl⟩

theorem modify_modify (m : Model) (d : DeclId) (f g : Declaration → Declaration) :
    (m.modify d f).modify d g = m.modify d (g ∘ f) := by
  have hcomp : (m.declarations.modify d.index f).modify d.index g = m.declarations.modify d.index (g ∘ f) := by
    apply Array.ext
    · simp only [Array.size_modify]
    · intro i h h'
      simp only [Array.getElem_modify]
      split <;> rfl
  exact congrArg (fun declarations => { m with declarations }) hcomp

theorem modify_id (m : Model) (d : DeclId) : m.modify d id = m := by
  have hid : m.declarations.modify d.index id = m.declarations := by
    apply Array.ext
    · simp only [Array.size_modify]
    · intro i h h'
      simp only [Array.getElem_modify, id, ite_self]
  rw [modify, hid]

theorem repairAll_nil (m : Model) (d : DeclId) : m.repairAll d [] = m := by
  have hid : Declaration.repaired m.basicType [] = id := by
    funext decl
    simp [Declaration.repaired]
  rw [repairAll, hid, modify_id]

theorem repairAll_append (m : Model) (d : DeclId) (cs cs' : List SupertypeClause) :
    (m.repairAll d cs).repairAll d cs' = m.repairAll d (cs ++ cs') := by
  have hcomp : Declaration.repaired m.basicType cs' ∘ Declaration.repaired m.basicType cs =
      Declaration.repaired m.basicType (cs ++ cs') := by
    funext decl
    simp only [Function.comp, Declaration.repaired, List.any_append, List.filter_append, List.foldl_append,
      List.map_append, List.append_assoc]
    cases cs.any (·.isExtended) <;> cases cs'.any (·.isExtended) <;> rfl
  rw [repairAll, repairAll, basicType_modify m d (alike_repaired m.basicType cs), modify_modify, hcomp, repairAll]

theorem get?_repairAll_self (hknown : m.get? d = some decl) (cs : List SupertypeClause) :
    (m.repairAll d cs).get? d = some (decl.repaired m.basicType cs) := by
  rw [repairAll, get?_modify_self, hknown, Option.map_some]

theorem addBroken_modify (hknown : m.get? d = some decl) (f : Declaration → Declaration) (t : Ty) :
    (m.modify d f).addBroken d t =
      .ok (m.modify d fun decl => { f decl with broken := (f decl).broken ++ [t] }) := by
  have hget : (m.modify d f).get d = .ok (f decl) := by
    rw [get, get?_modify_self, hknown, Option.map_some]
  rw [addBroken, hget]
  exact congrArg Except.ok (modify_modify m d f _)

/-- A repair is a change to a declaration that the model knows. -/
theorem repair_eq (hknown : m.get? d = some decl) (c : SupertypeClause) : m.repair d c = .ok (m.repairAll d [c]) := by
  have hget : m.get d = .ok decl := by rw [get, hknown]
  cases hextended : c.isExtended with
  | true =>
    have hreset : m.resetExtended d = .ok (m.modify d fun decl => { decl with extended := some m.basicType }) := by
      rw [resetExtended, hget]
      rfl
    rw [repair, hextended, if_pos rfl, hreset]
    refine (addBroken_modify hknown _ c.ty).trans ?_
    simp [repairAll, Declaration.repaired, hextended]
  | false =>
    have hremove : Prod.snd <$> m.removeSatisfied d c.ty =
        .ok (m.modify d fun decl => { decl with satisfied := decl.satisfied.erase c.ty }) := by
      rw [removeSatisfied, hget]
      rfl
    rw [repair, hextended, if_neg Bool.false_ne_true, hremove]
    refine (addBroken_modify hknown _ c.ty).trans ?_
    simp [repairAll, Declaration.repaired, hextended]

theorem repair_repairAll (hknown : m.get? d = some decl) (cs : List SupertypeClause) (c : SupertypeClause) :
    (m.repairAll d cs).repair d c = .ok (m.repairAll d (cs ++ [c])) := by
  rw [repair_eq (get?_repairAll_self hknown cs), repairAll_append]

end Model

namespace Decidability

variable (a : Arena) (m : Model) (d : DeclId)

/-! ## Circular supertypes -/

/-- The supertypes that lead back to `d`. -/
def circularOf (cs : List SupertypeClause) : List SupertypeClause := cs.filter fun c => m.rawRecursion [d] c.ty ≠ []

def circularReport (c : SupertypeClause) : NodeDiagnostic :=
  a.diagnosticAt c.clause .circular [m.name d, m.nameList (m.rawRecursion [d] c.ty)]

/-! ## Other faults -/

theorem recursionReports_eq (c : SupertypeClause) : recursionReports a d m c =
    if m.fullRecursion [d] c.ty = [] then []
    else [a.diagnosticAt c.node .circularInSupertype
      [m.name d, m.nameList (m.fullRecursion [d] c.ty), m.typeName c.ty]] := by
  unfold recursionReports
  cases m.fullRecursion [d] c.ty <;> rfl

theorem selfTypeReports_eq (c : SupertypeClause) : selfTypeReports a d m c =
    if m.illegalSelfTypes [d] c.ty = [] then []
    else [a.diagnosticAt c.node .selfTypeAsArgument [m.typeName c.ty, m.name d]] := by
  unfold selfTypeReports
  cases m.illegalSelfTypes [d] c.ty <;> rfl

/-- All that is reported of a supertype of a declaration without circular ones. -/
def reportsOf (c : SupertypeClause) : List NodeDiagnostic :=
  recursionReports a d m c ++ selfTypeReports a d m c ++ varianceReports a m c

/-- The supertypes that are taken out for what is reported of them. -/
def brokenOf (exempt : Bool) (cs : List SupertypeClause) : List SupertypeClause :=
  cs.filter fun c => !(varianceReports a m c).isEmpty ||
    (!exempt && !(recursionReports a d m c ++ selfTypeReports a d m c).isEmpty)

variable {a m d} {decl : Declaration}

/-- The pass over a model from which `done` have been taken out finds what there was in the model before. -/
theorem rawPass_eq (hknown : m.get? d = some decl) (cs done : List SupertypeClause) (reports : List NodeDiagnostic) :
    rawPass a d cs ⟨m.repairAll d done, reports⟩ = .ok (!(circularOf m d cs).isEmpty,
      ⟨m.repairAll d (done ++ circularOf m d cs), reports ++ (circularOf m d cs).map (circularReport a m d)⟩) := by
  induction cs generalizing done reports with
  | nil => simp [rawPass, circularOf]
  | cons c cs ih =>
    have hraw : (m.repairAll d done).rawRecursion [d] c.ty = m.rawRecursion [d] c.ty := Model.rawRecursion_modify ..
    have halike := Model.alike_repaired m.basicType done
    cases hpath : m.rawRecursion [d] c.ty with
    | nil =>
      have hnot : circularOf m d (c :: cs) = circularOf m d cs := by simp [circularOf, hpath]
      rw [hpath] at hraw
      simp only [rawPass, hraw, ih, hnot]
    | cons e path =>
      have hmem : circularOf m d (c :: cs) = c :: circularOf m d cs := by simp [circularOf, hpath]
      rw [hpath] at hraw
      have hreport : a.diagnosticAt c.clause .circular
          [(m.repairAll d done).name d, (m.repairAll d done).nameList (e :: path)] = circularReport a m d c := by
        rw [circularReport, hpath, Model.repairAll, Model.name_modify m d halike, Model.nameList_modify m d halike]
      simp only [rawPass, hraw, Model.repair_repairAll hknown, hreport, hmem]
      show (rawPass a d cs ⟨_, _⟩ >>= fun r => .ok (true, r.2)) = _
      rw [ih, List.append_assoc, List.append_assoc]
      rfl

theorem checkClause_eq (hknown : m.get? d = some decl) (exempt : Bool) (done : List SupertypeClause)
    (reports : List NodeDiagnostic) (c : SupertypeClause) :
    checkClause a d exempt ⟨m.repairAll d done, reports⟩ c =
      .ok ⟨m.repairAll d (done ++ brokenOf a m d exempt [c]), reports ++ reportsOf a m d c⟩ := by
  have halike := Model.alike_repaired m.basicType done
  have hrecursion : recursionReports a d (m.repairAll d done) c = recursionReports a d m c := by
    simp only [recursionReports, Model.repairAll, Model.fullRecursion_modify m d halike, Model.name_modify m d halike,
      Model.nameList_modify m d halike, Model.typeName_modify m d halike]
  have hselfTypes : selfTypeReports a d (m.repairAll d done) c = selfTypeReports a d m c := by
    simp only [selfTypeReports, Model.repairAll, Model.illegalSelfTypes_modify m d halike, Model.name_modify m d halike,
      Model.typeName_modify m d halike]
  have hvariance : varianceReports a (m.repairAll d done) c = varianceReports a m c := by
    simp only [varianceReports, Model.repairAll, Model.resolve_modify m d halike,
      Model.contravariantOffenders_modify m d halike, Model.name_modify m d halike, Model.typeName_modify m d halike]
  simp only [checkClause, hrecursion, hselfTypes, hvariance, brokenOf, reportsOf, List.filter_cons, List.filter_nil]
  split
  · next h =>
    rw [Model.repair_repairAll hknown]
    simp [bind, Except.bind, pure, Except.pure]
  · simp [bind, Except.bind, pure, Except.pure]

theorem foldlM_checkClause_eq (hknown : m.get? d = some decl) (exempt : Bool) (cs done : List SupertypeClause)
    (reports : List NodeDiagnostic) :
    cs.foldlM (checkClause a d exempt) ⟨m.repairAll d done, reports⟩ =
      .ok ⟨m.repairAll d (done ++ brokenOf a m d exempt cs), reports ++ cs.flatMap (reportsOf a m d)⟩ := by
  induction cs generalizing done reports with
  | nil => simp [brokenOf, pure, Except.pure]
  | cons c cs ih =>
    have happend : brokenOf a m d exempt [c] ++ brokenOf a m d exempt cs = brokenOf a m d exempt (c :: cs) := by
      rw [brokenOf, brokenOf, ← List.filter_append, List.singleton_append, brokenOf]
    rw [List.foldlM_cons, checkClause_eq hknown]
    refine (ih _ _).trans ?_
    rw [List.append_assoc, happend, List.append_assoc, List.flatMap_cons]

end Decidability

/-! ## The whole check -/

section

open Decidability

variable {a : Arena} {m : Model} {n : NodeId} {kind : NodeKind NodeId} {d : DeclId} {decl : Declaration}

/-- The outcome in terms of the model before the check. -/
theorem checkSupertypes_eq (options : Options) (hkind : a.kind? n = some kind) (hdeclaring : kind.isTypeDeclaring = true)
    (hdeclared : kind.declared? = some d) (hknown : m.get? d = some decl) :
    checkSupertypes a options m (some n) =
      .ok (if (circularOf m d (a.supertypeClauses kind)).isEmpty then
        ⟨m.repairAll d (brokenOf a m d (m.isInPackages d options.exemptPackages) (a.supertypeClauses kind)),
          (a.supertypeClauses kind).flatMap (reportsOf a m d)⟩
      else
        ⟨m.repairAll d (circularOf m d (a.supertypeClauses kind)),
          (circularOf m d (a.supertypeClauses kind)).map (circularReport a m d)⟩) := by
  have hpass := rawPass_eq (a := a) hknown (a.supertypeClauses kind) [] []
  simp only [Model.repairAll_nil, List.nil_append] at hpass
  simp only [checkSupertypes, Option.bind_eq_bind, Option.bind_some, hkind, hdeclaring, if_true, hdeclared, hpass]
  cases hempty : (circularOf m d (a.supertypeClauses kind)).isEmpty with
  | false => rfl
  | true =>
    rw [List.isEmpty_iff.1 hempty, Model.repairAll_nil, if_pos rfl]
    have hfold := foldlM_checkClause_eq (a := a) hknown (m.isInPackages d options.exemptPackages)
      (a.supertypeClauses kind) [] []
    rw [Model.repairAll_nil] at hfold
    exact hfold

/-- **The repairs of one pass do not depend on one another**: what is reported and what is taken out is decided, for
each supertype, by the model before the check. If any supertypes lead back through declarations alone, those are
reported at their clauses and taken out, and nothing else is; otherwise each is judged by itself. -/
theorem checkSupertypes_verdicts (a : Arena) (options : Options) (m : Model) (n : NodeId) (kind : NodeKind NodeId)
    (d : DeclId) (decl : Declaration) (hkind : a.kind? n = some kind) (hdeclaring : kind.isTypeDeclaring = true)
    (hdeclared : kind.declared? = some d) (hknown : m.get? d = some decl) :
    ∃ s, checkSupertypes a options m (some n) = .ok s ∧
      ((∃ c ∈ a.supertypeClauses kind, m.rawRecursion [d] c.ty ≠ []) →
        s.diagnostics = ((a.supertypeClauses kind).filter fun c => m.rawRecursion [d] c.ty ≠ []).map (fun c =>
            a.diagnosticAt c.clause .circular [m.name d, m.nameList (m.rawRecursion [d] c.ty)]) ∧
          s.model = m.repairAll d ((a.supertypeClauses kind).filter fun c => m.rawRecursion [d] c.ty ≠ [])) ∧
      ((∀ c ∈ a.supertypeClauses kind, m.rawRecursion [d] c.ty = []) →
        s.diagnostics = (a.supertypeClauses kind).flatMap (fun c =>
            (if m.fullRecursion [d] c.ty = [] then []
              else [a.diagnosticAt c.node .circularInSupertype
                [m.name d, m.nameList (m.fullRecursion [d] c.ty), m.typeName c.ty]]) ++
            (if m.illegalSelfTypes [d] c.ty = [] then []
              else [a.diagnosticAt c.node .selfTypeAsArgument [m.typeName c.ty, m.name d]]) ++
            (m.contravariantOffenders (m.resolve c.ty).1).map fun offender =>
              a.diagnosticAt c.node .contravariantLocation [m.name offender, m.typeName c.ty]) ∧
          s.model = m.repairAll d ((a.supertypeClauses kind).filter fun c =>
            m.contravariantOffenders (m.resolve c.ty).1 ≠ [] ∨
              (m.fullRecursion [d] c.ty ≠ [] ∨ m.illegalSelfTypes [d] c.ty ≠ []) ∧
                m.isInPackages d options.exemptPackages = false)) := by
  refine ⟨_, checkSupertypes_eq options hkind hdeclaring hdeclared hknown, ?_, ?_⟩
  · rintro ⟨c, hc, hpath⟩
    have hne : (circularOf m d (a.supertypeClauses kind)).isEmpty = false := by
      rw [List.isEmpty_eq_false_iff_exists_mem]
      exact ⟨c, List.mem_filter.2 ⟨hc, decide_eq_true hpath⟩⟩
    rw [hne]
    exact ⟨rfl, rfl⟩
  · intro hnone
    have hempty : (circularOf m d (a.supertypeClauses kind)).isEmpty = true := by
      rw [List.isEmpty_iff]
      apply List.filter_eq_nil_iff.2
      intro c hc
      rw [hnone c hc]
      exact Bool.false_ne_true
    rw [hempty, if_pos rfl]
    refine ⟨?_, congrArg (m.repairAll d) (List.filter_congr ?_)⟩
    · refine congrArg (fun f => List.flatMap f (a.supertypeClauses kind)) (funext fun c => ?_)
      rw [reportsOf, recursionReports_eq, selfTypeReports_eq, varianceReports]
    · intro c _
      rw [recursionReports_eq, selfTypeReports_eq, varianceReports]
      cases m.contravariantOffenders (m.resolve c.ty).1 <;> cases m.fullRecursion [d] c.ty <;>
        cases m.illegalSelfTypes [d] c.ty <;> cases m.isInPackages d options.exemptPackages <;> rfl

/-! ### A class with several clauses -/

/-- A model with an interface 2 that has a contravariant parameter, and an interface or class 4. -/
def comparing (kind : DeclKind) (extended : Option Ty) (satisfied : List Ty) : Model :=
  let comparable : Declaration :=
    { name := "Comparable", kind := .interfaceDecl, package := ⟨0⟩, typeParameters := [⟨3⟩] }
  let other : Declaration := { name := "Other", kind := .typeParameter, package := ⟨0⟩, variance := .contravariant }
  (((((Model.new "lang").add comparable).2.add other).2).add { name := "C", kind, package := ⟨0⟩, extended, satisfied }).2

/-- `Comparable<t>`. -/
def comparable (t : Ty) : Ty := .applied ⟨2⟩ [t]

/-- `Comparable<Comparable<Anything>>`. -/
def twiceComparable : Ty := comparable (comparable (.applied ⟨0⟩ []))

/-- A class with a satisfies and an extends clause. -/
def classWith (d : DeclId) (extended : Ty) (satisfied : List Ty) : Arena :=
  let (satisfies, a) := Arena.addSatisfiedTypes { fileName := "unit" } satisfied
  let (extending, a) := a.addExtendedType extended []
  (a.add (.classDecl d [] extending satisfies none)).2

/-- The codes of diagnostics with the nodes they stand at. -/
def placedCodes (reports : List NodeDiagnostic) : List (Option NodeId × Nat) :=
  reports.map fun (slot, report) => (slot, report.code)

/-- What the model knows of the supertypes of a declaration. -/
def Model.supertypesLeft (m : Model) (d : DeclId) : Option (List Ty × Option Ty × List Ty) :=
  (m.get? d).map fun decl => (decl.satisfied, decl.extended, decl.broken)

/-- `class C satisfies C, Comparable<Comparable<Anything>>, C extends C`. -/
def circularClass : Ty × List Ty := (.applied ⟨4⟩ [], [.applied ⟨4⟩ [], twiceComparable, .applied ⟨4⟩ []])

/-- `class C satisfies Comparable<Comparable<Anything>>, Comparable<C>, Comparable<Comparable<Anything>>`, and it extends
the first of these. -/
def undecidableClass : Ty × List Ty := (twiceComparable, [twiceComparable, comparable (.applied ⟨4⟩ []), twiceComparable])

/-- Where supertypes lead back, all of these are reported at their clauses and taken out, and the undecidable one stays.
Otherwise the undecidable ones are reported at their types and taken out. A type that is written twice is reported and
taken out twice, and the extended type gives way to the basic one. -/
theorem checkSupertypes_verdicts_severalClauses :
    (∃ s, checkSupertypes (classWith ⟨4⟩ circularClass.1 circularClass.2) {}
          (comparing .classDecl circularClass.1 circularClass.2) (some ⟨6⟩) = .ok s ∧
        placedCodes s.diagnostics = [(some ⟨3⟩, 3101), (some ⟨3⟩, 3101), (some ⟨5⟩, 3101)] ∧
        s.model.supertypesLeft ⟨4⟩ = some ([twiceComparable], some (.applied ⟨1⟩ []),
          [.applied ⟨4⟩ [], .applied ⟨4⟩ [], .applied ⟨4⟩ []])) ∧
      ∃ s, checkSupertypes (classWith ⟨4⟩ undecidableClass.1 undecidableClass.2) {}
          (comparing .classDecl undecidableClass.1 undecidableClass.2) (some ⟨6⟩) = .ok s ∧
        placedCodes s.diagnostics = [(some ⟨0⟩, 3104), (some ⟨2⟩, 3104), (some ⟨4⟩, 3104)] ∧
        s.model.supertypesLeft ⟨4⟩ = some ([comparable (.applied ⟨4⟩ [])], some (.applied ⟨1⟩ []),
          [twiceComparable, twiceComparable, twiceComparable]) := by
  constructor
  · obtain ⟨s, hs, hcircular, -⟩ := checkSupertypes_verdicts (classWith ⟨4⟩ circularClass.1 circularClass.2) {}
      (comparing .classDecl circularClass.1 circularClass.2) ⟨6⟩ _ ⟨4⟩ _ rfl rfl rfl rfl
    obtain ⟨hreports, hmodel⟩ := hcircular ⟨_, List.mem_cons_self, by decide +kernel⟩
    refine ⟨s, hs, ?_, ?_⟩
    · rw [hreports]
      decide +kernel
    · rw [hmodel]
      decide +kernel
  · obtain ⟨s, hs, -, hundecidable⟩ := checkSupertypes_verdicts
      (classWith ⟨4⟩ undecidableClass.1 undecidableClass.2) {}
      (comparing .classDecl undecidableClass.1 undecidableClass.2) ⟨6⟩ _ ⟨4⟩ _ rfl rfl rfl rfl
    obtain ⟨hreports, hmodel⟩ := hundecidable (by decide +kernel)
    refine ⟨s, hs, ?_, ?_⟩
    · rw [hreports]
      decide +kernel
    · rw [hmodel]
      decide +kernel

end

end SemCheck
