import Mathlib.Data.List.Count
import SemCheck.Proofs.Repair.Pruning

/-!
# What a check leaves of the supertypes

A check takes supertypes out of a declaration and may put the basic type in the place of its extended type.

* If no supertype leads back through declarations alone, every supertype that is left makes subtyping decidable
  (`checkSupertypes_decidable`). If one does, the others are not looked at, and an undecidable one stays.
* The basic type leads back to the declaration exactly if the basic class did so before (`checkSupertypes_reset`), as it
  does to the root class and to itself.
-/

namespace SemCheck

open Decidability

variable {a : Arena} {m : Model} {n : NodeId} {kind : NodeKind NodeId} {d : DeclId} {decl : Declaration}
  {options : Options} {s : CheckState}

/-! ## The basic type -/

namespace Model

/-- Parameters are passed over in a position that is not contravariant. -/
theorem scanVarianceArgs_params (m : Model) {polarity : Variance} (hpolarity : polarity ≠ .contravariant) (e : DeclId)
    (ps qs : List DeclId) (found : List DeclId) (g : Guard Ty) :
    m.scanVarianceArgs polarity e ps (qs.map .param) found g = (found, g) := by
  induction qs generalizing ps with
  | nil => cases ps <;> rfl
  | cons q qs ih =>
    cases ps with
    | nil => rfl
    | cons p ps =>
      rw [List.map_cons, scanVarianceArgs, if_neg fun h => hpolarity h.1]
      exact ih ps

/-- A declaration applied to parameters has no offenders in it. -/
theorem contravariantOffenders_applied_params (m : Model) (d : DeclId) (ps : List DeclId) :
    m.contravariantOffenders (.applied d (ps.map .param)) = [] := by
  have hcovariant : Variance.covariant ≠ .contravariant := by decide
  rw [contravariantOffenders, contravariantScan, scanVariance]
  cases m.get? d with
  | none => rfl
  | some decl =>
    simp only [Guard.scope]
    rcases (Guard.ofProfile Profile.typeArgumentScan).enter (Ty.applied d (ps.map .param)) with ⟨_ | _, g⟩
    · simp only [scanVarianceArgs_params m hcovariant]
    all_goals rfl

/-- The own type of a declaration that is no alias has nothing in it to be resolved. -/
theorem resolveAliases_typeOf {d : DeclId} (h : m.aliasTarget? d = none) : m.resolveAliases (m.typeOf d) = m.typeOf d := by
  rw [typeOf]
  cases m.get? d with
  | none => rfl
  | some decl =>
    dsimp only
    split
    · rfl
    · have hargs := Ty.rebuildAll_of_forall (f := id)
        (m.resolveNode (m.resolveWithin 127)) (s := .ofProfile .aliasResolution)
        (List.forall_mem_map.2 fun p (_ : p ∈ decl.typeParameters) => show _ = (Ty.param p, _) from rfl)
      rw [resolveAliases, resolveAliasesGuarded, Limits.aliasResolutionDepth, resolveWithin, Ty.rebuild, hargs]
      simp only [resolveNode, h, List.map_id]

/-- **The basic type makes subtyping decidable**, unless the basic class has been made an alias. -/
theorem contravariantOffenders_basicType (h : m.aliasTarget? m.basic = none) :
    m.contravariantOffenders (m.resolve m.basicType).1 = [] := by
  rw [resolve_fst, basicType, resolveAliases_typeOf h, typeOf]
  cases m.get? m.basic with
  | none => rfl
  | some decl =>
    dsimp only
    split
    · rfl
    · exact contravariantOffenders_applied_params m _ _

end Model

/-! ## Undecidable supertypes -/

/-- The clauses of a node list the supertypes that the model knows of a declaration. -/
structure Arena.Lists (a : Arena) (kind : NodeKind NodeId) (decl : Declaration) : Prop where
  satisfied : decl.satisfied.Perm (((a.supertypeClauses kind).filter (!·.isExtended)).map (·.ty))
  extended : decl.extended.toList = ((a.supertypeClauses kind).filter (·.isExtended)).map (·.ty)

/-- The types in the satisfies clause in any order, and the type in the extends clause. -/
theorem Arena.lists_iff : a.Lists kind decl ↔
    decl.satisfied.Perm (a.satisfiedTypesIn kind) ∧ decl.extended = a.extendedTypeIn kind := by
  rw [← a.map_ty_satisfied kind, ← toList_eq_map_ty_extended_iff]
  exact ⟨fun h => ⟨h.satisfied, h.extended⟩, fun h => ⟨h.1, h.2⟩⟩

/-- What is left of the satisfied types after all clauses with a type have been taken out is not of that type. -/
theorem not_mem_foldl_erase {ts : List Ty} {cs : List SupertypeClause} {p : SupertypeClause → Bool} {t : Ty}
    (hlists : ts.Perm (cs.map (·.ty))) (ht : ∀ c ∈ cs, c.ty = t → p c = true) :
    t ∉ (cs.filter p).foldl (fun ts c => ts.erase c.ty) ts := by
  have hfold : (cs.filter p).foldl (fun ts c => ts.erase c.ty) ts = ts.diff ((cs.filter p).map (·.ty)) := by
    rw [List.diff_eq_foldl, List.foldl_map]
  have hcount : ((cs.filter p).map (·.ty)).count t = ts.count t := by
    rw [hlists.count_eq, List.count_eq_countP, List.countP_map, List.countP_filter, List.count_eq_countP,
      List.countP_map]
    refine List.countP_congr fun c hc => ?_
    simp only [Function.comp, Bool.and_eq_true, beq_iff_eq, and_iff_left_iff_imp]
    exact ht c hc
  rw [hfold, ← List.count_eq_zero, List.count_diff, hcount, Nat.sub_self]

/-- A supertype that is left has not been taken out, or is the basic type. -/
theorem of_mem_repaired {basic t : Ty} {p : SupertypeClause → Bool} (hlists : a.Lists kind decl)
    (ht : t ∈ (decl.repaired basic ((a.supertypeClauses kind).filter p)).supertypes) :
    t = basic ∨ ∃ c ∈ a.supertypeClauses kind, c.ty = t ∧ p c = false := by
  rw [Declaration.supertypes, List.mem_append] at ht
  rcases ht with ht | ht
  · simp only [Declaration.repaired] at ht
    split at ht
    · exact Or.inl (List.mem_singleton.1 ht)
    · next hany =>
      rw [hlists.extended] at ht
      obtain ⟨c, hc, rfl⟩ := List.mem_map.1 ht
      obtain ⟨hc, hextended⟩ := List.mem_filter.1 hc
      refine Or.inr ⟨c, hc, rfl, Bool.eq_false_iff.2 fun hp => hany ?_⟩
      exact List.any_eq_true.2 ⟨c, List.mem_filter.2 ⟨hc, hp⟩, hextended⟩
  · have hleft : t ∈ (((a.supertypeClauses kind).filter (!·.isExtended)).filter p).foldl (fun ts c => ts.erase c.ty)
        decl.satisfied := by
      simpa only [Declaration.repaired, List.filter_filter, Bool.and_comm] using ht
    refine Or.inr (Classical.byContradiction fun hno => not_mem_foldl_erase hlists.satisfied (fun c hc heq => ?_) hleft)
    exact Bool.of_not_eq_false fun hp => hno ⟨c, (List.mem_filter.1 hc).1, heq, hp⟩

/-- **A check that finds no circularity leaves decidable supertypes**: what it leaves of the supertypes that a node lists
makes subtyping decidable, except for the basic type if the basic class has been made an alias. -/
theorem checkSupertypes_decidable (hkind : a.kind? n = some kind) (hdeclaring : kind.isTypeDeclaring = true)
    (hdeclared : kind.declared? = some d) (hknown : m.get? d = some decl) (hlists : a.Lists kind decl)
    (hcheck : checkSupertypes a options m (some n) = .ok s)
    (hcircular : ∀ r ∈ s.diagnostics, r.2.code ≠ Message.circular.code) :
    ∃ after, s.model.get? d = some after ∧ ∀ t ∈ after.supertypes,
      s.model.contravariantOffenders (s.model.resolve t).1 = [] ∨
        t = s.model.basicType ∧ s.model.aliasTarget? s.model.basic ≠ none := by
  rw [checkSupertypes_eq options hkind hdeclaring hdeclared hknown] at hcheck
  cases hempty : (circularOf m d (a.supertypeClauses kind)).isEmpty with
  | false =>
    rw [hempty] at hcheck
    obtain rfl := Except.ok.inj hcheck
    obtain ⟨c, hc⟩ := List.isEmpty_eq_false_iff_exists_mem.1 hempty
    exact absurd rfl (hcircular _ (List.mem_map_of_mem hc))
  | true =>
    rw [hempty] at hcheck
    obtain rfl := Except.ok.inj hcheck
    have halike := Model.alike_repaired m.basicType
      (brokenOf a m d (m.isInPackages d options.exemptPackages) (a.supertypeClauses kind))
    refine ⟨_, Model.get?_repairAll_self hknown _, fun t ht => ?_⟩
    simp only [if_true, Model.repairAll, Model.contravariantOffenders_modify m d halike,
      Model.resolve_modify m d halike, Model.basicType_modify m d halike, Model.aliasTarget?_modify m d halike]
    rcases of_mem_repaired hlists ht with rfl | ⟨c, -, rfl, hkept⟩
    · by_cases hbasic : m.aliasTarget? m.basic = none
      · exact Or.inl (Model.contravariantOffenders_basicType hbasic)
      · exact Or.inr ⟨rfl, hbasic⟩
    · have hvariance : varianceReports a m c = [] := by
        simpa using (Bool.or_eq_false_iff.1 hkept).1
      exact Or.inl (List.map_eq_nil_iff.1 hvariance)

/-! ### A type with a contravariant parameter -/

/-- An interface with its satisfies clause. -/
def satisfying (d : DeclId) (ts : List Ty) : Arena :=
  let (clause, a) := Arena.addSatisfiedTypes { fileName := "unit" } ts
  (a.add (.interfaceDecl d clause none)).2

/-- A class with its extends clause. -/
def extending (d : DeclId) (t : Ty) : Arena :=
  let (clause, a) := Arena.addExtendedType { fileName := "unit" } t []
  (a.add (.classDecl d [] clause none none)).2

/-- `interface C satisfies Comparable<Comparable<Anything>>, Comparable<C>`. -/
def unsoundFirst : List Ty := [twiceComparable, comparable (.applied ⟨4⟩ [])]

/-- Of the two supertypes the second is left. -/
theorem checkSupertypes_decidable_unsoundFirst :
    ∃ s after, checkSupertypes (satisfying ⟨4⟩ unsoundFirst) {} (comparing .interfaceDecl none unsoundFirst) (some ⟨3⟩) =
        .ok s ∧
      s.model.get? ⟨4⟩ = some after ∧ after.supertypes = [comparable (.applied ⟨4⟩ [])] ∧
        ∀ t ∈ after.supertypes, s.model.contravariantOffenders (s.model.resolve t).1 = [] ∨
          t = s.model.basicType ∧ s.model.aliasTarget? s.model.basic ≠ none := by
  have hcheck := checkSupertypes_eq (a := satisfying ⟨4⟩ unsoundFirst)
    (m := comparing .interfaceDecl none unsoundFirst) (n := ⟨3⟩) {} rfl rfl rfl rfl
  obtain ⟨after, hafter, hdecidable⟩ := checkSupertypes_decidable (a := satisfying ⟨4⟩ unsoundFirst)
    (m := comparing .interfaceDecl none unsoundFirst) rfl rfl rfl rfl ⟨.refl _, rfl⟩ hcheck (by decide +kernel)
  refine ⟨_, after, hcheck, hafter, Option.some.inj ?_, hdecidable⟩
  rw [← Option.map_some, ← hafter]
  decide +kernel

/-- `interface C satisfies C, Comparable<Comparable<Anything>>`. -/
def circularFirst : List Ty := [.applied ⟨4⟩ [], twiceComparable]

/-- `class C extends Comparable<Comparable<Anything>>`, where the basic class is an alias of that type. -/
def aliasedBasic : Model :=
  (comparing .classDecl (some twiceComparable) []).modify ⟨1⟩ fun decl =>
    { decl with kind := .typeAlias, aliasTarget := some twiceComparable }

/-- A check of a node that lists the supertypes of a declaration leaves an undecidable one. -/
def LeavesUndecidable (a : Arena) (m : Model) (n : NodeId) (d : DeclId) : Prop :=
  ∃ kind decl s after, a.kind? n = some kind ∧ kind.declared? = some d ∧ m.get? d = some decl ∧ a.Lists kind decl ∧
    checkSupertypes a {} m (some n) = .ok s ∧ s.model.get? d = some after ∧
      ∃ t ∈ after.supertypes, s.model.contravariantOffenders (s.model.resolve t).1 ≠ []

/-- Past a circular supertype an undecidable one stays, and so does a basic type that stands for one. -/
theorem leavesUndecidable_circularFirst :
    LeavesUndecidable (satisfying ⟨4⟩ circularFirst) (comparing .interfaceDecl none circularFirst) ⟨3⟩ ⟨4⟩ ∧
      LeavesUndecidable (extending ⟨4⟩ twiceComparable) aliasedBasic ⟨2⟩ ⟨4⟩ := by
  constructor
  · have hcheck := checkSupertypes_eq (a := satisfying ⟨4⟩ circularFirst)
      (m := comparing .interfaceDecl none circularFirst) (n := ⟨3⟩) {} rfl rfl rfl rfl
    refine ⟨_, _, _, _, rfl, rfl, rfl, ⟨.refl _, rfl⟩, hcheck, rfl, twiceComparable, ?_, ?_⟩
    · decide +kernel
    · decide +kernel
  · have hcheck := checkSupertypes_eq (a := extending ⟨4⟩ twiceComparable) (m := aliasedBasic) (n := ⟨2⟩) {}
      rfl rfl rfl rfl
    refine ⟨_, _, _, _, rfl, rfl, rfl, ⟨.refl _, rfl⟩, hcheck, rfl, .applied ⟨1⟩ [], ?_, ?_⟩
    · decide +kernel
    · decide +kernel

/-! ## The basic type in place of an extended type -/

/-- A check changes one declaration only, by repairing some of the supertypes that are written in the node. -/
theorem exists_repairAll (hkind : a.kind? n = some kind) (hdeclaring : kind.isTypeDeclaring = true)
    (hdeclared : kind.declared? = some d) (hknown : m.get? d = some decl)
    (hcheck : checkSupertypes a options m (some n) = .ok s) :
    ∃ cs, cs ⊆ a.supertypeClauses kind ∧ s.model = m.repairAll d cs := by
  rw [checkSupertypes_eq options hkind hdeclaring hdeclared hknown] at hcheck
  obtain rfl := Except.ok.inj hcheck
  split
  · exact ⟨_, fun c hc => (List.mem_filter.1 hc).1, rfl⟩
  · exact ⟨_, fun c hc => (List.mem_filter.1 hc).1, rfl⟩

/-- The basic type leads where the basic class does. -/
theorem exists_heads_basicType_iff (hknown : m.get? d = some decl) :
    (∃ e ∈ m.basicType.heads, m.RawReach e d) ↔ m.RawReach m.basic d := by
  constructor
  · rintro ⟨e, he, hreach⟩
    rwa [mem_heads_basicType he] at hreach
  · intro hreach
    refine ⟨m.basic, Ty.mem_heads_iff.2 ?_, hreach⟩
    cases hbasic : m.get? m.basic with
    | some basic =>
      rw [Model.basicType, Model.typeOf, hbasic]
      dsimp only
      split
      · exact ⟨_, List.mem_singleton_self _, rfl⟩
      · exact ⟨_, List.mem_singleton_self _, rfl⟩
    | none =>
      -- a class that the model does not know leads to itself only
      rcases Relation.ReflTransGen.cases_head hreach with heq | ⟨e, hstep, -⟩
      · rw [heq, hknown] at hbasic
        cases hbasic
      · obtain ⟨t, ht, -⟩ := Model.mem_rawSuccessors_iff.1 hstep
        rw [Model.supertypesOf, hbasic] at ht
        exact absurd ht List.not_mem_nil

/-- **The basic type leads back only from above**: once a check has put it in the place of the extended type of a
declaration, it leads back to the declaration exactly if the basic class did so before the check. -/
theorem checkSupertypes_reset (hkind : a.kind? n = some kind) (hdeclaring : kind.isTypeDeclaring = true)
    (hdeclared : kind.declared? = some d) (hknown : m.get? d = some decl)
    (hcheck : checkSupertypes a options m (some n) = .ok s) :
    ∃ after, s.model.get? d = some after ∧
      (after.extended ≠ decl.extended → after.extended = some s.model.basicType) ∧
        ((∃ e ∈ s.model.basicType.heads, s.model.RawReach e d) ↔ m.RawReach m.basic d) := by
  obtain ⟨cs, -, hmodel⟩ := exists_repairAll hkind hdeclaring hdeclared hknown hcheck
  rw [hmodel]
  have hself := Model.get?_repairAll_self hknown cs
  refine ⟨_, hself, fun hreplaced => ?_, ?_⟩
  · rw [Model.repairAll, Model.basicType_modify m d (Model.alike_repaired m.basicType cs)]
    simp only [Declaration.repaired] at hreplaced ⊢
    split
    · rfl
    · next hkept => exact absurd (if_neg hkept) hreplaced
  · have hothers : ∀ e, e ≠ d → (m.repairAll d cs).get? e = m.get? e := fun e he => Model.get?_modify_of_ne m d _ he
    rw [exists_heads_basicType_iff hself]
    exact ⟨Model.rawReach_of_others hothers, Model.rawReach_of_others fun e he => (hothers e he).symm⟩

/-- `class A extends d`, where the class `d` extends `A`. -/
def extendingInTurn (m : Model) (d : DeclId) : Model :=
  let inTurn : Declaration := { name := "A", kind := .classDecl, package := ⟨0⟩, extended := some (.applied d []) }
  (m.add inTurn).2.modify d fun decl => { decl with extended := some (.applied ⟨m.declarations.size⟩ []) }

/-- `class A extends C`, where the class `C` extends `A`. -/
def extendedInTurn : Model := extendingInTurn (comparing .classDecl none []) ⟨4⟩

/-- Of two classes that extend one another, one is left without the other. -/
theorem checkSupertypes_reset_inTurn :
    ∃ s after, checkSupertypes (extending ⟨4⟩ (.applied ⟨5⟩ [])) {} extendedInTurn (some ⟨2⟩) = .ok s ∧
      s.model.get? ⟨4⟩ = some after ∧ after.extended = some s.model.basicType ∧
        ¬ ∃ e ∈ s.model.basicType.heads, s.model.RawReach e ⟨4⟩ := by
  have hcheck := checkSupertypes_eq (a := extending ⟨4⟩ (.applied ⟨5⟩ [])) (m := extendedInTurn) (n := ⟨2⟩) {}
    rfl rfl rfl rfl
  obtain ⟨after, hafter, hreplaced, hreach⟩ := checkSupertypes_reset rfl rfl rfl rfl hcheck
  have hapart : ¬ extendedInTurn.RawReach extendedInTurn.basic ⟨4⟩ := fun hbasic =>
    Model.not_mem_of_rawRecursion_eq_nil (t := extendedInTurn.basicType) (by decide +kernel)
      (by decide +kernel : extendedInTurn.basic ∈ extendedInTurn.basicType.heads) hbasic (List.mem_singleton_self _)
  refine ⟨_, after, hcheck, hafter, hreplaced ?_, fun h => hapart (hreach.1 h)⟩
  intro hkept
  have hextended := congrArg (Option.map (·.extended)) hafter
  rw [Option.map_some, hkept] at hextended
  revert hextended
  decide +kernel

/-- A check replaces the extended type of a declaration by one that leads back to the declaration. -/
def ReplacesByCycle (a : Arena) (m : Model) (n : NodeId) (d : DeclId) : Prop :=
  ∃ kind decl s after, a.kind? n = some kind ∧ kind.declared? = some d ∧ m.get? d = some decl ∧
    checkSupertypes a {} m (some n) = .ok s ∧ s.model.get? d = some after ∧ after.extended ≠ decl.extended ∧
      ∃ t ∈ after.extended, ∃ e ∈ t.heads, s.model.RawReach e d

/-- The root class is left in a cycle, and so is the basic class. -/
theorem replacesByCycle_core :
    ReplacesByCycle (extending ⟨0⟩ (.applied ⟨2⟩ [])) (extendingInTurn (.new "lang") ⟨0⟩) ⟨2⟩ ⟨0⟩ ∧
      ReplacesByCycle (extending ⟨1⟩ (.applied ⟨2⟩ [])) (extendingInTurn (.new "lang") ⟨1⟩) ⟨2⟩ ⟨1⟩ := by
  constructor
  · have hcheck := checkSupertypes_eq (a := extending ⟨0⟩ (.applied ⟨2⟩ []))
      (m := extendingInTurn (.new "lang") ⟨0⟩) (n := ⟨2⟩) {} rfl rfl rfl rfl
    refine ⟨_, _, _, _, rfl, rfl, rfl, hcheck, rfl, ?_, .applied ⟨1⟩ [], ?_, ⟨1⟩, List.mem_singleton_self _, .single ?_⟩
    · decide +kernel
    · decide +kernel
    · show _ ∈ Model.rawSuccessors _ _
      decide +kernel
  · have hcheck := checkSupertypes_eq (a := extending ⟨1⟩ (.applied ⟨2⟩ []))
      (m := extendingInTurn (.new "lang") ⟨1⟩) (n := ⟨2⟩) {} rfl rfl rfl rfl
    refine ⟨_, _, _, _, rfl, rfl, rfl, hcheck, rfl, ?_, .applied ⟨1⟩ [], ?_, ⟨1⟩, List.mem_singleton_self _, .refl⟩
    · decide +kernel
    · decide +kernel

end SemCheck
