import SemCheck.Proofs.Recursion.Raw
import SemCheck.Proofs.Repair.Clauses
import SemCheck.Proofs.Repair.Verdicts

/-!
# What a check takes out of the raw supertype graph

A check of one declaration changes the steps from that declaration only, and to declarations that do not lead back to it
or to the basic class only (`Prunes`). Where the basic class does not lead to the declaration, it is off every cycle
afterwards (`Prunes.offCycles`), and what was off every cycle before stays so (`Prunes.offCycles_of_ne`).

`checkSupertypes_prunes` says this of `checkSupertypes`, provided that the clauses of the node are all that the model
knows of the supertypes of the declaration (`Arena.Mirrors`, and `Arena.mirrors_iff` for the clauses as written).
-/

namespace SemCheck

namespace Model

/-- No head of a supertype of `d` leads back to `d`. -/
def OffCycles (m : Model) (d : DeclId) : Prop := ∀ e ∈ m.rawSuccessors d, ¬ m.RawReach e d

/-- `m'` is `m` with steps from `d` taken out that lead back to `d`, and with the basic class perhaps put in. -/
structure Prunes (m m' : Model) (d : DeclId) : Prop where
  basic : m'.basic = m.basic
  others : ∀ e, e ≠ d → m'.get? e = m.get? e
  successors : ∀ e ∈ m'.rawSuccessors d, e = m.basic ∨ e ∈ m.rawSuccessors d ∧ ¬ m.RawReach e d

/-! ## Reachability after a pruning -/

section

variable {m m' : Model} {d : DeclId}

theorem rawSuccessors_eq_of_get? {e : DeclId} (h : m'.get? e = m.get? e) :
    m'.rawSuccessors e = m.rawSuccessors e := by
  rw [rawSuccessors, supertypesOf, h, ← supertypesOf, ← rawSuccessors]

/-- A way to `d` can be taken up to its first visit of `d`, where it is as in a model that differs in `d` alone. -/
theorem rawReach_of_others (h : ∀ e, e ≠ d → m'.get? e = m.get? e) {e : DeclId} (hreach : m'.RawReach e d) :
    m.RawReach e d := by
  induction hreach using Relation.ReflTransGen.head_induction_on with
  | refl => exact .refl
  | @head x y hstep _ ih =>
    by_cases hx : x = d
    · rw [hx]
      exact .refl
    · refine .head ?_ ih
      show y ∈ m.rawSuccessors x
      rw [← rawSuccessors_eq_of_get? (h x hx)]
      exact hstep

/-- The basic class leads nowhere that it did not lead before. -/
theorem Prunes.rawReach_basic (h : m.Prunes m' d) (hbasic : ¬ m.RawReach m.basic d) {e : DeclId}
    (hreach : m'.RawReach m.basic e) : m.RawReach m.basic e := by
  induction hreach with
  | refl => exact .refl
  | @tail x y _ hstep ih =>
    have hx : x ≠ d := fun hx => hbasic (hx ▸ ih)
    refine ih.tail ?_
    show y ∈ m.rawSuccessors x
    rw [← rawSuccessors_eq_of_get? (h.others x hx)]
    exact hstep

/-- A way to a declaration that the basic class does not lead to was there before. -/
theorem Prunes.rawReach_of_ne (h : m.Prunes m' d) {c : DeclId} (hbasic : ¬ m'.RawReach m.basic c) {e : DeclId}
    (hreach : m'.RawReach e c) : m.RawReach e c := by
  induction hreach using Relation.ReflTransGen.head_induction_on with
  | refl => exact .refl
  | @head x y hstep hrest ih =>
    refine .head ?_ ih
    show y ∈ m.rawSuccessors x
    by_cases hx : x = d
    · subst hx
      rcases h.successors y hstep with rfl | ⟨hy, -⟩
      · exact absurd hrest hbasic
      · exact hy
    · rw [← rawSuccessors_eq_of_get? (h.others x hx)]
      exact hstep

/-- **The declaration is off every cycle**. -/
theorem Prunes.offCycles (h : m.Prunes m' d) (hbasic : ¬ m.RawReach m.basic d) : m'.OffCycles d := by
  intro e he hreach
  have hbefore := rawReach_of_others h.others hreach
  rcases h.successors e he with rfl | ⟨-, hnot⟩
  · exact hbasic hbefore
  · exact hnot hbefore

/-- **Another declaration that was off every cycle stays so**. -/
theorem Prunes.offCycles_of_ne (h : m.Prunes m' d) (hbasic : ¬ m.RawReach m.basic d) {c : DeclId} (hne : c ≠ d)
    (hbasic' : ¬ m.RawReach m.basic c) (hoff : m.OffCycles c) : m'.OffCycles c := by
  intro e he hreach
  have hnot : ¬ m'.RawReach m.basic c := fun hc => hbasic' (h.rawReach_basic hbasic hc)
  rw [rawSuccessors_eq_of_get? (h.others c hne)] at he
  exact hoff e he (h.rawReach_of_ne hnot hreach)

end

end Model

/-! ## What a repair leaves -/

section

variable {α : Type} [DecidableEq α]

theorem foldl_erase_cons {a : α} {xs l : List α} (h : a ∉ xs) :
    xs.foldl List.erase (a :: l) = a :: xs.foldl List.erase l := by
  induction xs generalizing l with
  | nil => rfl
  | cons x xs ih =>
    rw [List.mem_cons, not_or] at h
    rw [List.foldl_cons, List.erase_cons_tail (by simpa using h.1), ih h.2, List.foldl_cons]

/-- Erasing every item of a kind, one after the other, leaves the others. -/
theorem foldl_erase_filter (p : α → Bool) (l : List α) : (l.filter p).foldl List.erase l = l.filter (!p ·) := by
  induction l with
  | nil => rfl
  | cons a l ih =>
    cases hp : p a with
    | true =>
      rw [List.filter_cons_of_pos hp, List.foldl_cons, List.erase_cons_head, ih,
        List.filter_cons_of_neg (by simp [hp])]
    | false =>
      have hnot : a ∉ l.filter p := fun hmem => by simp [hp] at hmem
      rw [List.filter_cons_of_neg (by simp [hp]), foldl_erase_cons hnot, ih,
        List.filter_cons_of_pos (by simp [hp])]

theorem foldl_erase_subset (xs l : List α) : xs.foldl List.erase l ⊆ l := by
  induction xs generalizing l with
  | nil => exact fun _ h => h
  | cons x xs ih => exact fun a ha => List.mem_of_mem_erase (ih (l.erase x) ha)

end

/-! ## Clauses and supertypes -/

/-- The kind of declaration that a node which declares a type belongs to. -/
def NodeKind.declKind? {γ : Type} : NodeKind γ → Option DeclKind
  | classDecl .. => some .classDecl
  | interfaceDecl .. => some .interfaceDecl
  | typeConstraint .. => some .typeParameter
  | _ => none

/-- The clauses of a node are what the model knows of the supertypes of a declaration: the satisfied types in order,
and the extended type, which is unset without a clause. -/
structure Arena.Mirrors (a : Arena) (kind : NodeKind NodeId) (decl : Declaration) : Prop where
  declKind : kind.declKind? = some decl.kind
  satisfied : decl.satisfied = ((a.supertypeClauses kind).filter (!·.isExtended)).map (·.ty)
  extended : decl.extended.toList = ((a.supertypeClauses kind).filter (·.isExtended)).map (·.ty)

section

open Decidability

variable {a : Arena} {m : Model} {kind : NodeKind NodeId} {d : DeclId} {decl : Declaration}

/-- The types in the satisfies clause in order, and the type in the extends clause. -/
theorem Arena.mirrors_iff : a.Mirrors kind decl ↔ kind.declKind? = some decl.kind ∧
    decl.satisfied = a.satisfiedTypesIn kind ∧ decl.extended = a.extendedTypeIn kind := by
  rw [← a.map_ty_satisfied kind, ← toList_eq_map_ty_extended_iff]
  exact ⟨fun h => ⟨h.declKind, h.satisfied, h.extended⟩, fun h => ⟨h.1, h.2.1, h.2.2⟩⟩

theorem Arena.Mirrors.kind_ne_typeAlias (h : a.Mirrors kind decl) : decl.kind ≠ .typeAlias := by
  intro halias
  have hkind := h.declKind
  rw [halias] at hkind
  cases kind <;> simp [NodeKind.declKind?] at hkind

theorem Arena.Mirrors.exists_clause (h : a.Mirrors kind decl) {t : Ty} (ht : t ∈ decl.supertypes) :
    ∃ c ∈ a.supertypeClauses kind, c.ty = t := by
  rw [Declaration.supertypes, h.extended, h.satisfied, List.mem_append] at ht
  rcases ht with ht | ht
  · obtain ⟨c, hc, rfl⟩ := List.mem_map.1 ht
    exact ⟨c, (List.mem_filter.1 hc).1, rfl⟩
  · obtain ⟨c, hc, rfl⟩ := List.mem_map.1 ht
    exact ⟨c, (List.mem_filter.1 hc).1, rfl⟩

/-- What is left after a repair was there before, except for the basic type. -/
theorem mem_supertypes_of_mem_repaired {basic t : Ty} {cs : List SupertypeClause}
    (ht : t ∈ (decl.repaired basic cs).supertypes) : t = basic ∨ t ∈ decl.supertypes := by
  rw [Declaration.supertypes, List.mem_append] at ht
  rcases ht with ht | ht
  · simp only [Declaration.repaired] at ht
    split at ht
    · exact Or.inl (List.mem_singleton.1 ht)
    · exact Or.inr (List.mem_append_left _ ht)
  · have hfold : (decl.repaired basic cs).satisfied =
        ((cs.filter (!·.isExtended)).map (·.ty)).foldl List.erase decl.satisfied := by
      rw [List.foldl_map]
      rfl
    rw [hfold] at ht
    exact Or.inr (List.mem_append_right _ (foldl_erase_subset _ _ ht))

/-- No circular supertype is left after the circular ones have been repaired. -/
theorem rawRecursion_eq_nil_of_mem_repaired (h : a.Mirrors kind decl) {t : Ty}
    (ht : t ∈ (decl.repaired m.basicType (circularOf m d (a.supertypeClauses kind))).supertypes) :
    t = m.basicType ∨ m.rawRecursion [d] t = [] := by
  rw [Declaration.supertypes, List.mem_append] at ht
  rcases ht with ht | ht
  · simp only [Declaration.repaired] at ht
    split at ht
    · exact Or.inl (List.mem_singleton.1 ht)
    · next hany =>
      rw [h.extended] at ht
      obtain ⟨c, hc, rfl⟩ := List.mem_map.1 ht
      obtain ⟨hc, hextended⟩ := List.mem_filter.1 hc
      refine Or.inr (Decidable.byContradiction fun hpath => hany ?_)
      refine List.any_eq_true.2 ⟨c, List.mem_filter.2 ⟨hc, decide_eq_true hpath⟩, hextended⟩
  · have hfold : (decl.repaired m.basicType (circularOf m d (a.supertypeClauses kind))).satisfied =
        (decl.satisfied.filter fun t => m.rawRecursion [d] t ≠ []).foldl List.erase decl.satisfied := by
      rw [h.satisfied, List.filter_map, List.foldl_map, List.filter_filter]
      simp only [Declaration.repaired, circularOf, List.filter_filter, h.satisfied, Function.comp, Bool.and_comm]
    rw [hfold, foldl_erase_filter] at ht
    have hnot := (List.mem_filter.1 ht).2
    exact Or.inr (by simpa using hnot)

/-! ## The check -/

theorem mem_heads_basicType {e : DeclId} (h : e ∈ m.basicType.heads) : e = m.basic := by
  obtain ⟨u, hu, hhead⟩ := Ty.mem_heads_iff.1 h
  rw [Model.basicType, Model.typeOf] at hu
  split at hu
  · split at hu
    · obtain rfl := List.mem_singleton.1 hu
      exact (Option.some.inj hhead).symm
    · obtain rfl := List.mem_singleton.1 hu
      exact (Option.some.inj hhead).symm
  · exact absurd hu List.not_mem_nil

theorem supertypesOf_eq (hknown : m.get? d = some decl) (hkind : decl.kind ≠ .typeAlias) :
    m.supertypesOf d = decl.supertypes := by
  rw [Model.supertypesOf, hknown]
  exact if_neg hkind

theorem prunes_repairAll (hknown : m.get? d = some decl) (hmirrors : a.Mirrors kind decl) {cs : List SupertypeClause}
    (hleft : ∀ t ∈ (decl.repaired m.basicType cs).supertypes, t = m.basicType ∨ m.rawRecursion [d] t = []) :
    m.Prunes (m.repairAll d cs) d := by
  constructor
  case basic => rfl
  case others => exact fun e he => Model.get?_modify_of_ne m d _ he
  intro e he
  obtain ⟨t, ht, he⟩ := Model.mem_rawSuccessors_iff.1 he
  rw [supertypesOf_eq (Model.get?_repairAll_self hknown cs) hmirrors.kind_ne_typeAlias] at ht
  rcases mem_supertypes_of_mem_repaired ht with rfl | hold
  · exact Or.inl (mem_heads_basicType he)
  rcases hleft t ht with rfl | hnil
  · exact Or.inl (mem_heads_basicType he)
  refine Or.inr ⟨?_, ?_⟩
  · rw [Model.mem_rawSuccessors_iff, supertypesOf_eq hknown hmirrors.kind_ne_typeAlias]
    exact ⟨t, hold, he⟩
  · intro hreach
    exact Model.not_mem_of_rawRecursion_eq_nil hnil he hreach (List.mem_singleton_self d)

/-- **A check prunes the raw supertype graph**. -/
theorem checkSupertypes_prunes {options : Options} {n : NodeId} {s : CheckState} (hkind : a.kind? n = some kind)
    (hdeclaring : kind.isTypeDeclaring = true) (hdeclared : kind.declared? = some d) (hknown : m.get? d = some decl)
    (hmirrors : a.Mirrors kind decl) (hcheck : checkSupertypes a options m (some n) = .ok s) :
    m.Prunes s.model d := by
  rw [checkSupertypes_eq options hkind hdeclaring hdeclared hknown] at hcheck
  obtain rfl := Except.ok.inj hcheck
  cases hempty : (circularOf m d (a.supertypeClauses kind)).isEmpty with
  | false => exact prunes_repairAll hknown hmirrors fun t ht => rawRecursion_eq_nil_of_mem_repaired hmirrors ht
  | true =>
    apply prunes_repairAll hknown hmirrors
    intro t ht
    apply (mem_supertypes_of_mem_repaired ht).imp_right
    intro hold
    obtain ⟨c, hc, rfl⟩ := hmirrors.exists_clause hold
    have hnone := List.filter_eq_nil_iff.1 (List.isEmpty_iff.1 hempty) c hc
    simpa using hnone

/-! ## Declarations that the model does not know -/

theorem repair_unknown (hunknown : m.get? d = none) (c : SupertypeClause) :
    m.repair d c = .error (.unknownDeclaration d) := by
  have hget : m.get d = .error (.unknownDeclaration d) := by rw [Model.get, hunknown]
  cases hextended : c.isExtended with
  | true =>
    rw [Model.repair, hextended, if_pos rfl, Model.resetExtended, hget]
    rfl
  | false =>
    rw [Model.repair, hextended, if_neg Bool.false_ne_true, Model.removeSatisfied, hget]
    rfl

theorem rawPass_unknown {cs : List SupertypeClause} {s : CheckState} (hunknown : s.model.get? d = none) :
    rawPass a d cs s = .ok (false, s) ∨ rawPass a d cs s = .error (.unknownDeclaration d) := by
  induction cs with
  | nil => exact Or.inl rfl
  | cons c cs ih =>
    rw [rawPass]
    split
    · exact ih
    · rw [repair_unknown hunknown]
      exact Or.inr rfl

/-- The check of a declaration that the model does not know changes nothing, or fails as it cannot repair. -/
def Spares (d : DeclId) (m : Model) (r : Except ModelError CheckState) : Prop :=
  (∃ s, r = .ok s ∧ s.model = m) ∨ r = .error (.unknownDeclaration d)

theorem checkClause_spares {exempt : Bool} {s : CheckState} (hunknown : s.model.get? d = none) (c : SupertypeClause) :
    Spares d s.model (checkClause a d exempt s c) := by
  rw [checkClause]
  split
  · rw [repair_unknown hunknown]
    exact Or.inr rfl
  · exact Or.inl ⟨_, rfl, rfl⟩

theorem foldlM_checkClause_spares {exempt : Bool} {cs : List SupertypeClause} {s : CheckState}
    (hunknown : s.model.get? d = none) : Spares d s.model (cs.foldlM (checkClause a d exempt) s) := by
  induction cs generalizing s with
  | nil => exact Or.inl ⟨s, rfl, rfl⟩
  | cons c cs ih =>
    rw [List.foldlM_cons]
    rcases @checkClause_spares a d exempt s hunknown c with ⟨s₁, hclause, hmodel⟩ | hclause
    · rw [hclause, ← hmodel]
      exact ih (hmodel ▸ hunknown)
    · rw [hclause]
      exact Or.inr rfl

theorem Spares.model_eq {s : CheckState} (h : Spares d m (.ok s)) : s.model = m := by
  obtain ⟨s', hs, hmodel⟩ | h := h
  · exact Except.ok.inj hs ▸ hmodel
  · exact absurd h nofun

theorem Spares.error_eq {e : ModelError} (h : Spares d m (.error e)) : e = .unknownDeclaration d := by
  obtain ⟨s, hs, -⟩ | h := h
  · exact absurd hs nofun
  · exact Except.error.inj h

/-- The supertypes of a declaration that the model does not know cannot be repaired. -/
theorem checkSupertypes_spares (options : Options) {n : NodeId} (hkind : a.kind? n = some kind)
    (hdeclaring : kind.isTypeDeclaring = true) (hdeclared : kind.declared? = some d) (hunknown : m.get? d = none) :
    Spares d m (checkSupertypes a options m (some n)) := by
  simp only [checkSupertypes, Option.bind_eq_bind, Option.bind_some, hkind, hdeclaring, if_true, hdeclared]
  rcases @rawPass_unknown a d (a.supertypeClauses kind) { model := m } hunknown with hpass | hpass
  · rw [hpass]
    exact @foldlM_checkClause_spares a d _ _ { model := m } hunknown
  · rw [hpass]
    exact Or.inr rfl

end

end SemCheck
