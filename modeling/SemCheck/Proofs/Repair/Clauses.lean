import SemCheck.Decidability

/-!
# Supertypes as they are written

A node that declares a class, an interface or upper bounds has a satisfies clause, and one that declares a class has an
extends clause besides. What a check collects as the supertypes of a node is what stands in these clauses
(`Arena.mem_supertypeClauses_iff`), the satisfied types in the order in which they are written
(`Arena.map_ty_supertypeClauses`).
-/

namespace SemCheck

/-! ## The clauses of a node -/

namespace NodeKind

variable {γ : Type}

def satisfiesClause? : NodeKind γ → Option γ
  | classDecl _ _ _ satisfied _ | interfaceDecl _ satisfied _ | typeConstraint _ satisfied => satisfied
  | _ => none

def extendsClause? : NodeKind γ → Option γ
  | classDecl _ _ extended _ _ => extended
  | _ => none

end NodeKind

namespace Arena

variable {a : Arena} {kind : NodeKind NodeId} {slot : Option NodeId} {c : SupertypeClause} {n : NodeId} {t : Ty}

/-- The clause is a satisfies clause with the type node `n`, which is for `t`. -/
def Satisfies (a : Arena) (clause n : NodeId) (t : Ty) : Prop :=
  ∃ types, a.kind? clause = some (.satisfiedTypes types) ∧ some n ∈ types ∧ a.kind? n = some (.staticType t)

/-- The clause is an extends clause with the type node `n`, which is for `t`. -/
def Extends (a : Arena) (clause n : NodeId) (t : Ty) : Prop :=
  ∃ arguments, a.kind? clause = some (.extendedType (some n) arguments) ∧ a.kind? n = some (.staticType t)

/-- The types in the satisfies clause of a node, in order. -/
def satisfiedTypesIn (a : Arena) (kind : NodeKind NodeId) : List Ty :=
  match kind.satisfiesClause?.bind a.kind? with
  | some (.satisfiedTypes types) => types.filterMap (·.bind a.staticType?)
  | _ => []

/-- The type in the extends clause of a node. -/
def extendedTypeIn (a : Arena) (kind : NodeKind NodeId) : Option Ty :=
  match kind.extendsClause?.bind a.kind? with
  | some (.extendedType slot _) => slot.bind a.staticType?
  | _ => none

theorem supertypeClauses_eq (a : Arena) (kind : NodeKind NodeId) :
    a.supertypeClauses kind = a.satisfiedClauses kind.satisfiesClause? ++ a.extendedClause kind.extendsClause? := by
  cases kind <;> first | rfl | exact (List.append_nil _).symm

theorem staticType?_eq_some_iff : a.staticType? n = some t ↔ a.kind? n = some (.staticType t) := by
  rw [staticType?]
  split
  · next t' hkind => rw [hkind, Option.some.injEq, Option.some.injEq, NodeKind.staticType.injEq]
  · next hother => exact ⟨nofun, fun hkind => absurd hkind (hother t)⟩

/-! ## What is collected -/

theorem mem_satisfiedClauses_iff :
    c ∈ a.satisfiedClauses slot ↔ c.isExtended = false ∧ slot = some c.clause ∧ a.Satisfies c.clause c.node c.ty := by
  cases slot with
  | none => exact ⟨nofun, fun h => absurd h.2.1 nofun⟩
  | some clause =>
    rw [satisfiedClauses]
    constructor
    · intro hc
      split at hc
      · next types hkind =>
        obtain ⟨n, hn, hc⟩ := List.mem_filterMap.1 hc
        obtain ⟨t, ht, rfl⟩ := Option.map_eq_some_iff.1 hc
        obtain ⟨slot, hslot, rfl⟩ := List.mem_filterMap.1 hn
        exact ⟨rfl, rfl, types, hkind, hslot, staticType?_eq_some_iff.1 ht⟩
      · exact absurd hc List.not_mem_nil
    · rintro ⟨hextended, hclause, types, hkind, hn, ht⟩
      obtain rfl := Option.some.inj hclause
      simp only [hkind]
      refine List.mem_filterMap.2 ⟨c.node, List.mem_filterMap.2 ⟨_, hn, rfl⟩, ?_⟩
      rw [staticType?_eq_some_iff.2 ht, Option.map_some, ← hextended]

theorem mem_extendedClause_iff :
    c ∈ a.extendedClause slot ↔ c.isExtended = true ∧ slot = some c.clause ∧ a.Extends c.clause c.node c.ty := by
  cases slot with
  | none => exact ⟨nofun, fun h => absurd h.2.1 nofun⟩
  | some clause =>
    rw [extendedClause]
    constructor
    · intro hc
      split at hc
      · next n arguments hkind =>
        obtain ⟨t, ht, rfl⟩ := Option.map_eq_some_iff.1 (Option.mem_toList.1 hc)
        exact ⟨rfl, rfl, arguments, hkind, staticType?_eq_some_iff.1 ht⟩
      · exact absurd hc List.not_mem_nil
    · rintro ⟨hextended, hclause, arguments, hkind, ht⟩
      obtain rfl := Option.some.inj hclause
      simp only [hkind]
      rw [Option.mem_toList, staticType?_eq_some_iff.2 ht, Option.map_some, ← hextended]

/-- **The supertypes of a node are those in its clauses**, each with its clause, its node and its type. -/
theorem mem_supertypeClauses_iff : c ∈ a.supertypeClauses kind ↔
    c.isExtended = false ∧ kind.satisfiesClause? = some c.clause ∧ a.Satisfies c.clause c.node c.ty ∨
      c.isExtended = true ∧ kind.extendsClause? = some c.clause ∧ a.Extends c.clause c.node c.ty := by
  rw [supertypeClauses_eq, List.mem_append, mem_satisfiedClauses_iff, mem_extendedClause_iff]

theorem map_ty_satisfiedClauses (a : Arena) (kind : NodeKind NodeId) :
    (a.satisfiedClauses kind.satisfiesClause?).map (·.ty) = a.satisfiedTypesIn kind := by
  rw [satisfiedTypesIn]
  cases kind.satisfiesClause? with
  | none => rfl
  | some clause =>
    rw [satisfiedClauses, Option.bind_some]
    cases a.kind? clause with
    | none => rfl
    | some clauseKind =>
      cases clauseKind with
      | satisfiedTypes types =>
        simp only [List.filterMap_filterMap, List.map_filterMap]
        refine congrArg (types.filterMap ·) (funext fun slot => ?_)
        cases slot with
        | none => rfl
        | some n =>
          show ((a.staticType? n).map _).map _ = a.staticType? n
          cases a.staticType? n <;> rfl
      | _ => rfl

theorem map_ty_extendedClause (a : Arena) (kind : NodeKind NodeId) :
    (a.extendedClause kind.extendsClause?).map (·.ty) = (a.extendedTypeIn kind).toList := by
  rw [extendedTypeIn]
  cases kind.extendsClause? with
  | none => rfl
  | some clause =>
    rw [extendedClause, Option.bind_some]
    cases a.kind? clause with
    | none => rfl
    | some clauseKind =>
      cases clauseKind with
      | extendedType slot arguments =>
        cases slot with
        | none => rfl
        | some n =>
          simp only [Option.bind_some]
          cases a.staticType? n <;> rfl
      | _ => rfl

theorem filter_supertypeClauses (a : Arena) (kind : NodeKind NodeId) :
    (a.supertypeClauses kind).filter (!·.isExtended) = a.satisfiedClauses kind.satisfiesClause? ∧
      (a.supertypeClauses kind).filter (·.isExtended) = a.extendedClause kind.extendsClause? := by
  have hsatisfied (c : SupertypeClause) (hc : c ∈ a.satisfiedClauses kind.satisfiesClause?) : c.isExtended = false :=
    (mem_satisfiedClauses_iff.1 hc).1
  have hextended (c : SupertypeClause) (hc : c ∈ a.extendedClause kind.extendsClause?) : c.isExtended = true :=
    (mem_extendedClause_iff.1 hc).1
  rw [supertypeClauses_eq, List.filter_append, List.filter_append]
  constructor
  · rw [List.filter_eq_self.2 fun c hc => by rw [hsatisfied c hc]; rfl,
      List.filter_eq_nil_iff.2 fun c hc => by rw [hextended c hc]; decide, List.append_nil]
  · rw [List.filter_eq_nil_iff.2 fun c hc => by rw [hsatisfied c hc]; decide,
      List.filter_eq_self.2 fun c hc => hextended c hc, List.nil_append]

/-- The satisfied types among the supertypes are those of the satisfies clause, in order. -/
theorem map_ty_satisfied (a : Arena) (kind : NodeKind NodeId) :
    ((a.supertypeClauses kind).filter (!·.isExtended)).map (·.ty) = a.satisfiedTypesIn kind := by
  rw [(a.filter_supertypeClauses kind).1, map_ty_satisfiedClauses]

/-- The extended type among the supertypes is that of the extends clause. -/
theorem map_ty_extended (a : Arena) (kind : NodeKind NodeId) :
    ((a.supertypeClauses kind).filter (·.isExtended)).map (·.ty) = (a.extendedTypeIn kind).toList := by
  rw [(a.filter_supertypeClauses kind).2, map_ty_extendedClause]

theorem toList_eq_map_ty_extended_iff {extended : Option Ty} :
    extended.toList = ((a.supertypeClauses kind).filter (·.isExtended)).map (·.ty) ↔
      extended = a.extendedTypeIn kind := by
  rw [map_ty_extended]
  constructor
  · intro h
    apply Option.ext
    intro t
    exact Option.mem_toList.symm.trans (h ▸ Option.mem_toList)
  · exact congrArg Option.toList

/-- **The satisfied types come first, in order, then the extended type**. -/
theorem map_ty_supertypeClauses (a : Arena) (kind : NodeKind NodeId) :
    (a.supertypeClauses kind).map (·.ty) = a.satisfiedTypesIn kind ++ (a.extendedTypeIn kind).toList := by
  rw [supertypeClauses_eq, List.map_append, map_ty_satisfiedClauses, map_ty_extendedClause]

end Arena

end SemCheck
