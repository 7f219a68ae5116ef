import SemCheck.Model.Build
import SemCheck.Model.Render
import SemCheck.Model.Resolve
import SemCheck.Occurrence.SelfType
import SemCheck.Occurrence.Variance
import SemCheck.Recursion.Full
import SemCheck.Recursion.Raw

/-!
# What a repair does not change

A repair changes nothing but the supertypes of one declaration, and most queries do not read supertypes: names, type
parameters, aliases and the scans for self types and variance do not see the change. The two walks for
recursion do read them, but they stop at a declaration that is being defined and never expand it, so they do not see a
change to that declaration either (`rawRecursion_modify`, `fullRecursion_modify`).
-/

namespace SemCheck

/-- Two declarations differ at most in their supertypes, those taken out included. -/
structure Declaration.Alike (decl decl' : Declaration) : Prop where
  name : decl.name = decl'.name
  kind : decl.kind = decl'.kind
  package : decl.package = decl'.package
  flags : decl.flags = decl'.flags
  container : decl.container = decl'.container
  typeParameters : decl.typeParameters = decl'.typeParameters
  aliasTarget : decl.aliasTarget = decl'.aliasTarget
  variance : decl.variance = decl'.variance
  selfTypeOf : decl.selfTypeOf = decl'.selfTypeOf

namespace Declaration.Alike

variable {decl decl' decl'' : Declaration}

theorem refl (decl : Declaration) : decl.Alike decl := ⟨rfl, rfl, rfl, rfl, rfl, rfl, rfl, rfl, rfl⟩

theorem trans (h : decl.Alike decl') (h' : decl'.Alike decl'') : decl.Alike decl'' where
  name := h.name.trans h'.name
  kind := h.kind.trans h'.kind
  package := h.package.trans h'.package
  flags := h.flags.trans h'.flags
  container := h.container.trans h'.container
  typeParameters := h.typeParameters.trans h'.typeParameters
  aliasTarget := h.aliasTarget.trans h'.aliasTarget
  variance := h.variance.trans h'.variance
  selfTypeOf := h.selfTypeOf.trans h'.selfTypeOf

end Declaration.Alike

namespace Model

variable (m : Model) (d : DeclId) {f : Declaration → Declaration}

theorem supertypesOf_modify_of_ne (f : Declaration → Declaration) {e : DeclId} (h : e ≠ d) :
    (m.modify d f).supertypesOf e = m.supertypesOf e := by
  unfold supertypesOf
  rw [get?_modify_of_ne m d f h]

/-! ## Queries that do not read supertypes -/

section

variable (hf : ∀ decl, (f decl).Alike decl)

include hf

/-- A declaration is unknown before and after, or known before and after and much the same. -/
theorem get?_modify_cases (e : DeclId) :
    ((m.modify d f).get? e = none ∧ m.get? e = none) ∨
      ∃ decl decl', (m.modify d f).get? e = some decl' ∧ m.get? e = some decl ∧ decl'.Alike decl := by
  by_cases h : e = d
  · rw [get?_modify, if_pos h]
    cases hget : m.get? e with
    | none => exact Or.inl ⟨rfl, rfl⟩
    | some decl => exact Or.inr ⟨decl, f decl, rfl, rfl, hf decl⟩
  · rw [get?_modify_of_ne m d f h]
    cases hget : m.get? e with
    | none => exact Or.inl ⟨rfl, rfl⟩
    | some decl => exact Or.inr ⟨decl, decl, rfl, rfl, .refl decl⟩

theorem name_modify (e : DeclId) : (m.modify d f).name e = m.name e := by
  rcases get?_modify_cases m d hf e with ⟨h', h⟩ | ⟨decl, decl', h', h, halike⟩
  · simp only [name, h, h']
  · simp only [name, h, h']
    exact halike.name

theorem typeParametersOf_modify (e : DeclId) : (m.modify d f).typeParametersOf e = m.typeParametersOf e := by
  rcases get?_modify_cases m d hf e with ⟨h', h⟩ | ⟨decl, decl', h', h, halike⟩
  · simp only [typeParametersOf, h, h']
  · simp only [typeParametersOf, h, h']
    exact halike.typeParameters

theorem argumentMap_modify (e : DeclId) (args : List Ty) :
    (m.modify d f).argumentMap e args = m.argumentMap e args := by
  rw [argumentMap, typeParametersOf_modify m d hf, argumentMap]

theorem aliasTarget?_modify (e : DeclId) : (m.modify d f).aliasTarget? e = m.aliasTarget? e := by
  rcases get?_modify_cases m d hf e with ⟨h', h⟩ | ⟨decl, decl', h', h, halike⟩
  · simp only [aliasTarget?, h, h']
  · simp only [aliasTarget?, h, h', halike.kind, halike.aliasTarget]

theorem varianceOf_modify (e : DeclId) : (m.modify d f).varianceOf e = m.varianceOf e := by
  rcases get?_modify_cases m d hf e with ⟨h', h⟩ | ⟨decl, decl', h', h, halike⟩
  · simp only [varianceOf, h, h']
  · simp only [varianceOf, h, h']
    exact halike.variance

theorem typeOf_modify (e : DeclId) : (m.modify d f).typeOf e = m.typeOf e := by
  rcases get?_modify_cases m d hf e with ⟨h', h⟩ | ⟨decl, decl', h', h, halike⟩
  · simp only [typeOf, h, h']
  · simp only [typeOf, h, h', halike.kind, halike.typeParameters]

theorem basicType_modify : (m.modify d f).basicType = m.basicType := typeOf_modify m d hf m.basic

/-! ## Names -/

theorem nameList_modify (es : List DeclId) : (m.modify d f).nameList es = m.nameList es := by
  rw [nameList, funext (name_modify m d hf), nameList]

theorem typeText_modify (t : Ty) : (m.modify d f).typeText t = m.typeText t := by
  induction t with
  | nothing => rfl
  | unknown n => rfl
  | param e => exact name_modify m d hf e
  | applied e args ih =>
    rw [typeText, typeText, name_modify m d hf, typeTexts_eq, typeTexts_eq, List.map_congr_left ih]
  | union members ih => rw [typeText, typeText, typeTexts_eq, typeTexts_eq, List.map_congr_left ih]
  | intersection members ih => rw [typeText, typeText, typeTexts_eq, typeTexts_eq, List.map_congr_left ih]

theorem typeName_modify (t : Ty) : (m.modify d f).typeName t = m.typeName t := by
  rw [typeName_eq, typeName_eq, typeText_modify m d hf]

/-! ## Aliases -/

theorem resolveNode_modify (expand : Ty → Guard DeclId → Ty × Guard DeclId) :
    (m.modify d f).resolveNode expand = m.resolveNode expand := by
  funext t g
  cases t with
  | applied e args => simp only [resolveNode, aliasTarget?_modify m d hf, argumentMap_modify m d hf]
  | _ => rfl

theorem resolveWithin_modify (room : Nat) : (m.modify d f).resolveWithin room = m.resolveWithin room := by
  induction room with
  | zero => rw [resolveWithin, resolveNode_modify m d hf, resolveWithin]
  | succ room ih => rw [resolveWithin, resolveNode_modify m d hf, ih, resolveWithin]

theorem resolve_modify (t : Ty) : ((m.modify d f).resolve t).1 = (m.resolve t).1 := by
  rw [resolve_fst, resolve_fst, resolveAliases, resolveAliasesGuarded, resolveWithin_modify m d hf]
  rfl

/-! ## Scans -/

theorem definingSelfType?_modify (defining : List DeclId) (t : Ty) :
    (m.modify d f).definingSelfType? defining t = m.definingSelfType? defining t := by
  cases t with
  | param p =>
    rcases get?_modify_cases m d hf p with ⟨h', h⟩ | ⟨decl, decl', h', h, halike⟩
    · simp only [definingSelfType?, h, h']
    · simp only [definingSelfType?, h, h', Option.bind_eq_bind, Option.bind_some, halike.selfTypeOf]
  | _ => rfl

theorem illegalAt?_modify (defining : List DeclId) {param param' : Declaration} (halike : param'.Alike param)
    (position : Variance) (t : Ty) :
    (m.modify d f).illegalAt? defining param' position t = m.illegalAt? defining param position t := by
  unfold illegalAt? Declaration.isSelfType
  rw [halike.selfTypeOf, definingSelfType?_modify m d hf]

theorem scanSelfTypeArgs_modify (defining : List DeclId) {args : List Ty}
    (h : ∀ t ∈ args, (fun polarity => (m.modify d f).scanSelfTypes defining polarity t) = (m.scanSelfTypes defining · t))
    (polarity : Variance) (ps : List DeclId) :
    (m.modify d f).scanSelfTypeArgs defining polarity ps args = m.scanSelfTypeArgs defining polarity ps args := by
  funext found g
  induction args generalizing ps found g with
  | nil => cases ps <;> rfl
  | cons arg args ih =>
    obtain ⟨harg, hargs⟩ := List.forall_mem_cons.1 h
    cases ps with
    | nil => rfl
    | cons p ps =>
      rcases get?_modify_cases m d hf p with ⟨hp', hp⟩ | ⟨param, param', hp', hp, halike⟩
      · simp only [scanSelfTypeArgs, hp, hp', ih hargs]
      · simp only [scanSelfTypeArgs, hp, hp', halike.variance, illegalAt?_modify m d hf defining halike,
          congrFun harg, ih hargs]

theorem scanSelfTypes_modify (defining : List DeclId) (t : Ty) :
    (fun polarity => (m.modify d f).scanSelfTypes defining polarity t) = (m.scanSelfTypes defining · t) := by
  induction t with
  | nothing => rfl
  | unknown n => rfl
  | param e => rfl
  | applied e args ih =>
    funext polarity found g
    rcases get?_modify_cases m d hf e with ⟨h', h⟩ | ⟨decl, decl', h', h, halike⟩
    · simp only [scanSelfTypes, h, h']
    · simp only [scanSelfTypes, h, h', halike.typeParameters, scanSelfTypeArgs_modify m d hf defining ih]
  | union members ih | intersection members ih =>
    funext polarity found g
    show (m.modify d f).scanSelfTypeMembers defining polarity members found g =
      m.scanSelfTypeMembers defining polarity members found g
    induction members generalizing found g with
    | nil => rfl
    | cons t ts ihts =>
      obtain ⟨ht, hts⟩ := List.forall_mem_cons.1 ih
      simp only [scanSelfTypeMembers, congrFun ht, ihts hts]

theorem illegalSelfTypes_modify (defining : List DeclId) (t : Ty) :
    (m.modify d f).illegalSelfTypes defining t = m.illegalSelfTypes defining t := by
  simp only [illegalSelfTypes, selfTypeScan, congrFun (scanSelfTypes_modify m d hf defining t)]

theorem scanVarianceArgs_modify {args : List Ty}
    (h : ∀ t ∈ args, (fun polarity => (m.modify d f).scanVariance polarity t) = (m.scanVariance · t))
    (polarity : Variance) (e : DeclId) (ps : List DeclId) :
    (m.modify d f).scanVarianceArgs polarity e ps args = m.scanVarianceArgs polarity e ps args := by
  funext found g
  induction args generalizing ps found g with
  | nil => cases ps <;> rfl
  | cons arg args ih =>
    obtain ⟨harg, hargs⟩ := List.forall_mem_cons.1 h
    cases ps with
    | nil => rfl
    | cons p ps => simp only [scanVarianceArgs, varianceOf_modify m d hf, congrFun harg, ih hargs]

theorem scanVariance_modify (t : Ty) :
    (fun polarity => (m.modify d f).scanVariance polarity t) = (m.scanVariance · t) := by
  induction t with
  | nothing => rfl
  | unknown n => rfl
  | param e => rfl
  | applied e args ih =>
    funext polarity found g
    rcases get?_modify_cases m d hf e with ⟨h', h⟩ | ⟨decl, decl', h', h, halike⟩
    · simp only [scanVariance, h, h']
    · simp only [scanVariance, h, h', halike.typeParameters, scanVarianceArgs_modify m d hf ih]
  | union members ih | intersection members ih =>
    funext polarity found g
    show (m.modify d f).scanVarianceMembers polarity members found g = m.scanVarianceMembers polarity members found g
    induction members generalizing found g with
    | nil => rfl
    | cons t ts ihts =>
      obtain ⟨ht, hts⟩ := List.forall_mem_cons.1 ih
      simp only [scanVarianceMembers, congrFun ht, ihts hts]

theorem contravariantOffenders_modify (t : Ty) :
    (m.modify d f).contravariantOffenders t = m.contravariantOffenders t := by
  simp only [contravariantOffenders, contravariantScan, congrFun (scanVariance_modify m d hf t)]

end

/-! ## Walks that stop at the declaration -/

theorem rawVisit_modify (f : Declaration → Declaration) (next : DeclId → RawWalk → Bool × RawWalk) :
    (m.modify d f).rawVisit [d] next = m.rawVisit [d] next := by
  funext e w
  by_cases h : e ∈ [d]
  · rw [rawVisit, if_pos h, rawVisit, if_pos h]
  · rw [rawVisit, if_neg h, rawVisit, if_neg h,
      supertypesOf_modify_of_ne m d f fun he => h (he ▸ List.mem_singleton_self e)]

theorem rawWalk_modify (f : Declaration → Declaration) (room : Nat) :
    (m.modify d f).rawWalk [d] room = m.rawWalk [d] room := by
  induction room with
  | zero => rw [rawWalk, rawVisit_modify, rawWalk]
  | succ room ih => rw [rawWalk, rawVisit_modify, ih, rawWalk]

/-- **A raw walk back to a declaration does not see its supertypes**. -/
theorem rawRecursion_modify (f : Declaration → Declaration) (t : Ty) :
    (m.modify d f).rawRecursion [d] t = m.rawRecursion [d] t := by
  rw [rawRecursion, rawWalk_modify, size_modify, rawRecursion]

section

variable (hf : ∀ decl, (f decl).Alike decl)

include hf

theorem fullVisitHead_modify (next : Ty → FullWalk → Bool × FullWalk) (leaf : Ty) (e : DeclId) (w : FullWalk) :
    (m.modify d f).fullVisitHead [d] next leaf e w = m.fullVisitHead [d] next leaf e w := by
  by_cases h : e ∈ [d]
  · rw [fullVisitHead, if_pos h, fullVisitHead, if_pos h]
  · have hsupertype : (m.modify d f).fullVisitSupertype next leaf e = m.fullVisitSupertype next leaf e := by
      funext t w
      simp only [fullVisitSupertype, argumentMap_modify m d hf]
    rw [fullVisitHead, if_neg h, fullVisitHead, if_neg h, hsupertype,
      supertypesOf_modify_of_ne m d f fun he => h (he ▸ List.mem_singleton_self e)]

theorem fullVisit_modify (next : Ty → FullWalk → Bool × FullWalk) :
    (m.modify d f).fullVisit [d] next = m.fullVisit [d] next := by
  funext leaf w
  cases h : leaf.head? with
  | none => simp only [fullVisit, h]
  | some e => simp only [fullVisit, h, fullVisitHead_modify m d hf]

theorem fullWalk_modify (room : Nat) : (m.modify d f).fullWalk [d] room = m.fullWalk [d] room := by
  induction room with
  | zero => rw [fullWalk, fullVisit_modify m d hf, fullWalk]
  | succ room ih => rw [fullWalk, fullVisit_modify m d hf, ih, fullWalk]

/-- **Nor does a walk with the arguments filled in**. -/
theorem fullRecursion_modify (t : Ty) : (m.modify d f).fullRecursion [d] t = m.fullRecursion [d] t := by
  rw [fullRecursion, fullRecursionWalk, fullWalk_modify m d hf, fullRecursion, fullRecursionWalk]
  rfl

end

end Model

end SemCheck
