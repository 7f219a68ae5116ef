import SemCheck.Proofs.Guard.Scopes
import SemCheck.Proofs.Occurrence.SelfType
import SemCheck.Proofs.Occurrence.Variance
import SemCheck.Proofs.Alias.Guarded
import SemCheck.Proofs.Recursion.Full
import SemCheck.Model.Resolve

/-!
# Guarded queries

Supertypes may grow without end and aliases may lead back to themselves, so nothing but the guard brings the walk along
supertypes and the expansion of aliases to an end. A guard that is `Narrow` to `n` lets in at most `n` keys inside one
another. With such a guard, the call `n + 1` levels down is never made: whatever is put in its place makes no difference
(`fullWalk_eq`, `resolveWithin_eq`). The scans of type arguments follow the type; they try to enter at most once for
each application in it.

However a walk ends, by a find, at a cycle, at a limit or with everything seen, it has used its guard in nested scopes
only. Main statement: `guardedQueries`.
-/

namespace SemCheck

namespace Guard

variable {κ : Type} [Keyed κ] [DecidableEq κ] {g g' : Guard κ} {key : κ} {n : Nat} {p : Profile}

/-- At most `n` more keys can be entered inside one another. -/
def Narrow (n : Nat) (g : Guard κ) : Prop := g.maxDepth ≤ g.depth + n

theorem Narrow.of_scoped (h : Narrow n g) (hscoped : g.Scoped g') : Narrow n g' := by
  rw [Narrow, hscoped.kept.maxDepth, hscoped.kept.depth]
  exact h

theorem Narrow.enter (h : Narrow (n + 1) g) (henter : g.enter key = (.entered, g')) : Narrow n g' := by
  have hmaxDepth := (limits_enter g key).1
  rw [henter] at hmaxDepth
  rw [Narrow, hmaxDepth, (enter_entered henter).2, Nat.add_assoc, Nat.add_comm 1]
  exact h

theorem Narrow.not_entered (h : Narrow 0 g) (key : κ) : (g.enter key).1 ≠ .entered := by
  intro hentered
  have hroom := ((entered_iff g key).1 hentered).2.1
  exact Nat.not_le.2 hroom h

theorem narrow_ofProfile (p : Profile) : Narrow p.maxDepth (.ofProfile p : Guard κ) := Nat.le_add_left _ _

/-- A guard made for a walk has been used in nested scopes only: all keys have been left, each in its turn, and the
guard can be given up. -/
structure GivenBack (p : Profile) (g : Guard κ) : Prop where
  scopes : Scoped (.ofProfile p) g
  visiting : g.visiting.toList = []
  depth : g.depth = 0
  faulted : g.faulted = false
  outOfOrder : g.outOfOrder = false
  closeFault? : g.closeFault? = none

theorem Scoped.givenBack (h : Scoped (.ofProfile p) g) : GivenBack p g := by
  have hrestored := h.restored
  have hvisiting : g.visiting.toList = [] := hrestored.visiting
  constructor
  case scopes => exact h
  case visiting => exact hvisiting
  case depth => exact hrestored.depth
  case faulted => exact hrestored.faulted
  case outOfOrder => exact hrestored.outOfOrder
  case closeFault? =>
    have hsize : g.visiting.size = 0 := by rw [g.visiting.size_eq, hvisiting, List.length_nil]
    rw [Guard.closeFault?, if_pos hsize]

end Guard

namespace Model

open Guard (Narrow Scoped)

variable {m : Model} {defining : List DeclId}

/-! ## Following supertypes -/

section

variable {next next' : Ty → FullWalk → Bool × FullWalk} {leaf : Ty} {d : DeclId} {w : FullWalk} {n : Nat}

/-- A search uses its guard in nested scopes only if each visit does. -/
theorem scoped_firstFound {α : Type} {visit : α → FullWalk → Bool × FullWalk}
    (h : ∀ a w, Scoped w.guard (visit a w).2.guard) (as : List α) (w : FullWalk) :
    Scoped w.guard (firstFound visit as w).2.guard :=
  firstFound_keeps (I := fun w' => Scoped w.guard w'.guard) (fun a w' hw => hw.trans (h a w')) as (.refl w.guard)

theorem scoped_fullVisitSupertype (hnext : ∀ leaf w, Scoped w.guard (next leaf w).2.guard) (leaf : Ty) (d : DeclId)
    (supertype : Ty) (w : FullWalk) : Scoped w.guard (m.fullVisitSupertype next leaf d supertype w).2.guard := by
  rw [fullVisitSupertype_eq]
  exact scoped_firstFound hnext _ { w with pool := (w.pool.substitute _ supertype).2 }

theorem scoped_fullVisit (hnext : ∀ leaf w, Scoped w.guard (next leaf w).2.guard) (leaf : Ty) (w : FullWalk) :
    Scoped w.guard (m.fullVisit defining next leaf w).2.guard := by
  rw [fullVisit]
  cases hd : leaf.head? with
  | none => exact .refl _
  | some d =>
    dsimp only
    by_cases hmem : d ∈ defining
    · rw [fullVisitHead, if_pos hmem]
      exact .refl _
    rcases @fullVisitHead_cases m defining next leaf d hmem w with
      ⟨-, heq⟩ | ⟨-, ⟨g, henter, heq⟩ | ⟨g, henter, heq⟩ | ⟨hrefused, -, heq⟩⟩
    · rw [heq]
      exact .refl _
    · have hrefused : (w.guard.enter leaf).1 ≠ .entered := by simp [henter]
      have hscoped := Scoped.refuse hrefused
      rw [henter] at hscoped
      rw [heq]
      exact hscoped
    · have hsearch : Scoped g
          (firstFound (m.fullVisitSupertype next leaf d) (m.supertypesOf d) { w with guard := g }).2.guard :=
        scoped_firstFound (scoped_fullVisitSupertype hnext leaf d) _ { w with guard := g }
      have hleave := Scoped.leave henter hsearch
      rw [heq]
      split <;> next hfound =>
        rw [hfound] at hleave
        exact hleave
    · rw [heq]
      exact .refuse hrefused

/-- A walk along supertypes uses its guard in nested scopes only, however it ends. -/
theorem scoped_fullWalk (m : Model) (defining : List DeclId) (room : Nat) (leaf : Ty) (w : FullWalk) :
    Scoped w.guard (m.fullWalk defining room leaf w).2.guard := by
  induction room generalizing leaf w with
  | zero => exact scoped_fullVisit (fun _ w => .refl w.guard) leaf w
  | succ room ih => exact scoped_fullVisit ih leaf w

theorem scoped_fullRecursionWalk (m : Model) (defining : List DeclId) (t : Ty) :
    Scoped (.ofProfile .supertypeWalk) (m.fullRecursionWalk defining t).2.guard := by
  rw [fullRecursionWalk, Ty.searchLeaves_eq]
  exact scoped_firstFound (scoped_fullWalk m defining _) _ { guard := .ofProfile .supertypeWalk, pool := m.types }

/-- Searches agree whose visits agree on guards that are narrow enough. -/
theorem firstFound_agree_of_narrow {α : Type} {visit visit' : α → FullWalk → Bool × FullWalk}
    (h : ∀ a w, Narrow n w.guard → visit a w = visit' a w) (hvisit' : ∀ a w, Scoped w.guard (visit' a w).2.guard)
    (as : List α) (w : FullWalk) (hw : Narrow n w.guard) : firstFound visit as w = firstFound visit' as w :=
  firstFound_agree (I := fun w => Narrow n w.guard) h (fun a w hw => hw.of_scoped (hvisit' a w)) as hw

/-- Visits agree if what is done behind a type that the guard lets in agrees. -/
theorem fullVisit_agree (h : ∀ d g, w.guard.enter leaf = (.entered, g) →
      firstFound (m.fullVisitSupertype next leaf d) (m.supertypesOf d) { w with guard := g } =
        firstFound (m.fullVisitSupertype next' leaf d) (m.supertypesOf d) { w with guard := g }) :
    m.fullVisit defining next leaf w = m.fullVisit defining next' leaf w := by
  rw [fullVisit, fullVisit]
  cases leaf.head? with
  | none => rfl
  | some d =>
    dsimp only
    rw [fullVisitHead, fullVisitHead]
    rcases henter : w.guard.enter leaf with ⟨_ | _, g⟩
    · dsimp only
      rw [h d g henter]
    all_goals rfl

theorem fullVisitSupertype_agree (h : ∀ leaf w, Narrow n w.guard → next leaf w = next' leaf w)
    (hnext' : ∀ leaf w, Scoped w.guard (next' leaf w).2.guard) (leaf : Ty) (d : DeclId) (t : Ty) (w : FullWalk)
    (hw : Narrow n w.guard) : m.fullVisitSupertype next leaf d t w = m.fullVisitSupertype next' leaf d t w := by
  rw [fullVisitSupertype_eq, fullVisitSupertype_eq]
  exact firstFound_agree_of_narrow h hnext' _ { w with pool := _ } hw

/-- **A walk along supertypes comes to an end**: the guard does not let it get `room + 1` levels down, whatever would
happen there. -/
theorem fullWalk_eq (m : Model) (defining : List DeclId) (below : Ty → FullWalk → Bool × FullWalk) (room : Nat)
    (leaf : Ty) (w : FullWalk) (hw : Narrow room w.guard) :
    Nat.repeat (m.fullVisit defining) (room + 1) below leaf w = m.fullWalk defining room leaf w := by
  induction room generalizing leaf w with
  | zero =>
    -- nothing more is let in, so what is done behind it never is
    refine fullVisit_agree fun d g henter => ?_
    exact absurd (congrArg Prod.fst henter) (hw.not_entered leaf)
  | succ room ih =>
    refine fullVisit_agree fun d g henter => ?_
    have hscoped := scoped_fullWalk m defining room
    exact firstFound_agree_of_narrow (fullVisitSupertype_agree ih hscoped leaf d)
      (scoped_fullVisitSupertype hscoped leaf d) _ { w with guard := g } (hw.enter henter)

theorem fullRecursionWalk_eq (m : Model) (defining : List DeclId) (below : Ty → FullWalk → Bool × FullWalk) (t : Ty) :
    t.searchLeaves (Nat.repeat (m.fullVisit defining) (Limits.supertypeWalkDepth + 1) below)
      { guard := .ofProfile .supertypeWalk, pool := m.types } = m.fullRecursionWalk defining t := by
  rw [fullRecursionWalk, Ty.searchLeaves_eq, Ty.searchLeaves_eq]
  exact firstFound_agree_of_narrow (fullWalk_eq m defining below _) (scoped_fullWalk m defining _) _
    { guard := .ofProfile .supertypeWalk, pool := m.types } (Guard.narrow_ofProfile .supertypeWalk)

end

/-! ## Expanding aliases -/

/-- Steps agree if what is done with the target of an alias that the guard lets in agrees. -/
theorem resolveNode_agree {expand expand' : Ty → Guard DeclId → Ty × Guard DeclId} {g : Guard DeclId}
    (h : ∀ d g₁, g.enter d = (.entered, g₁) → ∀ t, expand t g₁ = expand' t g₁) (t : Ty) :
    m.resolveNode expand t g = m.resolveNode expand' t g := by
  cases t with
  | applied d args =>
    cases htarget : m.aliasTarget? d with
    | none => rw [resolveNode_of_none htarget, resolveNode_of_none htarget]
    | some target =>
      rw [resolveNode_of_some htarget, resolveNode_of_some htarget, Guard.scope, Guard.scope]
      rcases henter : g.enter d with ⟨_ | _, g₁⟩
      · dsimp only
        rw [h d g₁ henter]
      all_goals rfl
  | _ => rfl

/-- **Expanding aliases comes to an end**: the guard does not let it get `room + 1` levels down, whatever would happen
there. -/
theorem resolveWithin_eq (m : Model) (below : Ty → Guard DeclId → Ty × Guard DeclId) (room : Nat) (t : Ty)
    (g : Guard DeclId) (hg : Narrow room g) :
    Nat.repeat (fun expand => Ty.rebuild (m.resolveNode expand)) (room + 1) below t g = m.resolveWithin room t g := by
  induction room generalizing t g with
  | zero =>
    refine Ty.rebuild_agree (I := Narrow 0) (fun t g hg => resolveNode_agree (fun d g₁ henter => ?_) t)
      (fun t g hg => hg.of_scoped (scoped_resolveNode (fun _ g => .refl g) t g)) t hg
    exact absurd (congrArg Prod.fst henter) (hg.not_entered d)
  | succ room ih =>
    refine Ty.rebuild_agree (I := Narrow (room + 1)) (fun t g hg => resolveNode_agree (fun d g₁ henter t => ?_) t)
      (fun t g hg => hg.of_scoped (scoped_resolveNode (scoped_resolveWithin m room) t g)) t hg
    exact ih t g₁ (hg.enter henter)

theorem resolveAliasesGuarded_eq (m : Model) (below : Ty → Guard DeclId → Ty × Guard DeclId) (t : Ty) :
    Nat.repeat (fun expand => Ty.rebuild (m.resolveNode expand)) (Limits.aliasResolutionDepth + 1) below t
      (.ofProfile .aliasResolution) = m.resolveAliasesGuarded t :=
  resolveWithin_eq m below _ t _ (Guard.narrow_ofProfile .aliasResolution)

/-! ## All queries -/

/-- **The queries come to an end and give their guards back**. What is put in the place of the calls at the greatest
depth that a guard allows makes no difference to the walk along supertypes nor to the expansion of aliases, however they
cycle or grow, so that no call is made there. A scan of type arguments enters no more than the applications in its type.
Each query leaves all keys that it has entered, each in its turn. -/
theorem guardedQueries (m : Model) (defining : List DeclId) (t : Ty) :
    ((∀ below, t.searchLeaves (Nat.repeat (m.fullVisit defining) (Limits.supertypeWalkDepth + 1) below)
          { guard := .ofProfile .supertypeWalk, pool := m.types } = m.fullRecursionWalk defining t) ∧
        (m.fullRecursionWalk defining t).2.guard.GivenBack .supertypeWalk) ∧
      ((∀ below, Nat.repeat (fun expand => Ty.rebuild (m.resolveNode expand)) (Limits.aliasResolutionDepth + 1) below t
            (.ofProfile .aliasResolution) = m.resolveAliasesGuarded t) ∧
        Resolution.view (m.resolveKnownWithin Limits.aliasResolutionDepth t
          ⟨.ofProfile .aliasResolution, { pool := m.types }⟩) = m.resolveAliasesGuarded t ∧
        (m.resolveAliasesGuarded t).2.GivenBack .aliasResolution) ∧
      ((m.contravariantScan t).2.iterations ≤ t.applications ∧
        (m.contravariantScan t).2.GivenBack .typeArgumentScan) ∧
      (m.selfTypeScan defining t).2.iterations ≤ t.applications ∧
        (m.selfTypeScan defining t).2.GivenBack .typeArgumentScan := by
  have hvariance := m.scans_variance.lists (fun _ _ _ => m.lists_visitOffending) .covariant t
  have hselfTypes := (m.scans_selfTypes defining).lists (fun _ _ _ => m.lists_visitSelfType defining) .covariant t
  refine ⟨⟨fun below => ?_, ?_⟩, ⟨fun below => ?_, ?_, ?_⟩, ⟨?_, ?_⟩, ?_, ?_⟩
  · exact fullRecursionWalk_eq m defining below t
  · exact (scoped_fullRecursionWalk m defining t).givenBack
  · exact resolveAliasesGuarded_eq m below t
  · exact view_resolveKnownWithin Limits.aliasResolutionDepth t _
  · exact (scoped_resolveWithin m _ t _).givenBack
  · exact Nat.le_trans (hvariance.cost [] _) (Nat.le_of_eq (Nat.zero_add _))
  · exact (hvariance.nested [] _).givenBack
  · exact Nat.le_trans (hselfTypes.cost [] _) (Nat.le_of_eq (Nat.zero_add _))
  · exact (hselfTypes.nested [] _).givenBack

end Model

end SemCheck
