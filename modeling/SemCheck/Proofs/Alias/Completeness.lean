import SemCheck.Proofs.Alias.Instantiation

/-!
# Complete resolution

If chains of aliases, each applied in the target of the one before, are no longer than the guard is deep, the guard lets
in every alias that comes up. Then no alias is left, and to resolve the result again changes nothing
(`resolve_complete`).
-/

namespace SemCheck

namespace Model

variable {m : Model} {t : Ty}

/-! ## Where no alias is applied -/

/-- A normal type without aliases is rebuilt as it is. -/
theorem rebuild_of_plain {expand : Ty → Guard DeclId → Ty × Guard DeclId} (ht : t.Normal)
    (h : ∀ d args, (Ty.applied d args).Occurs t → m.aliasTarget? d = none) (g : Guard DeclId) :
    Ty.rebuild (m.resolveNode expand) t g = (t, g) := by
  have hall {ts : List Ty} (hts : ∀ t ∈ ts, ∀ g, Ty.rebuild (m.resolveNode expand) t g = (t, g)) (g : Guard DeclId) :
      Ty.rebuildAll (m.resolveNode expand) ts g = (ts, g) := by
    rw [Ty.rebuildAll_of_forall _ fun t ht => hts t ht g, List.map_id']
  induction ht generalizing g with
  | nothing | unknown | param => rfl
  | applied d _ ih =>
    have hargs := hall (fun u hu => ih u hu fun e us hus => h e us (hus.of_part hu)) g
    rw [Ty.rebuild_applied, hargs, resolveNode_of_none (h d _ (.refl _))]
  | union _ hms ih =>
    have hmembers := hall (fun u hu => ih u hu fun e us hus => h e us (hus.of_part hu)) g
    rw [Ty.rebuild_union, hmembers, resolveNode, hms.unite_eq]
  | intersection _ hms ih =>
    have hmembers := hall (fun u hu => ih u hu fun e us hus => h e us (hus.of_part hu)) g
    rw [Ty.rebuild_intersection, hmembers, resolveNode, hms.intersect_eq]

/-- A normal type without aliases is resolved to itself. -/
theorem resolve_of_plain (ht : t.Normal) (h : ∀ d args, (Ty.applied d args).Occurs t → m.aliasTarget? d = none) :
    (m.resolve t).1 = t := by
  rw [resolve_fst]
  exact congrArg Prod.fst (rebuild_of_plain ht h _)

/-! ## Where aliases follow on one another within bounds -/

/-- Aliases with assembled targets, of which no more follow on one another, each in the target of the one before, than
may be expanded inside one another. In particular, none comes up in its own expansion. -/
structure BoundedAliases (m : Model) : Prop where
  assembled : ∀ d target, m.aliasTarget? d = some target → target.Assembled
  chains : ∀ chain : List DeclId, chain.IsChain m.AliasDependsOn → chain.length ≤ Limits.aliasResolutionDepth

theorem BoundedAliases.normal (h : m.BoundedAliases) {d : DeclId} {target : Ty}
    (htarget : m.aliasTarget? d = some target) : target.Normal := (h.assembled d target htarget).normal

/-- The aliases have ranks, and there is room to expand all of them inside one another. -/
theorem BoundedAliases.exists_ranked (h : m.BoundedAliases) :
    ∃ rank, m.RankedWith rank (fun _ _ => True) ∧
      ∀ t, m.FitsWith rank (fun _ _ => True) Limits.aliasResolutionDepth t := by
  obtain ⟨rank, hbound, hranked⟩ :=
    exists_rankedWith (fun _ _ => True) (fun _ _ => h.normal) (fun _ _ _ _ _ _ => trivial) h.chains
  exact ⟨rank, hranked, fun t => fitsWith_of (fun _ _ _ => trivial) fun d _ _ _ => hbound d⟩

theorem guard_resolveAliases (m : Model) (t : Ty) :
    (m.resolveLogged Limits.aliasResolutionDepth t ⟨.ofProfile .aliasResolution, []⟩).2.guard =
      (m.resolveAliasesGuarded t).2 :=
  congrArg Prod.snd (m.guard_resolveLogged Limits.aliasResolutionDepth t ⟨.ofProfile .aliasResolution, []⟩)

/-- What the guard has been asked is counted. -/
theorem affords_of_length_resolveAnswers (h : (m.resolveAnswers t).length ≤ Limits.walkIterations) : m.Affords t := by
  have hcounts : (m.resolveLogged Limits.aliasResolutionDepth t ⟨.ofProfile .aliasResolution, []⟩).2.Counts :=
    counts_resolveLogged m _ t rfl
  rw [resolveAnswers, List.length_reverse] at h
  rw [Affords, ← guard_resolveAliases]
  exact Nat.le_trans (Nat.le_of_eq hcounts) (Nat.le_trans (Nat.min_le_left _ _) h)

/-- **Resolution is complete**: every alias that comes up is let in and none is left, so that nothing is left to do. -/
theorem resolve_complete (m : Model) (t : Ty) (hm : m.BoundedAliases)
    (hentries : (m.resolveAnswers t).length ≤ Limits.walkIterations) :
    (∀ e ∈ m.resolveAnswers t, e = .entered) ∧
      (∀ d args, (Ty.applied d args).Occurs (m.resolve t).1 → m.aliasTarget? d = none) ∧
      ((m.resolve t).2.resolve (m.resolve t).1).1 = (m.resolve t).1 := by
  obtain ⟨rank, hranked, hfits⟩ := hm.exists_ranked
  have haffords := affords_of_length_resolveAnswers hentries
  have hplain (d : DeclId) (args : List Ty) (hd : (Ty.applied d args).Occurs (m.resolve t).1) :
      m.aliasTarget? d = none := by
    rw [hranked.resolve_fst (hfits t) haffords] at hd
    exact (hranked.fits_expandWithin _ (hfits t)).aliasTarget?_eq_none hd
  have hnormal : (m.resolve t).1.Normal := by
    rw [resolve_fst]
    exact normal_resolveWithin (fun _ _ => hm.normal) _ _ _
  refine ⟨?entered, hplain, resolve_of_plain hnormal hplain⟩
  have hready : Ready rank Limits.aliasResolutionDepth Limits.aliasResolutionDepth (m.resolveAliasesGuarded t).2 :=
    haffords.ready
  rw [← guard_resolveAliases] at hready
  have hkeeps := (hranked.resolveLogged_endsAs (Nat.le_refl _) (hfits t) _ hready).2
  exact fun e he => hkeeps (fun e he => absurd he List.not_mem_nil) e (List.mem_reverse.1 he)

theorem boundedAliases_nested : nested.BoundedAliases where
  assembled d target htarget := (soundAliases_nested.built d target htarget).assembled
  chains := soundAliases_nested.chains

/-- In `Twice<Maybe<Anything>>` the alias `Maybe` is applied to itself, and is let in each time. -/
theorem resolve_complete_nested :
    (∀ e ∈ nested.resolveAnswers (.applied ⟨6⟩ [.applied ⟨4⟩ [.applied ⟨0⟩ []]]), e = .entered) ∧
      (∀ d args, (Ty.applied d args).Occurs (nested.resolve (.applied ⟨6⟩ [.applied ⟨4⟩ [.applied ⟨0⟩ []]])).1 →
        nested.aliasTarget? d = none) ∧
      ((nested.resolve (.applied ⟨6⟩ [.applied ⟨4⟩ [.applied ⟨0⟩ []]])).2.resolve
        (nested.resolve (.applied ⟨6⟩ [.applied ⟨4⟩ [.applied ⟨0⟩ []]])).1).1 =
        (nested.resolve (.applied ⟨6⟩ [.applied ⟨4⟩ [.applied ⟨0⟩ []]])).1 :=
  resolve_complete nested _ boundedAliases_nested (by decide +kernel)

end Model

end SemCheck
