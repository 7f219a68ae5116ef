import SemCheck.Guard.Basic

/-!
# What a guard allows

A key that is entered is put before the keys being visited (`enter_entered`); one that is refused as a cycle is among
them (`mem_of_enter_cycle`). Within the limits nothing else is refused (`entered_or_cycle`). Leaving the key that was
entered last brings the others back (`visiting_leave`), so a key that is entered and left keeps them (`Kept.leave`).
-/

namespace SemCheck.Guard

variable {κ : Type} [Keyed κ] [DecidableEq κ] {g g' : Guard κ} {key : κ}

theorem limits_enter (g : Guard κ) (key : κ) :
    (g.enter key).2.maxDepth = g.maxDepth ∧ (g.enter key).2.maxIterations = g.maxIterations := by
  unfold enter
  grind

/-- Every attempt counts. -/
theorem iterations_enter (g : Guard κ) (key : κ) :
    (g.enter key).2.iterations = min (g.iterations + 1) iterationCeiling := by
  unfold enter
  grind

theorem iterations_enter_le (g : Guard κ) (key : κ) : (g.enter key).2.iterations ≤ g.iterations + 1 := by
  rw [iterations_enter]
  exact Nat.min_le_left _ _

theorem enter_entered (h : g.enter key = (.entered, g')) :
    g'.visiting.toList = key :: g.visiting.toList ∧ g'.depth = g.depth + 1 := by
  simp only [enter] at h
  split at h
  · cases h
  split at h
  · cases h
  split at h
  · cases h
  split at h
  · cases h
  · obtain rfl : _ = g' := congrArg Prod.snd h
    exact ⟨rfl, rfl⟩

theorem not_mem_of_enter_entered (h : g.enter key = (.entered, g')) : key ∉ g.visiting.toList := by
  have hnodup := g'.visiting.nodup
  rw [(enter_entered h).1] at hnodup
  exact (List.nodup_cons.1 hnodup).1

theorem mem_of_enter_cycle (h : g.enter key = (.cycle, g')) : key ∈ g.visiting.toList := by
  simp only [enter] at h
  split at h
  · cases h
  split at h
  · cases h
  split at h
  · next hmem => exact KeyStack.contains_iff.1 hmem
  split at h
  · cases h
  · cases h

theorem visiting_of_enter_cycle (h : g.enter key = (.cycle, g')) :
    g'.visiting = g.visiting ∧ g'.depth = g.depth := by
  have hne : (g.enter key).1 ≠ .entered := by
    rw [h]
    exact nofun
  have hkeep := enter_of_ne_entered hne
  rw [h] at hkeep
  exact hkeep

/-- Within the limits an attempt is refused only for a key that is being visited. -/
theorem entered_or_cycle (key : κ) (hiterations : g.iterations < g.maxIterations) (hdepth : g.depth < g.maxDepth)
    (hsize : g.visiting.toList.length < Limits.visitingSize) :
    (g.enter key).1 = .entered ∨ (g.enter key).1 = .cycle := by
  rw [← g.visiting.size_eq] at hsize
  have hcount : ¬ g.maxIterations < min (g.iterations + 1) iterationCeiling := by omega
  unfold enter
  rw [if_neg hcount, if_neg (Nat.not_le.2 hdepth)]
  split
  · exact Or.inr rfl
  · rw [if_neg (Nat.not_le.2 hsize)]
    exact Or.inl rfl

/-- A key is entered within all limits, unless it is being visited. -/
theorem entered_iff (g : Guard κ) (key : κ) : (g.enter key).1 = .entered ↔
    min (g.iterations + 1) iterationCeiling ≤ g.maxIterations ∧ g.depth < g.maxDepth ∧
      key ∉ g.visiting.toList ∧ g.visiting.toList.length < Limits.visitingSize := by
  have hcontains := g.visiting.contains_eq key
  rw [← g.visiting.size_eq]
  unfold enter
  grind

/-- Leaving a key takes it out of those being visited. -/
theorem leave_of_mem (h : key ∈ g.visiting.toList) : (g.leave key).visiting.toList = g.visiting.toList.erase key ∧
    (g.leave key).depth = g.depth - 1 ∧ (g.leave key).exceeded = g.exceeded := by
  rw [leave, leave?, dif_pos (KeyStack.contains_iff.2 h)]
  exact ⟨rfl, rfl, rfl⟩

/-- Leaving the key entered last. -/
theorem visiting_leave {keys : List κ} (h : g.visiting.toList = key :: keys) :
    (g.leave key).visiting.toList = keys ∧ (g.leave key).depth = g.depth - 1 := by
  obtain ⟨hvisiting, hdepth, -⟩ := leave_of_mem (h ▸ List.mem_cons_self : key ∈ g.visiting.toList)
  refine ⟨?_, hdepth⟩
  rw [hvisiting, h, List.erase_cons_head]

theorem counts_leave (g : Guard κ) (key : κ) : (g.leave key).iterations = g.iterations ∧
    (g.leave key).maxDepth = g.maxDepth ∧ (g.leave key).maxIterations = g.maxIterations := by
  unfold leave leave?
  split <;> exact ⟨rfl, rfl, rfl⟩

/-! ## What a walk leaves as it was -/

/-- A walk that was at `g` is at `g'` and has left what it has entered. The count of attempts stops at its ceiling, so it
only tells of the count before if it is below. -/
structure Kept (g g' : Guard κ) : Prop where
  visiting : g'.visiting.toList = g.visiting.toList
  depth : g'.depth = g.depth
  maxDepth : g'.maxDepth = g.maxDepth
  maxIterations : g'.maxIterations = g.maxIterations
  iterations : ∀ n < iterationCeiling, g'.iterations ≤ n → g.iterations ≤ n

theorem Kept.refl (g : Guard κ) : Kept g g := ⟨rfl, rfl, rfl, rfl, fun _ _ => id⟩

theorem Kept.trans {g'' : Guard κ} (h : Kept g g') (h' : Kept g' g'') : Kept g g'' where
  visiting := h'.visiting.trans h.visiting
  depth := h'.depth.trans h.depth
  maxDepth := h'.maxDepth.trans h.maxDepth
  maxIterations := h'.maxIterations.trans h.maxIterations
  iterations n hn hle := h.iterations n hn (h'.iterations n hn hle)

theorem iterations_lt_of_enter {n : Nat} (hn : n < iterationCeiling) (h : (g.enter key).2.iterations ≤ n) :
    g.iterations < n := by
  rw [iterations_enter] at h
  omega

/-- The guard in a scope and the guard after it. -/
theorem scope_cases {α : Type} (g : Guard κ) (key : κ) (body : Guard κ → α × Guard κ) :
    (∃ g₁, g.enter key = (.entered, g₁) ∧ g.scope key body = (.ok (body g₁).1, (body g₁).2.leave key)) ∨
      (g.enter key).1 ≠ .entered ∧ g.scope key body = (.error (g.enter key).1, (g.enter key).2) := by
  unfold scope
  rcases henter : g.enter key with ⟨_ | _, g₁⟩
  · exact Or.inl ⟨g₁, rfl, rfl⟩
  all_goals exact Or.inr ⟨nofun, rfl⟩

/-- A key that is refused. -/
theorem Kept.refuse (h : (g.enter key).1 ≠ .entered) : Kept g (g.enter key).2 := by
  obtain ⟨hmaxDepth, hmaxIterations⟩ := limits_enter g key
  obtain ⟨hvisiting, hdepth⟩ := enter_of_ne_entered h
  exact ⟨congrArg _ hvisiting, hdepth, hmaxDepth, hmaxIterations,
    fun _ hn hle => Nat.le_of_lt (iterations_lt_of_enter hn hle)⟩

/-- A key that is entered, and left when all entered later have been left. -/
theorem Kept.leave {g₁ : Guard κ} (henter : g.enter key = (.entered, g₁)) (h : Kept g₁ g') : Kept g (g'.leave key) := by
  have hlimits := limits_enter g key
  have hcount {n : Nat} (hn : n < iterationCeiling) (h : (g.enter key).2.iterations ≤ n) : g.iterations ≤ n :=
    Nat.le_of_lt (iterations_lt_of_enter hn h)
  rw [henter] at hlimits hcount
  obtain ⟨hvisiting, hdepth⟩ := enter_entered henter
  have hleave := visiting_leave (h.visiting.trans hvisiting)
  obtain ⟨hiterations, hmaxDepth, hmaxIterations⟩ := counts_leave g' key
  constructor
  · exact hleave.1
  · rw [hleave.2, h.depth, hdepth, Nat.add_sub_cancel]
  · rw [hmaxDepth, h.maxDepth, hlimits.1]
  · rw [hmaxIterations, h.maxIterations, hlimits.2]
  · intro n hn hle
    rw [hiterations] at hle
    exact hcount hn (h.iterations n hn hle)

end SemCheck.Guard
