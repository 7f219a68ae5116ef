import SemCheck.Model.Build
import SemCheck.Proofs.Recursion.Full

/-!
# A walk within its limits

A walk is stopped by its guard if it goes too deep or tries too often. Where the types that can be reached are few, and
have few leaves in their supertypes, neither happens: the types being visited are among those reached, and every type is
expanded once, so that what has been tried and what is still pending together never exceed what there was at the start
(`spent`). A find then is one (`exists_fullReach_of_fullRecursion_ne_nil`), which with the other direction says what an
answer means (`fullRecursion_exact`).
-/

namespace SemCheck.Model

variable (m : Model) (S : List Ty)

/-- How many successors the types of `S` have that are neither explored nor being visited. -/
def pending (w : FullWalk) : Nat :=
  ((S.filter fun u => !w.explored.contains u && !decide (u ∈ w.guard.visiting.toList)).map
    fun u => (m.fullSuccessors u).length).sum

/-- What the walk has tried, and what is still pending. -/
def spent (w : FullWalk) : Nat := w.guard.iterations + m.pending S w

/-- The walk is within the limits of its profile, and visits only types of `S`. -/
structure Within (S : List Ty) (w : FullWalk) : Prop where
  visiting : ∀ u ∈ w.guard.visiting.toList, u ∈ S
  depth : w.guard.depth = w.guard.visiting.toList.length
  maxDepth : w.guard.maxDepth = Limits.supertypeWalkDepth
  maxIterations : w.guard.maxIterations = Limits.walkIterations

/-- The way found leads to a declaration that is being defined. -/
def Found (m : Model) (defining : List DeclId) (t : Ty) (w : FullWalk) : Prop :=
  ∃ u d, m.FullReach defining t u ∧ u.head? = some d ∧ d ∈ defining ∧ w.path.getLast? = some d

variable {m S} {defining : List DeclId} {w w' : FullWalk} {leaf : Ty} {d : DeclId}

theorem Within.length_le (h : Within S w) : w.guard.visiting.toList.length ≤ S.length :=
  w.guard.visiting.nodup.length_le_of_subset h.visiting

theorem pending_le (h : ∀ u, Settled u w → Settled u w') : m.pending S w' ≤ m.pending S w := by
  apply sum_filter_le
  intro u _ hu
  have hnot : ¬ Settled u w' := by simpa [Settled] using hu
  simpa [Settled] using fun hs => hnot (h u hs)

/-! ## Entering and leaving -/

section

variable {g : Guard Ty}

theorem iterations_le_of_enter (henter : (w.guard.enter leaf).2 = g) : g.iterations ≤ w.guard.iterations + 1 := by
  rw [← henter, Guard.iterations_enter]
  exact Nat.min_le_left _ _

theorem spent_enter (hleaf : leaf ∈ S) (hexplored : w.explored.contains leaf = false)
    (henter : w.guard.enter leaf = (.entered, g)) :
    m.spent S { w with guard := g } + (m.fullSuccessors leaf).length ≤ m.spent S w + 1 := by
  have hiterations : g.iterations ≤ w.guard.iterations + 1 := iterations_le_of_enter (congrArg Prod.snd henter)
  have hvisiting := (Guard.enter_entered henter).1
  have hpending : m.pending S { w with guard := g } + (m.fullSuccessors leaf).length ≤ m.pending S w := by
    refine sum_filter_add_le hleaf ?_ ?_ fun u _ hu => ?_
    · simp [hexplored, Guard.not_mem_of_enter_entered henter]
    · simp [hvisiting]
    · simp only [hvisiting, List.mem_cons, Bool.and_eq_true, Bool.not_eq_true', decide_eq_false_iff_not] at hu ⊢
      exact ⟨hu.1, fun hmem => hu.2 (Or.inr hmem)⟩
  show g.iterations + _ + _ ≤ w.guard.iterations + _ + 1
  omega

/-- An attempt that is refused as a cycle only counts. -/
theorem spent_cycle (henter : w.guard.enter leaf = (.cycle, g)) :
    m.spent S { w with guard := g } ≤ m.spent S w + 1 := by
  have hiterations : g.iterations ≤ w.guard.iterations + 1 := iterations_le_of_enter (congrArg Prod.snd henter)
  have hvisiting : g.visiting = w.guard.visiting := (Guard.visiting_of_enter_cycle henter).1
  have hpending : m.pending S { w with guard := g } = m.pending S w := by
    unfold pending
    rw [hvisiting]
  show g.iterations + _ ≤ w.guard.iterations + _ + 1
  omega

theorem Within.enter (h : Within S w) (hleaf : leaf ∈ S) (henter : w.guard.enter leaf = (.entered, g)) :
    Within S { w with guard := g } := by
  obtain ⟨hvisiting, hdepth⟩ := Guard.enter_entered henter
  have hlimits := Guard.limits_enter w.guard leaf
  rw [henter] at hlimits
  constructor
  case visiting =>
    intro u hu
    rw [hvisiting] at hu
    rcases List.mem_cons.1 hu with rfl | hu
    · exact hleaf
    · exact h.visiting u hu
  case depth =>
    show g.depth = g.visiting.toList.length
    rw [hvisiting, hdepth, h.depth, List.length_cons]
  case maxDepth => exact hlimits.1.trans h.maxDepth
  case maxIterations => exact hlimits.2.trans h.maxIterations

theorem Within.cycle (h : Within S w) (henter : w.guard.enter leaf = (.cycle, g)) : Within S { w with guard := g } := by
  obtain ⟨hvisiting, hdepth⟩ := Guard.visiting_of_enter_cycle henter
  have hlimits := Guard.limits_enter w.guard leaf
  rw [henter] at hlimits
  constructor
  case visiting => exact fun u hu => h.visiting u (hvisiting ▸ hu)
  case depth =>
    show g.depth = g.visiting.toList.length
    rw [hvisiting, hdepth, h.depth]
  case maxDepth => exact hlimits.1.trans h.maxDepth
  case maxIterations => exact hlimits.2.trans h.maxIterations

/-- Leaving the type entered last, whose successors have been gone through. -/
theorem Within.leave {keys : List Ty} (h : Within S w) (hkeys : w.guard.visiting.toList = leaf :: keys) :
    Within S { w with guard := w.guard.leave leaf, explored := w.explored.insert leaf } ∧
      m.spent S { w with guard := w.guard.leave leaf, explored := w.explored.insert leaf } ≤ m.spent S w := by
  obtain ⟨hvisiting, hdepth⟩ := Guard.visiting_leave hkeys
  obtain ⟨hiterations, hmaxDepth, hmaxIterations⟩ := Guard.counts_leave w.guard leaf
  refine ⟨?_, ?_⟩
  · constructor
    case visiting =>
      intro u hu
      apply h.visiting u
      rw [hkeys]
      exact List.mem_cons_of_mem _ (hvisiting ▸ hu)
    case depth =>
      show (w.guard.leave leaf).depth = (w.guard.leave leaf).visiting.toList.length
      rw [hvisiting, hdepth, h.depth, hkeys, List.length_cons, Nat.add_sub_cancel]
    case maxDepth => exact hmaxDepth.trans h.maxDepth
    case maxIterations => exact hmaxIterations.trans h.maxIterations
  · have hpending : m.pending S { w with guard := w.guard.leave leaf, explored := w.explored.insert leaf } ≤
        m.pending S w := by
      apply pending_le
      intro u hu
      unfold Settled at hu ⊢
      rw [hvisiting, KeySet.contains_insert]
      rw [hkeys, List.mem_cons] at hu
      rcases hu with hu | rfl | hu
      · exact Or.inl (by rw [hu, Bool.or_true])
      · exact Or.inl (by simp)
      · exact Or.inr hu
    show (w.guard.leave leaf).iterations + _ ≤ w.guard.iterations + _
    omega

end

/-! ## Visiting -/

variable {t : Ty} {next : Ty → FullWalk → Bool × FullWalk}

/-- A visit with `room` below it costs one attempt and what was pending, and finds only what there is. -/
def Frugal (m : Model) (defining : List DeclId) (S : List Ty) (t : Ty) (room : Nat)
    (visit : Ty → FullWalk → Bool × FullWalk) : Prop :=
  ∀ leaf d w, leaf.head? = some d → m.FullReach defining t leaf → Within S w → w.path = [] →
    w.guard.visiting.toList.length + room = Limits.supertypeWalkDepth → m.spent S w < Limits.walkIterations →
    Ends (fun w' => Within S w' ∧ m.spent S w' ≤ m.spent S w + 1) (m.Found defining leaf) (visit leaf w)

/-- A search through the types `all` under way that has `c` to spend, one for each type in `vs` still to come. -/
structure Spending (m : Model) (defining : List DeclId) (S : List Ty) (c : Nat) (w₀ : FullWalk) (all vs : List Ty)
    (w : FullWalk) : Prop where
  searching : Searching m defining w₀ all vs w
  within : Within S w
  spent : m.spent S w + vs.length ≤ c
  subset : ∀ v ∈ vs, v ∈ all

theorem Spending.visit {T : FullWalk → Prop} {room c : Nat} {w₀ : FullWalk} {all vs : List Ty} {v : Ty}
    (hsettles : Settles m defining T next) (hnext : Frugal m defining S t room next)
    (hreach : ∀ v ∈ all, m.FullReach defining t v) (hpath : w₀.path = [])
    (hroom : w₀.guard.visiting.toList.length + room = Limits.supertypeWalkDepth) (hc : c ≤ Limits.walkIterations)
    (h : Spending m defining S c w₀ all (v :: vs) w) :
    Ends (Spending m defining S c w₀ all vs) (fun w' => ∃ v ∈ all, m.Found defining v w') (next v w) := by
  obtain ⟨d, hd⟩ := h.searching.heads v List.mem_cons_self
  have hv := h.subset v List.mem_cons_self
  have hspent := h.spent
  rw [List.length_cons] at hspent
  have hfrugal := hnext v d w hd (hreach v hv) h.within (h.searching.passes.path.trans hpath)
    (by rw [h.searching.passes.visiting]; exact hroom) (by omega)
  refine ((h.searching.visit hsettles).and hfrugal).imp ?_ fun w' hw => ⟨v, hv, hw.2⟩
  intro w' hw
  obtain ⟨hsearching, hwithin, hcost⟩ := hw
  constructor
  case searching => exact hsearching
  case within => exact hwithin
  case spent => omega
  case subset => exact fun u hu => h.subset u (List.mem_cons_of_mem _ hu)

/-- The search through the leaves of a type, at its start. -/
theorem Spending.start
    (hleaves : t.leaves.length + (S.map fun u => (m.fullSuccessors u).length).sum < Limits.walkIterations) :
    Spending m defining S Limits.walkIterations { guard := .ofProfile .supertypeWalk, pool := m.types } t.leaves t.leaves
      { guard := .ofProfile .supertypeWalk, pool := m.types } := by
  constructor
  case searching => exact .start (fun v hv => Ty.exists_head?_of_mem_leaves hv) _
  case within => exact ⟨List.forall_mem_nil _, rfl, rfl, rfl⟩
  case spent =>
    have hpending : m.pending S { guard := .ofProfile .supertypeWalk, pool := m.types } ≤
        ((S.filter fun _ => true).map fun u => (m.fullSuccessors u).length).sum := sum_filter_le fun _ _ _ => rfl
    rw [List.filter_eq_self.2 fun _ _ => rfl] at hpending
    show 0 + _ + _ ≤ _
    omega
  case subset => exact fun v hv => hv

/-- Within the budget the guard refuses nothing but a cycle. -/
theorem Within.entered_or_cycle {room : Nat} (h : Within S w)
    (hroom : w.guard.visiting.toList.length + (room + 1) = Limits.supertypeWalkDepth)
    (hspent : m.spent S w < Limits.walkIterations) (leaf : Ty) :
    (w.guard.enter leaf).1 = .entered ∨ (w.guard.enter leaf).1 = .cycle := by
  apply Guard.entered_or_cycle leaf
  · rw [h.maxIterations]
    exact Nat.lt_of_le_of_lt (Nat.le_add_right _ _) hspent
  · rw [h.maxDepth, h.depth]
    omega
  · have : Limits.supertypeWalkDepth < Limits.visitingSize := by decide
    omega

/-- The search through the supertypes of a type that has been entered. -/
theorem firstFound_spending {room : Nat} {T : FullWalk → Prop} {g : Guard Ty}
    (hS : ∀ u e, m.FullReach defining t u → u.head? = some e → u ∈ S) (hsettles : Settles m defining T next)
    (hnext : Frugal m defining S t room next) (hd : leaf.head? = some d) (hmem : d ∉ defining)
    (hreach : m.FullReach defining t leaf) (hwithin : Within S w) (hpath : w.path = [])
    (hroom : w.guard.visiting.toList.length + (room + 1) = Limits.supertypeWalkDepth)
    (hspent : m.spent S w < Limits.walkIterations) (hexplored : w.explored.contains leaf = false)
    (henter : w.guard.enter leaf = (.entered, g)) :
    Ends (Spending m defining S (m.spent S w + 1) { w with guard := g } (m.fullSuccessors leaf) [])
      (fun w' => ∃ v ∈ m.fullSuccessors leaf, m.Found defining v w')
      (firstFound (m.fullVisitSupertype next leaf d) (m.supertypesOf d) { w with guard := g }) := by
  have hleaf := hS leaf d hreach hd
  have hvisiting := (Guard.enter_entered henter).1
  have hcost := spent_enter (m := m) hleaf hexplored henter
  refine fullVisitSupertype_ends (fun vs w' pool hw => ?_) (fun v vs w' hw => ?_) hd
    ⟨.start (fun v hv => exists_head?_of_mem_fullSuccessors hv) _, hwithin.enter hleaf henter, hcost, fun v hv => hv⟩
  · constructor
    case searching =>
      exact ⟨hw.searching.passes.trans (passes_of_eq rfl rfl rfl), hw.searching.heads, hw.searching.settled⟩
    case within => exact ⟨hw.within.visiting, hw.within.depth, hw.within.maxDepth, hw.within.maxIterations⟩
    case spent => exact hw.spent
    case subset => exact hw.subset
  · refine hw.visit hsettles hnext (fun v hv => ?_) hpath ?_ hspent
    · exact hreach.trans (fullReach_of_mem_fullSuccessors hd hmem hv)
    · show g.visiting.toList.length + room = _
      rw [hvisiting, List.length_cons]
      omega

theorem fullVisit_frugal {room : Nat} {T : FullWalk → Prop}
    (hS : ∀ u e, m.FullReach defining t u → u.head? = some e → u ∈ S) (hsettles : Settles m defining T next)
    (hnext : Frugal m defining S t room next) : Frugal m defining S t (room + 1) (m.fullVisit defining next) := by
  intro leaf d w hd hreach hwithin hpath hroom hspent
  rw [fullVisit, hd]
  show Ends _ _ (fullVisitHead ..)
  by_cases hmem : d ∈ defining
  · rw [fullVisitHead, if_pos hmem, hpath]
    exact ⟨leaf, d, .refl, hd, hmem, rfl⟩
  rcases @fullVisitHead_cases m defining next leaf d hmem w with
    ⟨-, heq⟩ | ⟨hexplored, ⟨g, henter, heq⟩ | ⟨g, henter, heq⟩ | ⟨hentered, hcycle, -⟩⟩
  · rw [heq]
    exact ⟨hwithin, Nat.le_succ _⟩
  · rw [heq]
    exact ⟨hwithin.cycle henter, spent_cycle henter⟩
  · have hsearch := firstFound_spending hS hsettles hnext hd hmem hreach hwithin hpath hroom hspent hexplored henter
    rw [heq]
    rcases hfound : firstFound (m.fullVisitSupertype next leaf d) (m.supertypesOf d) { w with guard := g } with
      ⟨_ | _, w'⟩
    · rw [hfound] at hsearch
      have hkeys : w'.guard.visiting.toList = leaf :: w.guard.visiting.toList :=
        hsearch.searching.passes.visiting.trans (Guard.enter_entered henter).1
      obtain ⟨hleave, hle⟩ := hsearch.within.leave (m := m) hkeys
      exact ⟨hleave, Nat.le_trans hle hsearch.spent⟩
    · rw [hfound] at hsearch
      obtain ⟨v, hv, u, e, huv, hu, he, hlast⟩ := hsearch
      refine ⟨u, e, (fullReach_of_mem_fullSuccessors hd hmem hv).trans huv, hu, he, ?_⟩
      show (d :: w'.path).getLast? = some e
      rw [List.getLast?_cons, hlast]
      rfl
  · rcases hwithin.entered_or_cycle hroom hspent leaf with h | h
    · exact absurd h hentered
    · exact absurd h hcycle

/-- Down to the last level there is room for every type that can be reached. -/
theorem fullWalk_frugal (hS : ∀ u e, m.FullReach defining t u → u.head? = some e → u ∈ S)
    (hfew : S.length < Limits.supertypeWalkDepth) (room : Nat) : Frugal m defining S t room (m.fullWalk defining room) := by
  induction room with
  | zero =>
    intro leaf d w _ _ hwithin _ hroom _
    have := hwithin.length_le
    omega
  | succ room ih => exact fullVisit_frugal hS (fullWalk_settles room) ih

/-! ## The answer -/

theorem nodup_eraseDups (ds : List DeclId) : ds.eraseDups.Nodup := by
  rw [← distinct_eq]
  exact nodup_distinct ds

theorem head?_fullRecursion (h : (m.fullRecursionWalk defining t).2.path.getLast? = some d) :
    (m.fullRecursion defining t).head? = some d := by
  rw [← List.head?_reverse] at h
  rw [fullRecursion]
  cases hpath : (m.fullRecursionWalk defining t).2.path.reverse with
  | nil => simp [hpath] at h
  | cons e es =>
    rw [hpath] at h
    rw [List.eraseDups_cons]
    exact h

/-- **What is found is there**: within the limits, the first declaration of an answer is one that is being defined and
heads a type that a chain of steps reaches. -/
theorem exists_fullReach_of_fullRecursion_ne_nil (hS : ∀ u e, m.FullReach defining t u → u.head? = some e → u ∈ S)
    (hfew : S.length < Limits.supertypeWalkDepth)
    (hleaves : t.leaves.length + (S.map fun u => (m.fullSuccessors u).length).sum < Limits.walkIterations)
    (h : m.fullRecursion defining t ≠ []) :
    ∃ u d, m.FullReach defining t u ∧ u.head? = some d ∧ d ∈ defining ∧ (m.fullRecursion defining t).head? = some d := by
  have hsearch : Ends (Spending m defining S Limits.walkIterations
        { guard := .ofProfile .supertypeWalk, pool := m.types } t.leaves [])
      (fun w' => ∃ v ∈ t.leaves, m.Found defining v w') (m.fullRecursionWalk defining t) := by
    rw [fullRecursionWalk, Ty.searchLeaves_eq]
    refine firstFound_ends (fun v vs w hw => ?_) (.start hleaves)
    exact hw.visit (fullWalk_settles _) (fullWalk_frugal hS hfew _) (fun v hv => fullReach_of_mem_leaves hv) rfl
      (Nat.zero_add _) (Nat.le_refl _)
  rcases hwalk : m.fullRecursionWalk defining t with ⟨_ | _, w⟩
  · rw [hwalk] at hsearch
    refine absurd (fullRecursion_eq_nil_iff.2 ?_) h
    rw [hwalk]
    exact hsearch.searching.passes.path
  · rw [hwalk] at hsearch
    obtain ⟨v, hv, u, d, huv, hu, hd, hlast⟩ := hsearch
    refine ⟨u, d, (fullReach_of_mem_leaves hv).trans huv, hu, hd, head?_fullRecursion ?_⟩
    rw [hwalk]
    exact hlast

/-- **Full recursion is found exactly**: never missed, and within the limits never made up. -/
theorem fullRecursion_exact (m : Model) (defining : List DeclId) (t : Ty) :
    (m.fullRecursion defining t = [] → ∀ u d, m.FullReach defining t u → u.head? = some d → d ∉ defining) ∧
      ∀ S : List Ty, (∀ u d, m.FullReach defining t u → u.head? = some d → u ∈ S) → S.length ≤ 99 →
        t.leaves.length + (S.map fun u => (m.fullSuccessors u).length).sum ≤ 99999 → m.fullRecursion defining t ≠ [] →
          (∃ u d, m.FullReach defining t u ∧ u.head? = some d ∧ d ∈ defining ∧
            (m.fullRecursion defining t).head? = some d) ∧ (m.fullRecursion defining t).Nodup := by
  refine ⟨fun h u d hreach hd => not_mem_of_fullRecursion_eq_nil h hreach hd, fun S hS hfew hleaves h => ⟨?_, ?_⟩⟩
  · refine exists_fullReach_of_fullRecursion_ne_nil hS ?_ ?_ h
    · show S.length < 100
      omega
    · show _ < 100000
      omega
  · exact nodup_eraseDups _

/-- A model with two interfaces, of numbers 2 and 3, each of which satisfies the other. -/
def ring : Model :=
  let interface (name : String) (d : DeclId) : Declaration :=
    { name, kind := .interfaceDecl, package := ⟨0⟩, satisfied := [.applied d []] }
  (((Model.new "lang").add (interface "A" ⟨3⟩)).2.add (interface "B" ⟨2⟩)).2

theorem fullRecursion_exact_ring :
    (∃ u d, ring.FullReach [⟨2⟩] (.applied ⟨3⟩ []) u ∧ u.head? = some d ∧ d ∈ [⟨2⟩] ∧
      (ring.fullRecursion [⟨2⟩] (.applied ⟨3⟩ [])).head? = some d) ∧
      (ring.fullRecursion [⟨2⟩] (.applied ⟨3⟩ [])).Nodup := by
  have hclosed : ∀ u ∈ [Ty.applied ⟨2⟩ [], .applied ⟨3⟩ []], ∀ v ∈ ring.fullSuccessors u,
      v ∈ [Ty.applied ⟨2⟩ [], .applied ⟨3⟩ []] := by decide
  refine (fullRecursion_exact ring [⟨2⟩] (.applied ⟨3⟩ [])).2 [.applied ⟨2⟩ [], .applied ⟨3⟩ []] (fun u d hreach hd => ?_)
    (by decide) (by decide) (by decide)
  have hleaves := leaves_of_fullReach (P := (· ∈ [Ty.applied ⟨2⟩ [], .applied ⟨3⟩ []])) hclosed (by decide) hreach
  rw [Ty.leaves_eq_of_head? hd] at hleaves
  exact hleaves u (List.mem_singleton_self u)

end SemCheck.Model
