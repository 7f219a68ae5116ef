import SemCheck.Proofs.Alias.Expansion
import SemCheck.Proofs.Guard.Logged
import SemCheck.Proofs.Guard.Scopes

/-!
# Expanding aliases with a guard

The walk of `resolveWithin` uses its guard in nested scopes only (`scoped_resolveWithin`), and so gives it back as it was,
but for the count of attempts. Its twin `resolveLogged` keeps what the guard has answered and is otherwise the same
(`guard_resolveLogged`).

Main statement: if the ranks of aliases fall and there is room for them, a walk that ends within the limits has been let
in everywhere, and has done the same as the expansion without a guard (`RankedWith.resolveLogged_endsAs`). The count of
attempts is known at the end only, so the argument goes from the end of a walk back to its beginning (`Ready.back`).
-/

namespace SemCheck

/-! ## Rebuilding -/

namespace Ty

variable {σ : Type} {node : Ty → σ → Ty × σ}

theorem rebuild_applied (d : DeclId) (args : List Ty) (s : σ) : rebuild node (.applied d args) s =
    node (.applied d (rebuildAll node args s).1) (rebuildAll node args s).2 := rfl

theorem rebuild_union (ms : List Ty) (s : σ) :
    rebuild node (.union ms) s = node (.union (rebuildAll node ms s).1) (rebuildAll node ms s).2 := rfl

theorem rebuild_intersection (ms : List Ty) (s : σ) : rebuild node (.intersection ms) s =
    node (.intersection (rebuildAll node ms s).1) (rebuildAll node ms s).2 := rfl

/-- What every step keeps, rebuilding keeps. -/
theorem rebuild_keeps {I : σ → Prop} (hnode : ∀ t s, I s → I (node t s).2) (t : Ty) {s : σ} (h : I s) :
    I (rebuild node t s).2 := by
  have hall {ts : List Ty} (hts : ∀ t ∈ ts, ∀ s, I s → I (rebuild node t s).2) {s : σ} (h : I s) :
      I (rebuildAll node ts s).2 := by
    induction ts generalizing s with
    | nil => exact h
    | cons t ts ih => exact ih (fun u hu => hts u (List.mem_cons_of_mem _ hu)) (hts t List.mem_cons_self s h)
  induction t generalizing s with
  | nothing | unknown | param => exact hnode _ _ h
  | applied d args ih => exact hnode _ _ (hall (fun u hu s => ih u hu) h)
  | union ms ih => exact hnode _ _ (hall (fun u hu s => ih u hu) h)
  | intersection ms ih => exact hnode _ _ (hall (fun u hu s => ih u hu) h)

/-- Steps that agree as long as `I` holds, which they keep, rebuild alike. -/
theorem rebuild_agree {node' : Ty → σ → Ty × σ} {I : σ → Prop} (hnode : ∀ t s, I s → node t s = node' t s)
    (hkeeps : ∀ t s, I s → I (node' t s).2) (t : Ty) {s : σ} (h : I s) : rebuild node t s = rebuild node' t s := by
  have hkeepsAll {ts : List Ty} {s : σ} (h : I s) : I (rebuildAll node' ts s).2 := by
    induction ts generalizing s with
    | nil => exact h
    | cons t ts ih => exact ih (rebuild_keeps hkeeps t h)
  have hall {ts : List Ty} (hts : ∀ t ∈ ts, ∀ s, I s → rebuild node t s = rebuild node' t s) {s : σ} (h : I s) :
      rebuildAll node ts s = rebuildAll node' ts s := by
    induction ts generalizing s with
    | nil => rfl
    | cons t ts ih =>
      rw [rebuildAll, rebuildAll, hts t List.mem_cons_self s h]
      dsimp only
      rw [ih (fun u hu => hts u (List.mem_cons_of_mem _ hu)) (rebuild_keeps hkeeps t h)]
  induction t generalizing s with
  | nothing | unknown | param => exact hnode _ _ h
  | applied d args ih =>
    rw [rebuild_applied, rebuild_applied, hall (fun u hu s => ih u hu) h]
    exact hnode _ _ (hkeepsAll h)
  | union ms ih =>
    rw [rebuild_union, rebuild_union, hall (fun u hu s => ih u hu) h]
    exact hnode _ _ (hkeepsAll h)
  | intersection ms ih =>
    rw [rebuild_intersection, rebuild_intersection, hall (fun u hu s => ih u hu) h]
    exact hnode _ _ (hkeepsAll h)

theorem rebuild_normal (hnode : ∀ t s, (∀ u ∈ t.parts, u.Normal) → (node t s).1.Normal) (t : Ty) (s : σ) :
    (rebuild node t s).1.Normal := by
  have hall {ts : List Ty} (hts : ∀ t ∈ ts, ∀ s, (rebuild node t s).1.Normal) (s : σ) :
      ∀ u ∈ (rebuildAll node ts s).1, u.Normal := by
    induction ts generalizing s with
    | nil => exact fun u hu => absurd hu List.not_mem_nil
    | cons t ts ih =>
      rintro u (_ | ⟨_, hu⟩)
      · exact hts t List.mem_cons_self s
      · exact ih (fun u hu => hts u (List.mem_cons_of_mem _ hu)) _ u hu
  induction t generalizing s with
  | nothing | unknown | param => exact hnode _ _ fun u hu => absurd hu List.not_mem_nil
  | applied d args ih => exact hnode _ _ (hall ih s)
  | union ms ih => exact hnode _ _ (hall ih s)
  | intersection ms ih => exact hnode _ _ (hall ih s)

/-- If steps that end well began well, rebuilding does so too. -/
theorem rebuild_back {J : σ → Prop} (hback : ∀ t s, J (node t s).2 → J s) (t : Ty) {s : σ}
    (hend : J (rebuild node t s).2) : J s :=
  Classical.byContradiction fun hs =>
    rebuild_keeps (I := fun s => ¬ J s) (fun t s hs hend => hs (hback t s hend)) t hs hend

/-- A run that ends well has the result `u` and keeps `I`. -/
def EndsAs (I J : σ → Prop) (u : Ty) (s : σ) (r : Ty × σ) : Prop := J r.2 → r.1 = u ∧ (I s → I r.2)

/-- If each part is rebuilt to its image in runs that end well, then so are all. -/
theorem rebuildAll_endsAs {I J : σ → Prop} {f : Ty → Ty} {ts : List Ty} (hback : ∀ t s, J (node t s).2 → J s)
    (h : ∀ t ∈ ts, ∀ s, EndsAs I J (f t) s (rebuild node t s)) {s : σ} (hend : J (rebuildAll node ts s).2) :
    (rebuildAll node ts s).1 = ts.map f ∧ (I s → I (rebuildAll node ts s).2) := by
  suffices J s ∧ (rebuildAll node ts s).1 = ts.map f ∧ (I s → I (rebuildAll node ts s).2) from this.2
  induction ts generalizing s with
  | nil => exact ⟨hend, rfl, id⟩
  | cons t ts ih =>
    obtain ⟨hmiddle, hts, hkeepsAll⟩ := ih (fun u hu => h u (List.mem_cons_of_mem _ hu)) hend
    obtain ⟨ht, hkeeps⟩ := h t List.mem_cons_self s hmiddle
    exact ⟨rebuild_back hback t hmiddle, congrArg₂ List.cons ht hts, fun hs => hkeepsAll (hkeeps hs)⟩

end Ty

namespace Model

variable {m : Model} {rank : DeclId → Nat} {allows : DeclId → Nat → Prop} {b n : Nat} {d : DeclId} {args : List Ty}
  {t target : Ty}

/-! ## What a resolution keeps -/

theorem resolveNode_of_none {expand : Ty → Guard DeclId → Ty × Guard DeclId} (h : m.aliasTarget? d = none)
    (args : List Ty) (g : Guard DeclId) : m.resolveNode expand (.applied d args) g = (.applied d args, g) := by
  rw [resolveNode, h]

/-- An alias is applied in a scope of the guard; what the guard refuses is left as it is. -/
theorem resolveNode_of_some {expand : Ty → Guard DeclId → Ty × Guard DeclId} (h : m.aliasTarget? d = some target)
    (args : List Ty) (g : Guard DeclId) :
    m.resolveNode expand (.applied d args) g =
      ((g.scope d (expand (target.substitute (m.argumentMap d args)))).1.toOption.getD (.applied d args),
        (g.scope d (expand (target.substitute (m.argumentMap d args)))).2) := by
  simp only [resolveNode, h]
  split <;> next heq => rw [heq]; rfl

/-- What is resolved is normal, whatever the guard makes of it. -/
theorem normal_resolveWithin (hnormal : ∀ d target, m.aliasTarget? d = some target → target.Normal) (room : Nat)
    (t : Ty) (g : Guard DeclId) : (m.resolveWithin room t g).1.Normal := by
  have hrebuild {expand : Ty → Guard DeclId → Ty × Guard DeclId} (hexpand : ∀ t g, t.Normal → (expand t g).1.Normal)
      (t : Ty) (g : Guard DeclId) : (Ty.rebuild (m.resolveNode expand) t g).1.Normal := by
    refine Ty.rebuild_normal (fun t g hparts => ?_) t g
    cases t with
    | nothing => exact .nothing
    | unknown n => exact .unknown n
    | param p => exact .param p
    | union ms => exact .unite hparts
    | intersection ms => exact .intersect hparts
    | applied d args =>
      cases htarget : m.aliasTarget? d with
      | none =>
        rw [resolveNode_of_none htarget]
        exact .applied d hparts
      | some target =>
        rw [resolveNode_of_some htarget]
        rcases Guard.scope_cases g d (expand (target.substitute (m.argumentMap d args))) with
          ⟨g₁, -, hscope⟩ | ⟨-, hscope⟩
        · rw [hscope]
          exact hexpand _ _ (normal_fill (hnormal d target htarget) hparts)
        · rw [hscope]
          exact .applied d hparts
  induction room generalizing t g with
  | zero => exact hrebuild (fun _ _ => id) t g
  | succ room ih => exact hrebuild (fun t g _ => ih t g) t g

theorem scoped_resolveNode {expand : Ty → Guard DeclId → Ty × Guard DeclId}
    (hexpand : ∀ t g, Guard.Scoped g (expand t g).2) (t : Ty) (g : Guard DeclId) :
    g.Scoped (m.resolveNode expand t g).2 := by
  cases t with
  | applied d args =>
    cases htarget : m.aliasTarget? d with
    | none =>
      rw [resolveNode_of_none htarget]
      exact .refl g
    | some target =>
      rw [resolveNode_of_some htarget]
      exact .scope (hexpand _) g d
  | _ => exact .refl g

theorem scoped_rebuild {expand : Ty → Guard DeclId → Ty × Guard DeclId}
    (hexpand : ∀ t g, Guard.Scoped g (expand t g).2) (t : Ty) (g : Guard DeclId) :
    g.Scoped (Ty.rebuild (m.resolveNode expand) t g).2 :=
  Ty.rebuild_keeps (fun t g' h => h.trans (scoped_resolveNode hexpand t g')) t (.refl g)

/-- A resolution uses its guard in nested scopes only. -/
theorem scoped_resolveWithin (m : Model) (room : Nat) (t : Ty) (g : Guard DeclId) :
    g.Scoped (m.resolveWithin room t g).2 := by
  induction room generalizing t g with
  | zero => exact scoped_rebuild (fun _ g => .refl g) t g
  | succ room ih => exact scoped_rebuild ih t g

/-! ## Resolution that keeps the answers -/

variable (m) in
/-- `resolveNode` with the answers kept. -/
def resolveNodeLogged (expand : Ty → Guard.Logged DeclId → Ty × Guard.Logged DeclId) :
    Ty → Guard.Logged DeclId → Ty × Guard.Logged DeclId
  | .applied d args, l =>
    match m.aliasTarget? d with
    | none => (.applied d args, l)
    | some target =>
      match l.scope d (expand (target.substitute (m.argumentMap d args))) with
      | (.ok resolved, l) => (resolved, l)
      | (.error _, l) => (.applied d args, l)
  | .union members, l => (.unite members, l)
  | .intersection members, l => (.intersect members, l)
  | t, l => (t, l)

variable (m) in
/-- `resolveWithin` with the answers kept. -/
def resolveLogged : Nat → Ty → Guard.Logged DeclId → Ty × Guard.Logged DeclId
  | 0 => Ty.rebuild (m.resolveNodeLogged fun t l => (t, l))
  | room + 1 => Ty.rebuild (m.resolveNodeLogged (resolveLogged room))

variable (m) in
/-- The answers of the guard to the attempts to enter an alias, in order, while a type is resolved. -/
def resolveAnswers (t : Ty) : List Entry :=
  (m.resolveLogged Limits.aliasResolutionDepth t ⟨.ofProfile .aliasResolution, []⟩).2.answers.reverse

variable {l : Guard.Logged DeclId} {expand : Ty → Guard.Logged DeclId → Ty × Guard.Logged DeclId}
  {expand' : Ty → Guard DeclId → Ty × Guard DeclId}

theorem guard_resolveNodeLogged (h : ∀ t l, ((expand t l).1, (expand t l).2.guard) = expand' t l.guard) (t : Ty)
    (l : Guard.Logged DeclId) :
    ((m.resolveNodeLogged expand t l).1, (m.resolveNodeLogged expand t l).2.guard) =
      m.resolveNode expand' t l.guard := by
  cases t with
  | applied d args =>
    cases htarget : m.aliasTarget? d with
    | none => simp only [resolveNodeLogged, resolveNode, htarget]
    | some target =>
      have hscope := l.guard_scope d (expand (target.substitute (m.argumentMap d args)))
      simp only [h] at hscope
      simp only [resolveNodeLogged, resolveNode, htarget, ← hscope]
      rcases l.scope d (expand (target.substitute (m.argumentMap d args))) with ⟨_ | _, l'⟩ <;> rfl
  | _ => rfl

/-- **Keeping the answers changes nothing**. -/
theorem guard_resolveLogged (m : Model) (room : Nat) (t : Ty) (l : Guard.Logged DeclId) :
    ((m.resolveLogged room t l).1, (m.resolveLogged room t l).2.guard) = m.resolveWithin room t l.guard := by
  induction room generalizing t l with
  | zero => exact Ty.rebuild_map Guard.Logged.guard (guard_resolveNodeLogged fun _ _ => rfl) t l
  | succ room ih => exact Ty.rebuild_map Guard.Logged.guard (guard_resolveNodeLogged ih) t l

theorem resolveNodeLogged_of_none (h : m.aliasTarget? d = none) (args : List Ty) (l : Guard.Logged DeclId) :
    m.resolveNodeLogged expand (.applied d args) l = (.applied d args, l) := by
  simp only [resolveNodeLogged, h]

/-- An alias that is let in. -/
theorem resolveNodeLogged_of_entered (htarget : m.aliasTarget? d = some target) {g : Guard DeclId}
    (henter : l.guard.enter d = (.entered, g)) (args : List Ty) :
    let inner := expand (target.substitute (m.argumentMap d args)) ⟨g, .entered :: l.answers⟩
    m.resolveNodeLogged expand (.applied d args) l = (inner.1, { inner.2 with guard := inner.2.guard.leave d }) := by
  simp only [resolveNodeLogged, htarget, Guard.Logged.scope_of_entered henter]

/-! ### Every attempt has its answer -/

theorem counts_resolveNodeLogged (hexpand : ∀ t l, l.Counts → (expand t l).2.Counts) (t : Ty)
    (l : Guard.Logged DeclId) (h : l.Counts) : (m.resolveNodeLogged expand t l).2.Counts := by
  cases t with
  | applied d args =>
    cases htarget : m.aliasTarget? d with
    | none =>
      rw [resolveNodeLogged_of_none htarget]
      exact h
    | some target =>
      have hscope := h.scope d (hexpand (target.substitute (m.argumentMap d args)))
      simp only [resolveNodeLogged, htarget]
      split <;> next heq =>
        rw [heq] at hscope
        exact hscope
  | _ => exact h

theorem counts_resolveLogged (m : Model) (room : Nat) (t : Ty) (h : l.Counts) : (m.resolveLogged room t l).2.Counts := by
  induction room generalizing t l with
  | zero => exact Ty.rebuild_keeps (counts_resolveNodeLogged fun _ _ => id) t h
  | succ room ih => exact Ty.rebuild_keeps (counts_resolveNodeLogged fun t _ => ih t) t h

/-! ## Within the limits -/

/-- A guard within its limits that has room for expansions inside one another of aliases with ranks below `b`. -/
structure Ready (rank : DeclId → Nat) (b room : Nat) (g : Guard DeclId) : Prop where
  visiting : ∀ d ∈ g.visiting.toList, b ≤ rank d
  depth : g.depth + room ≤ g.maxDepth
  size : g.visiting.toList.length + room ≤ Limits.visitingSize
  iterations : g.iterations ≤ g.maxIterations
  ceiling : g.maxIterations < Guard.iterationCeiling

variable {room : Nat} {g g' : Guard DeclId}

theorem Ready.of_kept (h : Ready rank b room g') (hkept : g.Kept g') : Ready rank b room g where
  visiting := hkept.visiting ▸ h.visiting
  depth := by
    rw [← hkept.depth, ← hkept.maxDepth]
    exact h.depth
  size := hkept.visiting ▸ h.size
  iterations := by
    rw [← hkept.maxIterations]
    exact hkept.iterations _ h.ceiling h.iterations
  ceiling := hkept.maxIterations ▸ h.ceiling

/-- If a scope for an alias of a rank below `b` ends within the limits, the alias has been let in. -/
theorem Ready.of_scope {α : Type} {body : Guard DeclId → α × Guard DeclId} (hbody : ∀ g, Guard.Scoped g (body g).2)
    (hrank : rank d < b) (h : Ready rank b (room + 1) (g.scope d body).2) :
    ∃ g₁, g.enter d = (.entered, g₁) ∧ Ready rank (rank d) room (body g₁).2 := by
  have hbefore := h.of_kept (Guard.Scoped.scope hbody g d).kept
  have hlimits := Guard.limits_enter g d
  rcases Guard.scope_cases g d body with ⟨g₁, henter, hscope⟩ | ⟨hne, hscope⟩
  · refine ⟨g₁, henter, ?_⟩
    rw [hscope] at h
    rw [henter] at hlimits
    obtain ⟨hvisiting, hdepth⟩ := Guard.enter_entered henter
    obtain ⟨hiterations, -, hmaxIterations⟩ := Guard.counts_leave (body g₁).2 d
    have hkept := (hbody g₁).kept
    constructor
    · rw [hkept.visiting, hvisiting]
      rintro e (_ | ⟨_, he⟩)
      · exact Nat.le_refl _
      · exact Nat.le_of_lt (Nat.lt_of_lt_of_le hrank (hbefore.visiting e he))
    · rw [hkept.depth, hkept.maxDepth, hdepth, hlimits.1, Nat.add_assoc, Nat.add_comm 1]
      exact hbefore.depth
    · rw [hkept.visiting, hvisiting, List.length_cons, Nat.add_assoc, Nat.add_comm 1]
      exact hbefore.size
    · rw [← hiterations, ← hmaxIterations]
      exact h.iterations
    · rw [hkept.maxIterations, hlimits.2]
      exact hbefore.ceiling
  · rw [hscope] at h
    have hcount := h.iterations
    rw [hlimits.2] at hcount
    have hdepth := hbefore.depth
    have hsize := hbefore.size
    rcases Guard.entered_or_cycle d (Guard.iterations_lt_of_enter hbefore.ceiling hcount) (by omega) (by omega) with
      hentered | hcycle
    · exact absurd hentered hne
    · have hmem : d ∈ g.visiting.toList := Guard.mem_of_enter_cycle (Prod.ext hcycle rfl)
      exact absurd (hbefore.visiting d hmem) (Nat.not_le.2 hrank)

/-- A resolution that ends well does the same as a map, if it does so to the applications. -/
theorem rebuild_resolveNodeLogged {I J : Guard.Logged DeclId → Prop} {app : DeclId → List Ty → Ty}
    (hback : ∀ t l, J (m.resolveNodeLogged expand t l).2 → J l) (t : Ty)
    (happ : ∀ d args l, (Ty.applied d args).Occurs t → Ty.EndsAs I J (app d (args.map (Ty.extend .param app))) l
      (m.resolveNodeLogged expand (.applied d (args.map (Ty.extend .param app))) l)) (l : Guard.Logged DeclId) :
    Ty.EndsAs I J (t.extend .param app) l (Ty.rebuild (m.resolveNodeLogged expand) t l) := by
  induction t generalizing l with
  | nothing | unknown | param => exact fun _ => ⟨rfl, id⟩
  | applied d args ih =>
    intro hend
    rw [Ty.rebuild_applied] at hend ⊢
    obtain ⟨hargs, hkeepsArgs⟩ := Ty.rebuildAll_endsAs hback
      (fun u hu => ih u hu fun e us l hus => happ e us l (hus.of_part hu)) (hback _ _ hend)
    rw [hargs] at hend ⊢
    obtain ⟨hresult, hkeeps⟩ := happ d args _ (.refl _) hend
    exact ⟨hresult.trans (Ty.extend_applied d args).symm, fun hl => hkeeps (hkeepsArgs hl)⟩
  | union ms ih =>
    intro hend
    rw [Ty.rebuild_union] at hend ⊢
    obtain ⟨hms, hkeeps⟩ := Ty.rebuildAll_endsAs hback
      (fun u hu => ih u hu fun e us l hus => happ e us l (hus.of_part hu)) (hback _ _ hend)
    rw [hms, Ty.extend_union]
    exact ⟨rfl, hkeeps⟩
  | intersection ms ih =>
    intro hend
    rw [Ty.rebuild_intersection] at hend ⊢
    obtain ⟨hms, hkeeps⟩ := Ty.rebuildAll_endsAs hback
      (fun u hu => ih u hu fun e us l hus => happ e us l (hus.of_part hu)) (hback _ _ hend)
    rw [hms, Ty.extend_intersection]
    exact ⟨rfl, hkeeps⟩

/-- A step that ends within the limits began within them. -/
theorem Ready.back (h : ∀ t l, ((expand t l).1, (expand t l).2.guard) = expand' t l.guard)
    (hscoped : ∀ t g, Guard.Scoped g (expand' t g).2) (t : Ty) (l : Guard.Logged DeclId)
    (hend : Ready rank b room (m.resolveNodeLogged expand t l).2.guard) : Ready rank b room l.guard := by
  have hguard : (m.resolveNodeLogged expand t l).2.guard = (m.resolveNode expand' t l.guard).2 :=
    congrArg Prod.snd (guard_resolveNodeLogged h t l)
  rw [hguard] at hend
  exact hend.of_kept (scoped_resolveNode hscoped t l.guard).kept

/-- An alias of a rank below `b` has been let in if its expansion ends within the limits. -/
theorem Ready.entered (h : ∀ t l, ((expand t l).1, (expand t l).2.guard) = expand' t l.guard)
    (hscoped : ∀ t g, Guard.Scoped g (expand' t g).2) (htarget : m.aliasTarget? d = some target) (hrank : rank d < b)
    (hend : Ready rank b (room + 1) (m.resolveNodeLogged expand (.applied d args) l).2.guard) :
    ∃ g, l.guard.enter d = (.entered, g) ∧
      Ready rank (rank d) room
        (expand (target.substitute (m.argumentMap d args)) ⟨g, .entered :: l.answers⟩).2.guard := by
  have hguard : (m.resolveNodeLogged expand (.applied d args) l).2.guard =
      (m.resolveNode expand' (.applied d args) l.guard).2 := congrArg Prod.snd (guard_resolveNodeLogged h _ l)
  rw [hguard, resolveNode_of_some htarget] at hend
  obtain ⟨g, henter, hready⟩ := hend.of_scope (hscoped _) hrank
  have hinner : (expand (target.substitute (m.argumentMap d args)) ⟨g, .entered :: l.answers⟩).2.guard =
      (expand' (target.substitute (m.argumentMap d args)) g).2 := congrArg Prod.snd (h _ _)
  refine ⟨g, henter, ?_⟩
  rw [hinner]
  exact hready

/-- **Nothing is refused within the limits** if ranks fall and there is room for them, and the guard makes no
difference. -/
theorem RankedWith.resolveLogged_endsAs (hranked : m.RankedWith rank allows) (hroom : b ≤ room)
    (h : m.FitsWith rank allows b t) (l : Guard.Logged DeclId) :
    Ty.EndsAs Guard.Logged.AllEntered (fun l => Ready rank b room l.guard) (m.expandWithin room t) l
      (m.resolveLogged room t l) := by
  induction room generalizing b t l with
  | zero =>
    obtain rfl := Nat.le_zero.1 hroom
    refine rebuild_resolveNodeLogged (Ready.back (fun _ _ => rfl) fun _ g => .refl g) t (fun d args l hd _ => ?_) l
    rw [resolveNodeLogged_of_none (h.aliasTarget?_eq_none hd)]
    exact ⟨rfl, id⟩
  | succ room ih =>
    have hview := m.guard_resolveLogged room
    have hscoped := scoped_resolveWithin m room
    refine rebuild_resolveNodeLogged (Ready.back hview hscoped) t (fun d args l hd hend => ?_) l
    cases htarget : m.aliasTarget? d with
    | none =>
      rw [resolveNodeLogged_of_none htarget, unfold_of_none htarget]
      exact ⟨rfl, id⟩
    | some target =>
      have hrank := (h.admits hd).2 (htarget ▸ Option.some_ne_none target)
      have hnormal := (hranked.keeps room).normal_map args
      have hplain := hranked.fits_map_expandWithin (h.mono hroom) hd
      obtain ⟨g, henter, hready⟩ := hend.entered hview hscoped htarget hrank
      obtain ⟨hresult, hkeeps⟩ := ih (Nat.le_of_lt_succ (Nat.lt_of_lt_of_le hrank hroom))
        (hranked.fits_fill htarget hnormal hplain) _ hready
      rw [resolveNodeLogged_of_entered htarget henter, unfold_of_some htarget]
      exact ⟨hresult, fun hl => hkeeps (hl.cons g)⟩

/-- **A guard within its limits makes no difference** if ranks fall and there is room for them. -/
theorem RankedWith.resolveWithin_fst (hranked : m.RankedWith rank allows) (hroom : b ≤ room)
    (h : m.FitsWith rank allows b t) (hready : Ready rank b room (m.resolveWithin room t g).2) :
    (m.resolveWithin room t g).1 = m.expandWithin room t := by
  have hview := m.guard_resolveLogged room t ⟨g, []⟩
  rw [← hview] at hready ⊢
  exact (hranked.resolveLogged_endsAs hroom h _ hready).1

end Model

end SemCheck
