import Mathlib.Logic.Relation
import SemCheck.Proofs.Guard
import SemCheck.Proofs.Search
import SemCheck.Recursion.Full

/-!
# Recursion through types is found

A *step* goes from a union or intersection to a member, and from an application or parameter reference to a supertype
of its declaration with the arguments filled in, unless the declaration is one that is being defined. If the walk finds
nothing, no chain of steps leads to a type headed by such a declaration, however the walk was cut short by types that it
had seen before (`not_mem_of_fullRecursion_eq_nil`).

A type that is left without a find is *settled*: its successors are settled or still being visited. At the end nothing is
being visited, so that what has been explored is closed under steps.
-/

namespace SemCheck

namespace Ty

theorem leaves_eq_of_head? {u : Ty} {d : DeclId} (h : u.head? = some d) : u.leaves = [u] := by
  cases u with
  | applied e args => rfl
  | param e => rfl
  | _ => exact absurd h nofun

theorem exists_head?_of_mem_leaves {t u : Ty} (h : u ∈ t.leaves) : ∃ d, u.head? = some d := by
  induction t with
  | nothing => exact absurd h List.not_mem_nil
  | unknown n => exact absurd h List.not_mem_nil
  | param d => exact ⟨d, by rw [List.mem_singleton.1 h]; rfl⟩
  | applied d args => exact ⟨d, by rw [List.mem_singleton.1 h]; rfl⟩
  | union ms ih | intersection ms ih =>
    rw [leaves, leavesOf_eq, List.mem_flatMap] at h
    obtain ⟨t, ht, h⟩ := h
    exact ih t ht h

end Ty

namespace Model

variable (m : Model) (defining : List DeclId)

/-- The leaves of the supertypes of a type, with its arguments filled in. -/
def fullSuccessors (u : Ty) : List Ty :=
  match u.head? with
  | some d => (m.supertypesOf d).flatMap fun t => (t.substitute (m.argumentMap d u.args)).leaves
  | none => []

/-- One step of a walk through types. -/
inductive FullStep : Ty → Ty → Prop
  | unionMember {t : Ty} {ms : List Ty} (h : t ∈ ms) : FullStep (.union ms) t
  | intersectionMember {t : Ty} {ms : List Ty} (h : t ∈ ms) : FullStep (.intersection ms) t
  | supertype {u t : Ty} {d : DeclId} (hd : u.head? = some d) (hnot : d ∉ defining) (ht : t ∈ m.supertypesOf d) :
    FullStep u (t.substitute (m.argumentMap d u.args))

/-- Any number of steps. -/
def FullReach : Ty → Ty → Prop := Relation.ReflTransGen (m.FullStep defining)

variable {m defining}

theorem fullReach_of_mem_leaves {t u : Ty} (h : u ∈ t.leaves) : m.FullReach defining t u := by
  induction t with
  | nothing => exact absurd h List.not_mem_nil
  | unknown n => exact absurd h List.not_mem_nil
  | param d => exact List.mem_singleton.1 h ▸ .refl
  | applied d args => exact List.mem_singleton.1 h ▸ .refl
  | union ms ih =>
    rw [Ty.leaves, Ty.leavesOf_eq, List.mem_flatMap] at h
    obtain ⟨t, ht, h⟩ := h
    exact .head (.unionMember ht) (ih t ht h)
  | intersection ms ih =>
    rw [Ty.leaves, Ty.leavesOf_eq, List.mem_flatMap] at h
    obtain ⟨t, ht, h⟩ := h
    exact .head (.intersectionMember ht) (ih t ht h)

theorem fullReach_of_mem_fullSuccessors {u v : Ty} {d : DeclId} (hd : u.head? = some d) (hnot : d ∉ defining)
    (h : v ∈ m.fullSuccessors u) : m.FullReach defining u v := by
  simp only [fullSuccessors, hd, List.mem_flatMap] at h
  obtain ⟨t, ht, h⟩ := h
  exact .head (.supertype hd hnot ht) (fullReach_of_mem_leaves h)

/-- A set of types that is closed under successors and has the leaves of a type has those of all that it reaches. -/
theorem leaves_of_fullReach {P : Ty → Prop} {t u : Ty} (hclosed : ∀ u, P u → ∀ v ∈ m.fullSuccessors u, P v)
    (ht : ∀ v ∈ t.leaves, P v) (h : m.FullReach defining t u) : ∀ v ∈ u.leaves, P v := by
  induction h with
  | refl => exact ht
  | tail _ hstep ih =>
    cases hstep with
    | unionMember hmem | intersectionMember hmem =>
      intro v hv
      refine ih v ?_
      rw [Ty.leaves, Ty.leavesOf_eq]
      exact List.mem_flatMap.2 ⟨_, hmem, hv⟩
    | supertype hd _ hmem =>
      intro v hv
      have hu := ih _ (by rw [Ty.leaves_eq_of_head? hd]; exact List.mem_singleton_self _)
      refine hclosed _ hu v ?_
      simp only [fullSuccessors, hd, List.mem_flatMap]
      exact ⟨_, hmem, hv⟩

/-! ## Visiting -/

variable {next : Ty → FullWalk → Bool × FullWalk} {leaf : Ty} {d : DeclId}

/-- A supertype is visited leaf by leaf; that its types are kept changes nothing but the pool. -/
theorem fullVisitSupertype_eq (next : Ty → FullWalk → Bool × FullWalk) (leaf : Ty) (d : DeclId) (t : Ty)
    (w : FullWalk) :
    m.fullVisitSupertype next leaf d t w = firstFound next (t.substitute (m.argumentMap d leaf.args)).leaves
      { w with pool := (w.pool.substitute (m.argumentMap d leaf.args) t).2 } := by
  rw [fullVisitSupertype, ← TyPool.substitute_fst w.pool, ← Ty.searchLeaves_eq]

/-- What every visit to a successor keeps, the visits to the supertypes keep, whatever is kept of the types met. -/
theorem fullVisitSupertype_ends {I : List Ty → FullWalk → Prop} {T : FullWalk → Prop}
    (hpool : ∀ vs w pool, I vs w → I vs { w with pool }) (h : ∀ v vs w, I (v :: vs) w → Ends (I vs) T (next v w))
    (hd : leaf.head? = some d) {w : FullWalk} (hw : I (m.fullSuccessors leaf) w) :
    Ends (I []) T (firstFound (m.fullVisitSupertype next leaf d) (m.supertypesOf d) w) := by
  simp only [fullSuccessors, hd] at hw
  refine firstFound_ends_flatMap (fun t vs w hw => ?_) hw
  rw [fullVisitSupertype_eq]
  refine (firstFound_ends (I := fun us w => I (us ++ vs) w) (fun v us w hw => h v (us ++ vs) w hw) ?_).imp
    (fun w hw => hw) fun w hw => hw
  exact hpool _ _ _ hw

/-- Outcomes of a visit to a type headed by a declaration that is not being defined. -/
theorem fullVisitHead_cases (hnot : d ∉ defining) (w : FullWalk) :
    (w.explored.contains leaf = true ∧ m.fullVisitHead defining next leaf d w = (false, w)) ∨
      w.explored.contains leaf = false ∧
        ((∃ g, w.guard.enter leaf = (.cycle, g) ∧
            m.fullVisitHead defining next leaf d w = (false, { w with guard := g })) ∨
          (∃ g, w.guard.enter leaf = (.entered, g) ∧
            m.fullVisitHead defining next leaf d w =
              match firstFound (m.fullVisitSupertype next leaf d) (m.supertypesOf d) { w with guard := g } with
              | (true, w) => (true, { w with guard := w.guard.leave leaf, path := d :: w.path })
              | (false, w) => (false, { w with guard := w.guard.leave leaf, explored := w.explored.insert leaf })) ∨
          (w.guard.enter leaf).1 ≠ .entered ∧ (w.guard.enter leaf).1 ≠ .cycle ∧
            m.fullVisitHead defining next leaf d w =
              (true, { w with guard := (w.guard.enter leaf).2, path := d :: w.path })) := by
  rw [fullVisitHead, if_neg hnot]
  cases hexplored : w.explored.contains leaf with
  | true => exact Or.inl ⟨rfl, if_pos rfl⟩
  | false =>
    refine Or.inr ⟨rfl, ?_⟩
    rw [if_neg (by simp)]
    rcases henter : w.guard.enter leaf with ⟨_ | _ | _ | _, g⟩
    · exact Or.inr (Or.inl ⟨g, rfl, rfl⟩)
    · exact Or.inl ⟨g, rfl, rfl⟩
    · exact Or.inr (Or.inr ⟨nofun, nofun, rfl⟩)
    · exact Or.inr (Or.inr ⟨nofun, nofun, rfl⟩)

/-! ## What is left without a find -/

variable (m defining)

/-- The type is done with, or being visited. -/
def Settled (u : Ty) (w : FullWalk) : Prop := w.explored.contains u = true ∨ u ∈ w.guard.visiting.toList

/-- What has been explored is not headed by a declaration that is being defined, and has only settled successors. -/
def Closed (w : FullWalk) : Prop :=
  ∀ u, w.explored.contains u = true →
    (∀ d, u.head? = some d → d ∉ defining) ∧ ∀ v ∈ m.fullSuccessors u, Settled v w

/-- What a visit without a find does to a walk. -/
structure Passes (w w' : FullWalk) : Prop where
  visiting : w'.guard.visiting.toList = w.guard.visiting.toList
  path : w'.path = w.path
  explored : ∀ u, w.explored.contains u = true → w'.explored.contains u = true
  closed : m.Closed defining w → m.Closed defining w'

variable {m defining} {w w' w'' : FullWalk}

theorem Passes.refl (w : FullWalk) : m.Passes defining w w := ⟨rfl, rfl, fun _ => id, id⟩

theorem Passes.trans (h : m.Passes defining w w') (h' : m.Passes defining w' w'') : m.Passes defining w w'' where
  visiting := h'.visiting.trans h.visiting
  path := h'.path.trans h.path
  explored u hu := h'.explored u (h.explored u hu)
  closed hw := h'.closed (h.closed hw)

theorem Settled.passes {u : Ty} (hu : Settled u w) (h : m.Passes defining w w') : Settled u w' := by
  apply hu.imp (h.explored u)
  intro hu
  rw [h.visiting]
  exact hu

/-- A walk in which the same types are explored and being visited passes as the same. -/
theorem passes_of_eq (hvisiting : w'.guard.visiting.toList = w.guard.visiting.toList) (hpath : w'.path = w.path)
    (hexplored : w'.explored = w.explored) : m.Passes defining w w' := by
  constructor
  case visiting => exact hvisiting
  case path => exact hpath
  case explored => exact fun u hu => hexplored ▸ hu
  case closed =>
    intro hw u hu
    rw [hexplored] at hu
    obtain ⟨hhead, hsucc⟩ := hw u hu
    refine ⟨hhead, ?_⟩
    intro v hv
    unfold Settled
    rw [hexplored, hvisiting]
    exact hsucc v hv

/-- Leaving a type all of whose successors are settled. -/
theorem passes_leave {g : Guard Ty} (hd : leaf.head? = some d) (hnot : d ∉ defining)
    (henter : w.guard.enter leaf = (.entered, g)) (h : m.Passes defining { w with guard := g } w')
    (hsettled : ∀ v ∈ m.fullSuccessors leaf, Settled v w') :
    m.Passes defining w { w' with guard := w'.guard.leave leaf, explored := w'.explored.insert leaf } := by
  have hvisiting : w'.guard.visiting.toList = leaf :: w.guard.visiting.toList :=
    h.visiting.trans (Guard.enter_entered henter).1
  have hleave := (Guard.visiting_leave hvisiting).1
  have hsettle {v : Ty} (hv : Settled v w') :
      Settled v { w' with guard := w'.guard.leave leaf, explored := w'.explored.insert leaf } := by
    unfold Settled at hv ⊢
    rw [hleave, KeySet.contains_insert]
    rw [hvisiting, List.mem_cons] at hv
    rcases hv with hv | rfl | hv
    · exact Or.inl (by rw [hv, Bool.or_true])
    · exact Or.inl (by simp)
    · exact Or.inr hv
  constructor
  case visiting => exact hleave
  case path => exact h.path
  case explored =>
    intro u hu
    rw [KeySet.contains_insert, h.explored u hu, Bool.or_true]
  case closed =>
    intro hw u hu
    have hopen : m.Closed defining { w with guard := g } := by
      intro u hu
      obtain ⟨hhead, hsucc⟩ := hw u hu
      refine ⟨hhead, ?_⟩
      intro v hv
      apply (hsucc v hv).imp_right
      intro hmem
      rw [(Guard.enter_entered henter).1]
      exact List.mem_cons_of_mem _ hmem
    rw [KeySet.contains_insert, Bool.or_eq_true, decide_eq_true_eq] at hu
    rcases hu with rfl | hu
    · refine ⟨?_, fun v hv => hsettle (hsettled v hv)⟩
      intro e he
      rw [hd] at he
      obtain rfl := Option.some.inj he
      exact hnot
    · obtain ⟨hhead, hsucc⟩ := h.closed hopen u hu
      exact ⟨hhead, fun v hv => hsettle (hsucc v hv)⟩

/-- A visit without a find settles the type; one with a find ends in `T`. -/
def Settles (m : Model) (defining : List DeclId) (T : FullWalk → Prop) (visit : Ty → FullWalk → Bool × FullWalk) :
    Prop :=
  ∀ leaf d w, leaf.head? = some d → Ends (fun w' => m.Passes defining w w' ∧ Settled leaf w') T (visit leaf w)

/-- A search through the types `all` under way, with `vs` still to come. -/
structure Searching (m : Model) (defining : List DeclId) (w₀ : FullWalk) (all vs : List Ty) (w : FullWalk) : Prop where
  passes : m.Passes defining w₀ w
  heads : ∀ v ∈ vs, ∃ e, v.head? = some e
  settled : ∀ v ∈ all, v ∈ vs ∨ Settled v w

theorem Searching.start {all : List Ty} (h : ∀ v ∈ all, ∃ e, v.head? = some e) (w : FullWalk) :
    Searching m defining w all all w :=
  ⟨.refl w, h, fun _ => Or.inl⟩

theorem Searching.visit {T : FullWalk → Prop} {w₀ : FullWalk} {all vs : List Ty} {v : Ty}
    (hnext : Settles m defining T next) (h : Searching m defining w₀ all (v :: vs) w) :
    Ends (Searching m defining w₀ all vs) T (next v w) := by
  obtain ⟨e, he⟩ := h.heads v List.mem_cons_self
  refine (hnext v e w he).imp ?_ fun _ hT => hT
  intro w' hw
  obtain ⟨hpasses, hv⟩ := hw
  constructor
  case passes => exact h.passes.trans hpasses
  case heads => exact fun u hu => h.heads u (List.mem_cons_of_mem _ hu)
  case settled =>
    intro u hu
    rcases h.settled u hu with hmem | hsettled
    · rcases List.mem_cons.1 hmem with rfl | hmem
      · exact Or.inr hv
      · exact Or.inl hmem
    · exact Or.inr (hsettled.passes hpasses)

theorem Searching.settled_of_done {w₀ : FullWalk} {all : List Ty} (h : Searching m defining w₀ all [] w) :
    ∀ v ∈ all, Settled v w :=
  fun v hv => (h.settled v hv).resolve_left List.not_mem_nil

theorem exists_head?_of_mem_fullSuccessors {u v : Ty} (h : v ∈ m.fullSuccessors u) : ∃ e, v.head? = some e := by
  unfold fullSuccessors at h
  split at h
  · obtain ⟨t, -, h⟩ := List.mem_flatMap.1 h
    exact Ty.exists_head?_of_mem_leaves h
  · exact absurd h List.not_mem_nil

theorem fullVisit_settles {T : FullWalk → Prop} (hnext : Settles m defining T next) :
    Settles m defining (·.path ≠ []) (m.fullVisit defining next) := by
  intro leaf d w hd
  rw [fullVisit, hd]
  by_cases hmem : d ∈ defining
  · show Ends _ _ (fullVisitHead ..)
    rw [fullVisitHead, if_pos hmem]
    exact List.cons_ne_nil _ _
  rcases @fullVisitHead_cases m defining next leaf d hmem w with
    ⟨hexplored, heq⟩ | ⟨-, ⟨g, henter, heq⟩ | ⟨g, henter, heq⟩ | ⟨-, -, heq⟩⟩
  · show Ends _ _ (fullVisitHead ..)
    rw [heq]
    exact ⟨.refl w, Or.inl hexplored⟩
  · have hvisiting := (Guard.visiting_of_enter_cycle henter).1
    show Ends _ _ (fullVisitHead ..)
    rw [heq]
    refine ⟨passes_of_eq (congrArg KeyStack.toList hvisiting) rfl rfl, Or.inr ?_⟩
    show leaf ∈ g.visiting.toList
    rw [hvisiting]
    exact Guard.mem_of_enter_cycle henter
  · have hsearch : Ends (Searching m defining { w with guard := g } (m.fullSuccessors leaf) []) T
        (firstFound (m.fullVisitSupertype next leaf d) (m.supertypesOf d) { w with guard := g }) := by
      refine fullVisitSupertype_ends (fun vs w' pool hw => ?_) (fun v vs w' hw => hw.visit hnext) hd
        (Searching.start (fun v hv => exists_head?_of_mem_fullSuccessors hv) _)
      exact ⟨hw.passes.trans (passes_of_eq rfl rfl rfl), hw.heads, hw.settled⟩
    show Ends _ _ (fullVisitHead ..)
    rw [heq]
    rcases hfound : firstFound (m.fullVisitSupertype next leaf d) (m.supertypesOf d) { w with guard := g } with
      ⟨_ | _, w'⟩
    · rw [hfound] at hsearch
      refine ⟨passes_leave hd hmem henter hsearch.passes hsearch.settled_of_done, Or.inl ?_⟩
      show (w'.explored.insert leaf).contains leaf = true
      simp [KeySet.contains_insert]
    · exact List.cons_ne_nil _ _
  · show Ends _ _ (fullVisitHead ..)
    rw [heq]
    exact List.cons_ne_nil _ _

theorem fullWalk_settles (room : Nat) : Settles m defining (·.path ≠ []) (m.fullWalk defining room) := by
  induction room with
  | zero => exact fullVisit_settles (T := fun _ => True) fun _ _ _ _ => trivial
  | succ room ih => exact fullVisit_settles ih

theorem fullRecursionWalk_ends (m : Model) (defining : List DeclId) (t : Ty) :
    Ends (Searching m defining { guard := .ofProfile .supertypeWalk, pool := m.types } t.leaves []) (·.path ≠ [])
      (m.fullRecursionWalk defining t) := by
  rw [fullRecursionWalk, Ty.searchLeaves_eq]
  exact firstFound_ends (fun v vs w hw => hw.visit (fullWalk_settles _))
    (Searching.start (fun v hv => Ty.exists_head?_of_mem_leaves hv) _)

theorem fullRecursion_eq_nil_iff {t : Ty} :
    m.fullRecursion defining t = [] ↔ (m.fullRecursionWalk defining t).2.path = [] := by
  rw [fullRecursion]
  cases (m.fullRecursionWalk defining t).2.path with
  | nil => simp
  | cons d path =>
    refine ⟨fun h => ?_, nofun⟩
    rw [List.reverse_cons, List.eraseDups_append, List.append_eq_nil_iff] at h
    cases hrev : path.reverse with
    | nil => simp [hrev, List.removeAll, List.eraseDups_cons] at h
    | cons e es => simp [hrev, List.eraseDups_cons] at h

/-- **Nothing is missed**: if the walk from `t` finds nothing, no chain of steps from `t` reaches a type headed by a
declaration that is being defined. -/
theorem not_mem_of_fullRecursion_eq_nil {t u : Ty} {d : DeclId} (h : m.fullRecursion defining t = [])
    (hreach : m.FullReach defining t u) (hd : u.head? = some d) : d ∉ defining := by
  have hsearch := fullRecursionWalk_ends m defining t
  rw [fullRecursion_eq_nil_iff] at h
  rcases hwalk : m.fullRecursionWalk defining t with ⟨_ | _, w⟩
  · rw [hwalk] at hsearch
    have hempty (v : Ty) (hv : Settled v w) : w.explored.contains v = true := by
      refine hv.resolve_right ?_
      rw [hsearch.passes.visiting]
      exact List.not_mem_nil
    have hclosed : m.Closed defining w := hsearch.passes.closed fun u hu => by simp at hu
    have hleaves := leaves_of_fullReach (P := (w.explored.contains · = true))
      (fun u hu v hv => hempty v ((hclosed u hu).2 v hv)) (fun v hv => hempty v (hsearch.settled_of_done v hv)) hreach
    rw [Ty.leaves_eq_of_head? hd] at hleaves
    exact (hclosed u (hleaves u (List.mem_singleton_self u))).1 d hd
  · rw [hwalk] at hsearch h
    exact absurd h hsearch

end Model

end SemCheck
