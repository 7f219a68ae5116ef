import SemCheck.Proofs.Alias.Assembled
import SemCheck.Proofs.Recursion.Way

/-!
# Where the raw and the full walk agree

Where no declaration has type parameters, a leaf of a type is determined by its head (`Makes.leaves_eq`), and the steps
of both walks are the same. Main statement: a recursion through declarations then is one through types, and within the
limits of the full walk both walks answer with the same way (`rawRecursion_agrees`).

The walks go in step, visit by visit (`together`): the raw walk has visited just the declarations whose types the full
walk has explored or is visiting (`Abreast`). Only that the raw walk drops repeated heads of a supertype, and the full
walk does not, keeps the searches from being the same item by item; but a declaration that is visited again makes no
difference to the raw walk (`firstFound_eraseDups`).
-/

namespace SemCheck

/-! ## Leaves and their heads -/

namespace Ty

/-- The heads of all leaves, in order. -/
def leafHeads (t : Ty) : List DeclId := t.leaves.filterMap head?

theorem eraseDups_heads (t : Ty) : t.heads.eraseDups = t.leafHeads.eraseDups := by
  rw [heads_eq]
  exact eraseDups_of_nodup (Model.nodup_eraseDups _)

theorem occurs_of_mem_leaves {t u : Ty} (h : u ∈ t.leaves) : u.Occurs t := by
  induction t with
  | nothing | unknown => exact absurd h List.not_mem_nil
  | param | applied => exact List.mem_singleton.1 h ▸ .refl _
  | union ms ih | intersection ms ih =>
    rw [leaves, leavesOf_eq, List.mem_flatMap] at h
    obtain ⟨t, ht, h⟩ := h
    exact (ih t ht h).of_part ht

end Ty

namespace Model

/-! ## Types without arguments -/

/-- A type that the model makes of types that it makes. -/
inductive Makes (m : Model) : Ty → Prop
  | apply {d : DeclId} {args : List Ty} {t : Ty} (hargs : ∀ u ∈ args, Makes m u) (h : m.apply d args = .ok t) : Makes m t
  | paramType {p : DeclId} {t : Ty} (h : m.paramType p = .ok t) : Makes m t
  | typeOf (d : DeclId) : Makes m (m.typeOf d)
  | unite {ms : List Ty} (h : ∀ u ∈ ms, Makes m u) : Makes m (Ty.unite ms)
  | intersect {ms : List Ty} (h : ∀ u ∈ ms, Makes m u) : Makes m (Ty.intersect ms)

/-- Declarations without type parameters, with supertypes that the model makes. -/
structure Monomorphic (m : Model) : Prop where
  parameters : ∀ d, m.typeParametersOf d = []
  supertypes : ∀ d, ∀ t ∈ m.supertypesOf d, m.Makes t

variable {m : Model} {defining : List DeclId} {d e : DeclId} {t u : Ty}

theorem Makes.built (h : m.Makes t) : t.Built := by
  induction h with
  | apply _ h ih => exact .apply ih h
  | paramType h => exact .paramType h
  | typeOf d => exact .typeOf m d
  | unite _ ih => exact .unite ih
  | intersect _ ih => exact .intersect ih

theorem head?_typeOf (h : (m.typeOf d).head? = some e) : e = d := by
  unfold typeOf at h
  split at h
  · split at h <;> exact (Option.some.inj h).symm
  · exact absurd h nofun

/-- The declaration's own type, which stands for a known declaration. -/
def IsOwn (m : Model) (u : Ty) : Prop := ∃ d, u = m.typeOf d ∧ u.head? = some d

section

variable (hm : ∀ d, m.typeParametersOf d = [])

include hm

theorem typeOf_of_get? {decl : Declaration} (h : m.get? d = some decl) :
    m.typeOf d = if decl.kind = .typeParameter then .param d else .applied d [] := by
  have hparameters := hm d
  rw [typeParametersOf, h] at hparameters
  simp only [typeOf, h, hparameters, List.map_nil]

theorem eq_typeOf_of_apply {args : List Ty} (h : m.apply d args = .ok t) : t = m.typeOf d := by
  obtain ⟨rfl, decl, hget, hgeneric, hlength⟩ := of_apply h
  have hparameters := hm d
  rw [typeParametersOf, hget] at hparameters
  rw [show decl.typeParameters = [] from hparameters] at hlength
  obtain rfl := List.length_eq_zero_iff.1 hlength.symm
  have hkind : decl.kind ≠ .typeParameter := fun hkind => by simp [hkind, DeclKind.isGeneric] at hgeneric
  rw [typeOf_of_get? hm hget, if_neg hkind]

theorem eq_typeOf_of_paramType (h : m.paramType d = .ok t) : t = m.typeOf d := by
  obtain ⟨rfl, decl, hget, hkind⟩ := of_paramType h
  rw [typeOf_of_get? hm hget, if_pos hkind]

theorem isOwn_typeOf (d : DeclId) : (m.typeOf d).Every m.IsOwn := by
  cases hget : m.get? d with
  | none =>
    have hnothing : m.typeOf d = .nothing := by rw [typeOf, hget]
    rw [hnothing]
    exact Ty.every_nothing
  | some decl =>
    have htype := typeOf_of_get? hm hget
    have hown (h : (m.typeOf d).head? = some d) : m.IsOwn (m.typeOf d) := ⟨d, rfl, h⟩
    rw [htype] at hown ⊢
    split
    · next hkind =>
      rw [if_pos hkind] at hown
      exact Ty.every_param.2 (hown rfl)
    · next hkind =>
      rw [if_neg hkind] at hown
      exact Ty.every_applied.2 ⟨hown rfl, fun u hu => absurd hu List.not_mem_nil⟩

/-- All that stands in a type that is made is the own type of a declaration. -/
theorem Makes.isOwn (h : m.Makes t) : t.Every m.IsOwn := by
  induction h with
  | apply _ h _ =>
    rw [eq_typeOf_of_apply hm h]
    exact isOwn_typeOf hm _
  | paramType h =>
    rw [eq_typeOf_of_paramType hm h]
    exact isOwn_typeOf hm _
  | typeOf d => exact isOwn_typeOf hm d
  | unite h ih => exact .unite (fun u hu => (h u hu).built.normal) ih
  | intersect h ih => exact .intersect (fun u hu => (h u hu).built.normal) ih

theorem Makes.isOwn_of_mem_leaves (h : m.Makes t) (hu : u ∈ t.leaves) : m.IsOwn u := by
  obtain ⟨d, hd⟩ := Ty.exists_head?_of_mem_leaves hu
  exact h.isOwn hm u (Ty.occurs_of_mem_leaves hu) (hd ▸ Option.some_ne_none d)

/-- **A leaf is determined by its head**. -/
theorem Makes.leaves_eq (h : m.Makes t) : t.leaves = t.leafHeads.map m.typeOf := by
  have hall {us : List Ty} (hus : ∀ u ∈ us, m.IsOwn u) : us = (us.filterMap Ty.head?).map m.typeOf := by
    induction us with
    | nil => rfl
    | cons u us ih =>
      obtain ⟨⟨d, htype, hhead⟩, hus⟩ := List.forall_mem_cons.1 hus
      rw [List.filterMap_cons, hhead, List.map_cons, ← htype, ← ih hus]
  exact hall fun u hu => h.isOwn_of_mem_leaves hm hu

end

/-! ## Successors -/

variable (m) in
/-- The heads of the leaves of all supertypes, in order. -/
def leafSuccessors (d : DeclId) : List DeclId := (m.supertypesOf d).flatMap Ty.leafHeads

/-- Repetitions apart, these are the raw successors. -/
theorem eraseDups_rawSuccessors (m : Model) (d : DeclId) :
    (m.rawSuccessors d).eraseDups = (m.leafSuccessors d).eraseDups :=
  eraseDups_flatMap_congr fun t _ => t.eraseDups_heads

section

variable (hm : m.Monomorphic)

include hm

theorem Monomorphic.argumentMap (d : DeclId) (args : List Ty) : m.argumentMap d args = [] := by
  rw [Model.argumentMap, hm.parameters d, List.zip_nil_left]

theorem Monomorphic.flatMap_leaves (d : DeclId) :
    (m.supertypesOf d).flatMap Ty.leaves = (m.leafSuccessors d).map m.typeOf := by
  rw [leafSuccessors, List.map_flatMap]
  exact List.flatMap_congr fun t ht => (hm.supertypes d t ht).leaves_eq hm.parameters

/-- The successors of a declaration's own type are those of the declaration. -/
theorem Monomorphic.fullSuccessors_typeOf (hd : (m.typeOf d).head? = some d) :
    m.fullSuccessors (m.typeOf d) = (m.leafSuccessors d).map m.typeOf := by
  rw [← hm.flatMap_leaves, fullSuccessors, hd]
  simp only [hm.argumentMap]
  rfl

/-- The visits behind the supertypes are visits to the successors. -/
theorem Monomorphic.firstFound_fullVisitSupertype (next : Ty → FullWalk → Bool × FullWalk) (leaf : Ty) (d : DeclId)
    (w : FullWalk) : firstFound (m.fullVisitSupertype next leaf d) (m.supertypesOf d) w =
      firstFound next ((m.leafSuccessors d).map m.typeOf) w := by
  have hvisit : m.fullVisitSupertype next leaf d = fun t => firstFound next t.leaves := by
    funext t w
    rw [fullVisitSupertype, hm.argumentMap]
    exact Ty.searchLeaves_eq next t w
  rw [hvisit, ← firstFound_flatMap, hm.flatMap_leaves]

/-- What steps reach from a type are the types of what raw steps reach from its heads. -/
theorem Monomorphic.rawReach_of_fullReach (ht : m.Makes t) (hreach : m.FullReach defining t u) (hu : u.head? = some d) :
    u = m.typeOf d ∧ ∃ e ∈ t.heads, m.RawReach e d := by
  let P (u : Ty) : Prop := ∃ d, u = m.typeOf d ∧ u.head? = some d ∧ ∃ e ∈ t.heads, m.RawReach e d
  have hstart : ∀ v ∈ t.leaves, P v := by
    intro v hv
    obtain ⟨d, htype, hhead⟩ := ht.isOwn_of_mem_leaves hm.parameters hv
    exact ⟨d, htype, hhead, d, Ty.mem_heads_iff.2 ⟨v, hv, hhead⟩, .refl⟩
  have hclosed (u : Ty) (hu : P u) : ∀ v ∈ m.fullSuccessors u, P v := by
    obtain ⟨d, rfl, hd, e, he, hreach⟩ := hu
    intro v hv
    rw [hm.fullSuccessors_typeOf hd, ← hm.flatMap_leaves, List.mem_flatMap] at hv
    obtain ⟨s, hs, hv⟩ := hv
    obtain ⟨c, htype, hhead⟩ := (hm.supertypes d s hs).isOwn_of_mem_leaves hm.parameters hv
    exact ⟨c, htype, hhead, e, he, hreach.tail (mem_rawSuccessors_iff.2 ⟨s, hs, Ty.mem_heads_iff.2 ⟨v, hv, hhead⟩⟩)⟩
  have hleaves := leaves_of_fullReach hclosed hstart hreach
  rw [Ty.leaves_eq_of_head? hu] at hleaves
  obtain ⟨c, htype, hhead, hway⟩ := hleaves u (List.mem_singleton_self u)
  obtain rfl := Option.some.inj (hu.symm.trans hhead)
  exact ⟨htype, hway⟩

/-- Steps reach whatever raw steps reach, if these do not lead through what is being defined. -/
theorem Monomorphic.fullReach_of_rawReach (ht : m.Makes t) (hd : d ∈ t.heads) (hreach : m.RawReach d e)
    (hnot : ∀ u c, m.FullReach defining t u → u.head? = some c → c ∉ defining) :
    m.FullReach defining t (m.typeOf e) ∧ (m.typeOf e).head? = some e := by
  induction hreach with
  | refl =>
    obtain ⟨u, hu, hhead⟩ := Ty.mem_heads_iff.1 hd
    obtain ⟨c, rfl, hc⟩ := ht.isOwn_of_mem_leaves hm.parameters hu
    obtain rfl := head?_typeOf hhead
    exact ⟨fullReach_of_mem_leaves hu, hhead⟩
  | @tail c e _ hstep ih =>
    obtain ⟨hfull, hhead⟩ := ih
    obtain ⟨s, hs, he⟩ := mem_rawSuccessors_iff.1 hstep
    obtain ⟨u, hu, hue⟩ := Ty.mem_heads_iff.1 he
    obtain ⟨c', rfl, hc'⟩ := (hm.supertypes c s hs).isOwn_of_mem_leaves hm.parameters hu
    obtain rfl := head?_typeOf hue
    refine ⟨hfull.trans (fullReach_of_mem_fullSuccessors hhead (hnot _ c hfull hhead) ?_), hue⟩
    rw [hm.fullSuccessors_typeOf hhead, ← hm.flatMap_leaves, List.mem_flatMap]
    exact ⟨s, hs, hu⟩

end

end Model

/-! ## A raw walk and repeated heads -/

namespace RawWalk

variable {m : Model} {defining : List DeclId} {r : RawWalk} {d : DeclId} {room : Nat}

theorem rawWalk_of_mem (hd : d ∈ defining) (room : Nat) (r : RawWalk) :
    m.rawWalk defining room d r = (true, { r with path := d :: r.path }) := by
  cases room <;> rw [Model.rawWalk, Model.rawVisit, if_pos hd]

theorem rawWalk_of_visited (hd : d ∉ defining) (hvisited : r.visited.contains d = true) (room : Nat) :
    m.rawWalk defining room d r = (false, r) := by
  cases room <;> rw [Model.rawWalk, Model.rawVisit, if_neg hd, if_pos hvisited]

/-- A declaration is expanded with room for all that is still to be visited. -/
theorem rawWalk_expand (hd : d ∉ defining) (hnew : r.visited.contains d = false) (hroom : r.unvisited m ≤ room) :
    ∃ room', unvisited m { r with visited := r.visited.insert d } ≤ room' ∧ m.rawWalk defining room d r =
      match firstFound (m.rawWalk defining room') (m.rawSuccessors d) { r with visited := r.visited.insert d } with
      | (true, r) => (true, { r with path := d :: r.path })
      | (false, r) => (false, r) := by
  have hvisit (next : DeclId → RawWalk → Bool × RawWalk) : m.rawVisit defining next d r =
      match firstFound next (m.rawSuccessors d) { r with visited := r.visited.insert d } with
      | (true, r) => (true, { r with path := d :: r.path })
      | (false, r) => (false, r) := by
    rcases hfound : firstFound next (m.rawSuccessors d) { r with visited := r.visited.insert d } with ⟨_ | _, r'⟩ <;>
      simp only [Model.rawVisit, if_neg hd, hnew, Bool.false_eq_true, if_false, Model.firstFound_visitHeads, hfound]
  by_cases hnil : m.rawSuccessors d = []
  · refine ⟨_, Nat.le_refl _, ?_⟩
    cases room <;> rw [Model.rawWalk, hvisit, hnil] <;> rfl
  · have hlt := unvisited_insert_lt (Model.lt_size_of_rawSuccessors_ne_nil hnil) hnew
    obtain ⟨n, rfl⟩ : ∃ n, room = n + 1 := ⟨room - 1, by omega⟩
    exact ⟨n, by omega, by rw [Model.rawWalk, hvisit]⟩

/-- Declarations that have been visited may be left out of a search. -/
theorem firstFound_filter {p : DeclId → Bool} {ds : List DeclId} (hroom : r.unvisited m ≤ room)
    (h : ∀ d ∈ ds, p d = false → d ∉ defining ∧ r.visited.contains d = true) :
    firstFound (m.rawWalk defining room) (ds.filter p) r = firstFound (m.rawWalk defining room) ds r := by
  induction ds generalizing r with
  | nil => rfl
  | cons d ds ih =>
    obtain ⟨hd, hds⟩ := List.forall_mem_cons.1 h
    cases hp : p d with
    | false =>
      obtain ⟨hnot, hvisited⟩ := hd hp
      rw [List.filter_cons_of_neg (by simp [hp]), ih hroom hds, firstFound, rawWalk_of_visited hnot hvisited]
    | true =>
      have hvisits := @rawWalk_visits m defining room d r hroom
      rw [List.filter_cons_of_pos hp, firstFound, firstFound]
      rcases hwalk : m.rawWalk defining room d r with ⟨_ | _, r'⟩
      · rw [hwalk] at hvisits
        have hgrows := hvisits.1.visited
        exact ih (Nat.le_trans (unvisited_le hgrows) hroom) fun e he hpe => (hds e he hpe).imp_right (hgrows e)
      · rfl

/-- Repeated declarations make no difference. -/
theorem firstFound_eraseDups (ds : List DeclId) (hroom : r.unvisited m ≤ room) :
    firstFound (m.rawWalk defining room) ds.eraseDups r = firstFound (m.rawWalk defining room) ds r := by
  -- on the length, as the rest is filtered before its own repetitions are dropped
  induction hlength : ds.length using Nat.strong_induction_on generalizing ds r with
  | _ n ih =>
  cases ds with
  | nil => rfl
  | cons d ds =>
    have hvisits := @rawWalk_visits m defining room d r hroom
    rw [List.eraseDups_cons, firstFound, firstFound]
    rcases hwalk : m.rawWalk defining room d r with ⟨_ | _, r'⟩
    · rw [hwalk] at hvisits
      obtain ⟨hpasses, hvisited⟩ := hvisits
      have hroom' := Nat.le_trans (unvisited_le hpasses.visited) hroom
      have hnot : d ∉ defining := by
        intro hd
        rw [rawWalk_of_mem hd] at hwalk
        exact Bool.noConfusion (congrArg Prod.fst hwalk)
      have hshorter : (ds.filter fun e => !e == d).length < n := by
        rw [← hlength, List.length_cons]
        exact Nat.lt_succ_of_le (List.length_filter_le _ ds)
      show firstFound _ (ds.filter fun e => !e == d).eraseDups r' = firstFound _ ds r'
      rw [ih _ hshorter _ hroom' rfl, firstFound_filter hroom']
      intro e _ he
      obtain rfl : e = d := by simpa using he
      exact ⟨hnot, hvisited⟩
    · rfl

theorem firstFound_congr {ds es : List DeclId} (h : ds.eraseDups = es.eraseDups) (hroom : r.unvisited m ≤ room) :
    firstFound (m.rawWalk defining room) ds r = firstFound (m.rawWalk defining room) es r := by
  rw [← firstFound_eraseDups ds hroom, h, firstFound_eraseDups es hroom]

end RawWalk

namespace Model

open RawWalk (unvisited)

/-! ## Walks abreast -/

variable {m : Model} {defining : List DeclId} {S : List Ty} {r r' : RawWalk} {w w' : FullWalk} {d e : DeclId}
  {t leaf v : Ty} {g : Guard Ty}

theorem settled_enter_iff (henter : w.guard.enter leaf = (.entered, g)) :
    Settled v { w with guard := g } ↔ v = leaf ∨ Settled v w := by
  unfold Settled
  rw [(Guard.enter_entered henter).1, List.mem_cons]
  exact or_left_comm

theorem settled_cycle_iff (henter : w.guard.enter leaf = (.cycle, g)) :
    Settled v { w with guard := g } ↔ Settled v w := by
  unfold Settled
  rw [(Guard.visiting_of_enter_cycle henter).1]

theorem settled_leave_iff {keys : List Ty} (hkeys : w.guard.visiting.toList = leaf :: keys) :
    Settled v { w with guard := w.guard.leave leaf, explored := w.explored.insert leaf } ↔ Settled v w := by
  unfold Settled
  rw [(Guard.visiting_leave hkeys).1, hkeys, KeySet.contains_insert, Bool.or_eq_true, decide_eq_true_eq, List.mem_cons,
    eq_comm, or_assoc, or_left_comm]

/-- The raw walk has visited the declarations whose types the full walk has settled, and neither has found a way. -/
structure Abreast (m : Model) (r : RawWalk) (w : FullWalk) : Prop where
  visited : ∀ d, (m.typeOf d).head? = some d → (r.visited.contains d = true ↔ Settled (m.typeOf d) w)
  rawPath : r.path = []
  fullPath : w.path = []

theorem Abreast.of_settled_iff (h : Abreast m r w) (hsettled : ∀ v, Settled v w' ↔ Settled v w)
    (hpath : w'.path = w.path) : Abreast m r w' :=
  ⟨fun d hd => (h.visited d hd).trans (hsettled _).symm, h.rawPath, hpath.trans h.fullPath⟩

theorem Abreast.enter (h : Abreast m r w) (hd : (m.typeOf d).head? = some d)
    (henter : w.guard.enter (m.typeOf d) = (.entered, g)) :
    Abreast m { r with visited := r.visited.insert d } { w with guard := g } := by
  refine ⟨fun e he => ?_, h.rawPath, h.fullPath⟩
  rw [settled_enter_iff henter, KeySet.contains_insert, Bool.or_eq_true, decide_eq_true_eq, h.visited e he]
  refine or_congr_left ⟨fun heq => heq ▸ rfl, fun heq => ?_⟩
  rw [heq] at he
  exact Option.some.inj (hd.symm.trans he)

/-- Both have found the same way. -/
abbrev SameWay (r : RawWalk) (w : FullWalk) : Prop := r.path = w.path

/-- Visits of the two walks to a declaration and its type keep in step, within the limits. -/
def Together (m : Model) (defining : List DeclId) (S : List Ty) (t : Ty) (room : Nat) : Prop :=
  ∀ d r w n, (m.typeOf d).head? = some d → m.FullReach defining t (m.typeOf d) → Abreast m r w → Within S w →
    w.guard.visiting.toList.length + room = Limits.supertypeWalkDepth → m.spent S w < Limits.walkIterations →
    r.unvisited m ≤ n →
    InStep (Abreast m) SameWay (m.rawWalk defining n d r) (m.fullWalk defining room (m.typeOf d) w)

section

variable (hS : ∀ u e, m.FullReach defining t u → u.head? = some e → u ∈ S)
  (hfew : S.length < Limits.supertypeWalkDepth)

include hS hfew

/-- Searches keep in step if visits do. -/
theorem Together.firstFound {room n c : Nat} {w₀ : FullWalk} {all : List Ty} {ds : List DeclId}
    (htogether : Together m defining S t room) (hspending : Spending m defining S c w₀ all (ds.map m.typeOf) w)
    (habreast : Abreast m r w) (hn : r.unvisited m ≤ n) (hreach : ∀ v ∈ all, m.FullReach defining t v)
    (hpath : w₀.path = []) (hroom : w₀.guard.visiting.toList.length + room = Limits.supertypeWalkDepth)
    (hc : c ≤ Limits.walkIterations) :
    InStep (fun r w => Abreast m r w ∧ Spending m defining S c w₀ all [] w) SameWay
      (SemCheck.firstFound (m.rawWalk defining n) ds r)
      (SemCheck.firstFound (m.fullWalk defining room) (ds.map m.typeOf) w) := by
  let I (ds : List DeclId) (r : RawWalk) (w : FullWalk) : Prop :=
    (Abreast m r w ∧ Spending m defining S c w₀ all (ds.map m.typeOf) w) ∧ r.unvisited m ≤ n
  have hstep (d : DeclId) (ds : List DeclId) (r : RawWalk) (w : FullWalk) (h : I (d :: ds) r w) :
      InStep (I ds) SameWay (m.rawWalk defining n d r) (m.fullWalk defining room (m.typeOf d) w) := by
    obtain ⟨⟨habreast, hspending⟩, hn⟩ := h
    obtain ⟨e, he⟩ := hspending.searching.heads (m.typeOf d) List.mem_cons_self
    obtain rfl := head?_typeOf he
    have hmem := hspending.subset (m.typeOf e) List.mem_cons_self
    have hspent := hspending.spent
    rw [List.map_cons, List.length_cons] at hspent
    have hvisits : Ends (fun r => r.unvisited m ≤ n) (·.path ≠ []) (m.rawWalk defining n e r) :=
      (RawWalk.rawWalk_visits n e r hn).imp (fun r' h => Nat.le_trans (RawWalk.unvisited_le h.1.visited) hn)
        fun _ => id
    have hspends := hspending.visit (fullWalk_settles room) (fullWalk_frugal hS hfew room) hreach hpath hroom hc
    refine ((htogether e r w n he (hreach _ hmem) habreast hspending.within ?_ (by omega) hn).and_right
      hspends).and_left hvisits
    rw [hspending.searching.passes.visiting]
    exact hroom
  exact (firstFound_inStep hstep ⟨⟨habreast, hspending⟩, hn⟩).imp fun _ _ h => h.1

/-- A declaration and its type that are expanded, in step. -/
theorem Together.expand (hm : m.Monomorphic) {room n : Nat} (htogether : Together m defining S t room)
    (hd : (m.typeOf d).head? = some d) (hmem : d ∉ defining) (hreach : m.FullReach defining t (m.typeOf d))
    (habreast : Abreast m r w) (hwithin : Within S w)
    (hroom : w.guard.visiting.toList.length + (room + 1) = Limits.supertypeWalkDepth)
    (hspent : m.spent S w < Limits.walkIterations) (hn : r.unvisited m ≤ n)
    (hexplored : w.explored.contains (m.typeOf d) = false) (henter : w.guard.enter (m.typeOf d) = (.entered, g)) :
    InStep (Abreast m) SameWay (m.rawWalk defining n d r)
      (match SemCheck.firstFound (m.fullVisitSupertype (m.fullWalk defining room) (m.typeOf d) d) (m.supertypesOf d)
          { w with guard := g } with
        | (true, w) => (true, { w with guard := w.guard.leave (m.typeOf d), path := d :: w.path })
        | (false, w) =>
          (false, { w with guard := w.guard.leave (m.typeOf d), explored := w.explored.insert (m.typeOf d) })) := by
  have hnew : r.visited.contains d = false := by
    rw [Bool.eq_false_iff, Ne, habreast.visited d hd]
    rintro (h | h)
    · exact absurd (h.symm.trans hexplored) nofun
    · exact Guard.not_mem_of_enter_entered henter h
  obtain ⟨n', hn', hraw⟩ := @RawWalk.rawWalk_expand m defining r d n hmem hnew hn
  have hleaf := hS _ d hreach hd
  have hvisiting := (Guard.enter_entered henter).1
  have hbelow : g.visiting.toList.length + room = Limits.supertypeWalkDepth := by
    rw [hvisiting, List.length_cons]
    omega
  have hspending : Spending m defining S (m.spent S w + 1) { w with guard := g } (m.fullSuccessors (m.typeOf d))
      (m.fullSuccessors (m.typeOf d)) { w with guard := g } :=
    ⟨.start (fun v hv => exists_head?_of_mem_fullSuccessors hv) _, hwithin.enter hleaf henter,
      spent_enter hleaf hexplored henter, fun _ => id⟩
  have hsuccessors (v : Ty) (hv : v ∈ m.fullSuccessors (m.typeOf d)) : m.FullReach defining t v :=
    hreach.trans (fullReach_of_mem_fullSuccessors hd hmem hv)
  rw [hm.fullSuccessors_typeOf hd] at hspending hsuccessors
  have hsearch := htogether.firstFound hS hfew hspending (habreast.enter hd henter) hn' hsuccessors habreast.fullPath
    hbelow hspent
  -- the raw walk drops repeated heads, the full walk does not
  rw [hraw, hm.firstFound_fullVisitSupertype, RawWalk.firstFound_congr (m.eraseDups_rawSuccessors d) hn']
  generalize SemCheck.firstFound (m.rawWalk defining n') (m.leafSuccessors d) _ = p,
    SemCheck.firstFound (m.fullWalk defining room) _ _ = q at hsearch ⊢
  rcases p with ⟨_ | _, r'⟩ <;> rcases q with ⟨_ | _, w'⟩
  · obtain ⟨habreast', hspending'⟩ := hsearch
    have hkeys := hspending'.searching.passes.visiting.trans hvisiting
    exact habreast'.of_settled_iff (fun _ => settled_leave_iff hkeys) rfl
  · exact False.elim hsearch
  · exact False.elim hsearch
  · exact congrArg (d :: ·) hsearch

/-- **Visits keep in step**. -/
theorem together (hm : m.Monomorphic) (room : Nat) : Together m defining S t room := by
  induction room with
  | zero =>
    intro d r w n _ _ _ hwithin hroom
    have := hwithin.length_le
    omega
  | succ room ih =>
    intro d r w n hd hreach habreast hwithin hroom hspent hn
    rw [fullWalk, fullVisit, hd]
    show InStep _ _ _ (m.fullVisitHead defining (m.fullWalk defining room) (m.typeOf d) d w)
    by_cases hmem : d ∈ defining
    · rw [RawWalk.rawWalk_of_mem hmem, fullVisitHead, if_pos hmem]
      exact congrArg (d :: ·) (habreast.rawPath.trans habreast.fullPath.symm)
    have hvisited := habreast.visited d hd
    rcases @fullVisitHead_cases m defining (m.fullWalk defining room) (m.typeOf d) d hmem w with
      ⟨hexplored, heq⟩ | ⟨hexplored, ⟨g, henter, heq⟩ | ⟨g, henter, heq⟩ | ⟨hentered, hcycle, -⟩⟩
    · rw [heq, RawWalk.rawWalk_of_visited hmem (hvisited.2 (Or.inl hexplored))]
      exact habreast
    · rw [heq, RawWalk.rawWalk_of_visited hmem (hvisited.2 (Or.inr (Guard.mem_of_enter_cycle henter)))]
      exact habreast.of_settled_iff (fun _ => settled_cycle_iff henter) rfl
    · rw [heq]
      exact ih.expand hS hfew hm hd hmem hreach habreast hwithin hroom hspent hn hexplored henter
    · rcases hwithin.entered_or_cycle hroom hspent (m.typeOf d) with h | h
      · exact absurd h hentered
      · exact absurd h hcycle

end

/-! ## The answers -/

theorem Monomorphic.length_fullSuccessors_typeOf (hm : m.Monomorphic) (d : DeclId) :
    (m.fullSuccessors (m.typeOf d)).length = ((m.supertypesOf d).map fun u => u.leaves.length).sum := by
  cases hget : m.get? d with
  | none => simp [fullSuccessors, typeOf, supertypesOf, hget, Ty.head?]
  | some decl =>
    have hhead : (m.typeOf d).head? = some d := by
      rw [typeOf_of_get? hm.parameters hget]
      split <;> rfl
    rw [hm.fullSuccessors_typeOf hhead, ← hm.flatMap_leaves, List.length_flatMap]

/-- A recursion through declarations is one through types. -/
theorem Monomorphic.fullRecursion_ne_nil (hm : m.Monomorphic) (ht : m.Makes t) (hraw : m.rawRecursion defining t ≠ []) :
    m.fullRecursion defining t ≠ [] := by
  intro hfull
  have hnot (u : Ty) (c : DeclId) (hu : m.FullReach defining t u) (hc : u.head? = some c) : c ∉ defining :=
    not_mem_of_fullRecursion_eq_nil hfull hu hc
  obtain ⟨d, hd, e, he, hreach⟩ := (rawRecursion_exact m defining t).1.1 hraw
  obtain ⟨hreach', hhead⟩ := hm.fullReach_of_rawReach ht hd hreach hnot
  exact hnot _ e hreach' hhead he

theorem nodup_rawRecursion (m : Model) (defining : List DeclId) (t : Ty) : (m.rawRecursion defining t).Nodup := by
  by_cases hnil : m.rawRecursion defining t = []
  · rw [hnil]
    exact List.nodup_nil
  · exact ((rawRecursion_exact m defining t).2 hnil).nodup

/-- Within the limits both walks answer with the same way. -/
theorem Monomorphic.fullRecursion_eq (hm : m.Monomorphic) (ht : m.Makes t) (hfew : S.length < Limits.supertypeWalkDepth)
    (hS : ∀ u d, m.FullReach defining t u → u.head? = some d → u ∈ S)
    (hleaves : t.leaves.length + (S.map fun u => (m.fullSuccessors u).length).sum < Limits.walkIterations) :
    m.fullRecursion defining t = m.rawRecursion defining t := by
  have habreast : Abreast m {} { guard := .ofProfile .supertypeWalk, pool := m.types } :=
    ⟨fun d _ => by simp [Settled, Guard.ofProfile], rfl, rfl⟩
  have hspending := @Spending.start m S defining t hleaves
  have hreach (v : Ty) (hv : v ∈ t.leaves) : m.FullReach defining t v := fullReach_of_mem_leaves hv
  rw [← eraseDups_of_nodup (nodup_rawRecursion m defining t), fullRecursion, rawRecursion, fullRecursionWalk,
    Ty.searchLeaves_eq, visitHeads, RawWalk.firstFound_congr t.eraseDups_heads (RawWalk.unvisited_start m)]
  rw [ht.leaves_eq hm.parameters] at hspending hreach ⊢
  have hsearch := (together hS hfew hm Limits.supertypeWalkDepth).firstFound hS hfew hspending habreast
    (RawWalk.unvisited_start m) hreach rfl (Nat.zero_add _) (Nat.le_refl _)
  generalize firstFound (m.rawWalk defining _) _ _ = p, firstFound (m.fullWalk defining _) _ _ = q at hsearch ⊢
  rcases p with ⟨_ | _, r⟩ <;> rcases q with ⟨_ | _, w⟩
  · rw [hsearch.1.rawPath, hsearch.1.fullPath]
  · exact False.elim hsearch
  · exact False.elim hsearch
  · rw [hsearch]

/-- **The two walks agree** where there are no type arguments: a recursion through declarations is one through types,
and within the limits both answer with the same way. -/
theorem rawRecursion_agrees (m : Model) (defining : List DeclId) (t : Ty) (hm : m.Monomorphic) (ht : m.Makes t) :
    (m.rawRecursion defining t ≠ [] → m.fullRecursion defining t ≠ []) ∧
      ∀ S : List DeclId, (∀ d ∈ t.heads, ∀ e, m.RawReach d e → e ∈ S) → S.length ≤ 99 →
        t.leaves.length + (S.map fun d => ((m.supertypesOf d).map fun u => u.leaves.length).sum).sum ≤ 99999 →
          m.fullRecursion defining t = m.rawRecursion defining t := by
  refine ⟨hm.fullRecursion_ne_nil ht, fun S hS hfew hleaves => ?_⟩
  have hsum : ((S.map m.typeOf).map fun u => (m.fullSuccessors u).length).sum =
      (S.map fun d => ((m.supertypesOf d).map fun u => u.leaves.length).sum).sum := by
    rw [List.map_map]
    exact congrArg List.sum (List.map_congr_left fun d _ => hm.length_fullSuccessors_typeOf d)
  have hfew' : (S.map m.typeOf).length < Limits.supertypeWalkDepth := by
    rw [List.length_map]
    exact Nat.lt_succ_of_le hfew
  refine hm.fullRecursion_eq ht hfew' (fun u d hu hd => ?_) ?_
  · obtain ⟨rfl, e, he, hreach⟩ := hm.rawReach_of_fullReach ht hu hd
    exact List.mem_map_of_mem (hS e he d hreach)
  · rw [hsum]
    exact Nat.lt_succ_of_le hleaves

theorem monomorphic_ring : ring.Monomorphic := by
  constructor
  case parameters =>
    rintro ⟨i⟩
    match i with
    | 0 | 1 | 2 | 3 => rfl
    | i + 4 => rfl
  case supertypes =>
    rintro ⟨i⟩ t ht
    match i with
    | 0 => exact absurd ht List.not_mem_nil
    | 1 => exact List.mem_singleton.1 ht ▸ .typeOf ⟨0⟩
    | 2 => exact List.mem_singleton.1 ht ▸ .typeOf ⟨3⟩
    | 3 => exact List.mem_singleton.1 ht ▸ .typeOf ⟨2⟩
    | i + 4 => exact absurd ht List.not_mem_nil

/-- The ring is found by both walks. -/
theorem rawRecursion_agrees_ring :
    ring.fullRecursion [⟨2⟩] (.applied ⟨3⟩ []) ≠ [] ∧
      ring.fullRecursion [⟨2⟩] (.applied ⟨3⟩ []) = ring.rawRecursion [⟨2⟩] (.applied ⟨3⟩ []) := by
  obtain ⟨hfound, hagree⟩ := rawRecursion_agrees ring [⟨2⟩] (.applied ⟨3⟩ []) monomorphic_ring (.typeOf ⟨3⟩)
  refine ⟨hfound (by decide), hagree [⟨2⟩, ⟨3⟩] (fun d hd e hreach => ?_) (by decide) (by decide)⟩
  have hclosed : ∀ d ∈ [(⟨2⟩ : DeclId), ⟨3⟩], ∀ e ∈ ring.rawSuccessors d, e ∈ [(⟨2⟩ : DeclId), ⟨3⟩] := by decide
  induction hreach with
  | refl => exact List.mem_cons_of_mem _ hd
  | tail _ hstep ih => exact hclosed _ ih _ hstep

end Model

end SemCheck
