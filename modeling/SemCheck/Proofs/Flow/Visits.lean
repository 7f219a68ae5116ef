import Mathlib.Data.List.Flatten
import SemCheck.Proofs.Flow.Entered
import SemCheck.Proofs.Node.Whole

/-!
# The visits of a walk

A walk visits a tree in a state and then the parts that it enters, each in its own state (`visits`). A walk in which
every node says so when it is visited goes through the same states, and reports the visits and what is wrong at them, in
turn (`marked_pass`).

Main statements: nothing is visited more often than it stands in the tree (`visits_subperm`), and every tree is visited
that does not stand below a rejected specifier (`visited_or_below`).
-/

namespace SemCheck

/-- A part has fewer trees under it than the node. -/
theorem Tree.length_subtrees_lt {n : NodeId} {k : NodeKind Tree} {t : Tree} (ht : t ∈ k.children) :
    t.subtrees.length < (Tree.node n k).subtrees.length := by
  have hsub : t.subtrees.Sublist (k.children.flatMap subtrees) :=
    List.sublist_flatten_of_mem (List.mem_map_of_mem ht)
  rw [subtrees_node, List.length_append]
  exact Nat.lt_succ_of_le hsub.length_le

namespace Execution

variable {target : DeclId} {n : NodeId} {k : NodeKind Tree} {s : FlowState}

/-! ## Visits -/

/-- The trees that a walk through a tree comes to, each with the state in which it does so, in turn. -/
def visits (target : DeclId) : Tree → FlowState → List (Tree × FlowState)
  | .missing id, s => [(.missing id, s)]
  | .node id k, s => (.node id k, s) :: (entered target k s).attach.flatMap fun
    | ⟨(none, _), _⟩ => []
    | ⟨(some t, s'), ht⟩ =>
      have := NodeKind.mem_children_iff.2 (mem_slots_of_mem_entered ht)
      visits target t s'
termination_by t => t.subtrees.length
decreasing_by exact Tree.length_subtrees_lt this

/-- The visits from a part that is entered in a state. -/
def partVisits (target : DeclId) : Option Tree × FlowState → List (Tree × FlowState)
  | (none, _) => []
  | (some t, s) => visits target t s

theorem visits_missing (id : NodeId) (s : FlowState) : visits target (.missing id) s = [(.missing id, s)] := by
  rw [visits]

theorem visits_node (n : NodeId) (k : NodeKind Tree) (s : FlowState) : visits target (.node n k) s =
    (.node n k, s) :: (entered target k s).flatMap (partVisits target) := by
  rw [visits]
  conv_rhs => rw [← List.attach_map_subtype_val (entered target k s), List.flatMap_map]
  refine congrArg (_ :: ·) (congrArg (List.flatMap · _) (funext fun ⟨⟨o, s'⟩, h⟩ => ?_))
  cases o <;> rfl

theorem mem_visits_node_iff {v : Tree × FlowState} : v ∈ visits target (.node n k) s ↔
    v = (.node n k, s) ∨ ∃ t s', (some t, s') ∈ entered target k s ∧ v ∈ visits target t s' := by
  rw [visits_node, List.mem_cons, List.mem_flatMap]
  refine or_congr_right ⟨?_, fun ⟨t, s', ht, hv⟩ => ⟨(some t, s'), ht, hv⟩⟩
  rintro ⟨⟨o, s'⟩, ho, hv⟩
  cases o with
  | none => exact absurd hv List.not_mem_nil
  | some t => exact ⟨t, s', ho, hv⟩

theorem mem_visits_self (t : Tree) (s : FlowState) : (t, s) ∈ visits target t s := by
  cases t with
  | missing id => simp [visits_missing]
  | node n k => exact mem_visits_node_iff.2 (Or.inl rfl)

/-! ### A walk that says where it is -/

/-- The walk in which every node first reports what `mark` says for it. -/
def marked (target : DeclId) (mark : NodeId → List Finding) : Tree → Subnode :=
  Tree.fold (fun n => ⟨none, fun s => (s, mark n)⟩) fun n k =>
    ⟨k.localReference?, Pass.andThen (fun s => (s, mark n)) (Assignment.step target n (k.map Prod.snd))⟩

section

variable (mark : NodeId → List Finding)

theorem marked_missing (n : NodeId) : marked target mark (.missing n) = ⟨none, fun s => (s, mark n)⟩ :=
  Tree.fold_missing ..

theorem marked_node (n : NodeId) (k : NodeKind Tree) :
    marked target mark (.node n k) = ⟨k.localReference?,
      Pass.andThen (fun s => (s, mark n)) (Assignment.step target n (k.map (marked target mark)))⟩ := by
  rw [marked, Tree.fold_node, NodeKind.localReference?_map, NodeKind.map_map]
  rfl

theorem marked_nothing (target : DeclId) : marked target (fun _ => []) = Assignment.subnode target := rfl

theorem specifies_marked (left : Option Tree) :
    Assignment.specifies target (left.map (marked target mark)) = specifies target left := by
  rw [← specifies_eq]
  cases left with
  | none => rfl
  | some t =>
    cases t with
    | missing n => rfl
    | node n k =>
      have hsub := Assignment.subnode_node target n k
      simp only [Assignment.specifies, Option.map_some, marked_node, hsub, Option.bind_eq_bind, Option.bind_some]

/-- **A marked walk** goes through the states of the walk, and reports the mark and what is wrong at each visit. -/
theorem marked_pass (t : Tree) (s : FlowState) : (marked target mark t).pass s =
    ((partPass target (some t) s).1,
      (visits target t s).flatMap fun v => mark v.1.id ++ (finding? target v).toList) := by
  induction t generalizing s with
  | missing n =>
    rw [marked_missing, visits_missing, List.flatMap_singleton]
    exact congrArg (s, ·) (List.append_nil _).symm
  | node n k ih =>
    have hparts : ∀ o ∈ k.slots, TellsPart target (marked target mark) o := by
      intro o ho s
      cases o with
      | none => rfl
      | some t =>
        show ((marked target mark t).pass s).1 = _
        rw [ih t (NodeKind.mem_children_iff.2 ho) s]
    have hfound : ∀ x ∈ entered target k s, foundIn (marked target mark) x =
        (partVisits target x).flatMap fun v => mark v.1.id ++ (finding? target v).toList := by
      rintro ⟨o, s'⟩ hx
      cases o with
      | none => rfl
      | some t => exact congrArg Prod.snd (ih t (NodeKind.mem_children_iff.2 (mem_slots_of_mem_entered hx)) s')
    have hstep := step_part (n := n) (specifies_marked mark) hparts s
    rw [marked_node, visits_node, List.flatMap_cons, List.flatMap_assoc, ← List.flatMap_congr hfound,
      List.append_assoc]
    show ((Assignment.step target n _ s).1, mark n ++ (Assignment.step target n _ s).2) = _
    rw [hstep]
    rfl

end

/-- **The findings of a walk** are what is wrong at its visits, in turn. -/
theorem findings_eq (target : DeclId) (t : Tree) (s : FlowState) :
    (partPass target (some t) s).2 = (visits target t s).filterMap (finding? target) := by
  have hmarked : (marked target (fun _ => []) t).pass s = _ := marked_pass (fun _ => []) t s
  rw [marked_nothing] at hmarked
  rw [List.filterMap_eq_flatMap_toList]
  exact congrArg Prod.snd hmarked

/-! ### At most once -/

theorem subperm_flatMap {α β : Type} {l : List α} {f g : α → List β} (h : ∀ a ∈ l, (f a).Subperm (g a)) :
    (l.flatMap f).Subperm (l.flatMap g) := by
  induction l with
  | nil => exact .refl _
  | cons a l ih =>
    obtain ⟨ha, hl⟩ := List.forall_mem_cons.1 h
    exact ha.append (ih hl)

/-- No part is entered more often than it stands in the node. -/
theorem entered_subperm (target : DeclId) (k : NodeKind Tree) (s : FlowState) :
    ((entered target k s).map Prod.fst).Subperm k.slots := by
  by_cases hk : IsSpecifier target (.node ⟨0⟩ k)
  · cases k with
    | specifier left value =>
      cases hfault : Assignment.specifierFault? s with
      | some message =>
        rw [entered_rejected hk (hfault ▸ Option.some_ne_none message)]
        exact List.nil_subperm
      | none =>
        rw [entered_accepted hk hfault]
        exact (List.Perm.swap left value []).subperm
    | _ => exact absurd hk id
  · rw [map_fst_entered hk]

/-- No node is visited more often than it stands in the tree. -/
theorem visits_subperm (target : DeclId) (t : Tree) (s : FlowState) :
    ((visits target t s).map fun v => v.1.id).Subperm (nodesIn (some t)) := by
  induction t generalizing s with
  | missing id =>
    rw [visits_missing, nodesIn, Tree.subtrees_missing]
    exact .refl _
  | node n k ih =>
    have hparts : ∀ x ∈ entered target k s,
        ((partVisits target x).map fun v => v.1.id).Subperm (nodesIn x.1) := by
      rintro ⟨o, s'⟩ hx
      cases o with
      | none => exact .refl _
      | some t => exact ih t (NodeKind.mem_children_iff.2 (mem_slots_of_mem_entered hx)) s'
    obtain ⟨os, hperm, hsub⟩ := entered_subperm target k s
    have hslots : ((entered target k s).flatMap fun x => nodesIn x.1).Subperm (k.slots.flatMap nodesIn) := by
      rw [← List.flatMap_map Prod.fst nodesIn]
      exact (hperm.flatMap_right nodesIn).symm.subperm.trans (hsub.flatMap nodesIn).subperm
    rw [visits_node, nodesIn_node, List.map_cons, List.map_flatMap]
    exact (((List.subperm_cons _).2 ((subperm_flatMap hparts).trans hslots))).trans
      (List.perm_append_singleton _ _).symm.subperm

section

variable {t u : Tree} {v v' : Tree × FlowState}

theorem nodup_visits (h : (nodesIn (some t)).Nodup) : ((visits target t s).map fun v => v.1.id).Nodup := by
  obtain ⟨ids, hperm, hsub⟩ := visits_subperm target t s
  exact hperm.nodup_iff.1 (h.sublist hsub)

/-- What is visited stands in the tree. -/
theorem mem_subtrees_of_mem_visits (h : v ∈ visits target t s) : v.1 ∈ t.subtrees := by
  induction t generalizing s with
  | missing id =>
    rw [visits_missing, List.mem_singleton] at h
    rw [h]
    exact Tree.mem_subtrees_self _
  | node n k ih =>
    rcases mem_visits_node_iff.1 h with rfl | ⟨t, s', ht, h⟩
    · exact Tree.mem_subtrees_self _
    · have hchild := NodeKind.mem_children_iff.2 (mem_slots_of_mem_entered ht)
      exact Tree.mem_subtrees_of_mem_children hchild (ih t hchild h)

/-- Where nothing stands twice, a node is visited in one state. -/
theorem eq_of_mem_visits (hnodup : (nodesIn (some t)).Nodup) (h : v ∈ visits target t s)
    (h' : v' ∈ visits target t s) (hid : v.1.id = v'.1.id) : v = v' :=
  List.inj_on_of_nodup_map (nodup_visits hnodup) h h' hid

theorem node_of_finding? {f : Finding} (h : finding? target v = some f) : f.node = v.1.id := by
  obtain ⟨message, -, rfl⟩ := Option.map_eq_some_iff.1 h
  rfl

/-- Where nothing stands twice, all that is found at a visited node is what is wrong at the visit. -/
theorem findings_at (hnodup : (nodesIn (some t)).Nodup) (hv : v ∈ visits target t s) :
    (partPass target (some t) s).2.filter (fun f => f.node = v.1.id) = (finding? target v).toList := by
  have hids : ((visits target t s).map fun v => v.1.id).Nodup := nodup_visits hnodup
  obtain ⟨before, after, hsplit⟩ := List.append_of_mem hv
  have hothers (vs : List (Tree × FlowState)) (hvs : v.1.id ∉ vs.map fun v => v.1.id) :
      (vs.filterMap (finding? target)).filter (fun f => f.node = v.1.id) = [] := by
    refine List.filter_eq_nil_iff.2 fun f hf => ?_
    obtain ⟨v', hv', hfinding⟩ := List.mem_filterMap.1 hf
    rw [node_of_finding? hfinding, decide_eq_true_iff]
    exact fun heq => hvs (List.mem_map.2 ⟨v', hv', heq⟩)
  have hself : ([v].filterMap (finding? target)).filter (fun f => f.node = v.1.id) = (finding? target v).toList := by
    cases hfinding : finding? target v with
    | none => simp [hfinding]
    | some f => simp [hfinding, node_of_finding? hfinding]
  rw [hsplit, List.map_append, List.map_cons, List.nodup_middle, List.nodup_cons, List.mem_append, not_or] at hids
  rw [findings_eq, hsplit, ← List.singleton_append, List.filterMap_append, List.filterMap_append, List.filter_append,
    List.filter_append, hothers before hids.1.1, hothers after hids.1.2, hself, List.nil_append, List.append_nil]

/-- Where nothing stands twice, what is visited inside a tree is visited from there. -/
theorem exists_visits_of_mem_subtrees (hnodup : (nodesIn (some t)).Nodup) (hv : v ∈ visits target t s)
    (hu : u ∈ t.subtrees) (hvu : v.1 ∈ u.subtrees) :
    ∃ s', (u, s') ∈ visits target t s ∧ v ∈ visits target u s' := by
  induction t generalizing s with
  | missing id =>
    rw [Tree.subtrees_missing, List.mem_singleton] at hu
    exact ⟨s, hu ▸ mem_visits_self _ s, hu ▸ hv⟩
  | node n k ih =>
    by_cases hself : .node n k = u
    · exact ⟨s, hself ▸ mem_visits_self _ s, hself ▸ hv⟩
    obtain ⟨hown, hothers⟩ := Tree.nodup_parts hnodup
    obtain ⟨c, hc, huc⟩ := Tree.exists_mem_children_of_mem_subtrees hu hself
    have hvc : v.1.id ∈ c.subtrees.map Tree.id := List.mem_map_of_mem (Tree.mem_subtrees_trans huc hvu)
    rcases mem_visits_node_iff.1 hv with rfl | ⟨c', s', hc', hv'⟩
    · exact absurd hvc (hown c hc).2
    · have hchild := NodeKind.mem_children_iff.2 (mem_slots_of_mem_entered hc')
      have hvc' := List.mem_map_of_mem (f := Tree.id) (mem_subtrees_of_mem_visits hv')
      -- The part through which it is visited is the one that the inner tree stands in.
      obtain rfl : c = c' := by
        by_contra hne
        exact hothers c hc c' hchild hne hvc hvc'
      obtain ⟨s'', hus, hvs⟩ := ih c hc (hown c hc).1 hv' huc
      exact ⟨s'', mem_visits_node_iff.2 (Or.inr ⟨c, s', hc', hus⟩), hvs⟩

/-! ### At least once -/

/-- A specifier of the target is visited in a state in which it is not allowed. -/
def Rejects (target : DeclId) (v : Tree × FlowState) : Prop :=
  IsSpecifier target v.1 ∧ Assignment.specifierFault? v.2 ≠ none

/-- Every part is entered, unless the node is a rejected specifier. -/
theorem exists_entered (hk : ¬ Rejects target (.node n k, s)) {c : Tree} (hc : c ∈ k.children) :
    ∃ s', (some c, s') ∈ entered target k s := by
  have hmem : some c ∈ (entered target k s).map Prod.fst := by
    by_cases hspecifier : IsSpecifier target (.node n k)
    · cases k with
      | specifier left value =>
        have hfault : Assignment.specifierFault? s = none := not_not.1 fun hne => hk ⟨hspecifier, hne⟩
        rw [entered_accepted hspecifier hfault]
        simpa [NodeKind.mem_children_iff, NodeKind.slots, or_comm] using hc
      | _ => exact absurd hspecifier id
    · rw [map_fst_entered hspecifier]
      exact NodeKind.mem_children_iff.1 hc
  obtain ⟨⟨o, s'⟩, hx, rfl⟩ := List.mem_map.1 hmem
  exact ⟨s', hx⟩

/-- **Every tree is visited** that does not stand below a rejected specifier. -/
theorem visited_or_below (hu : u ∈ t.subtrees) (s : FlowState) : (∃ s', (u, s') ∈ visits target t s) ∨
    ∃ v ∈ visits target t s, Rejects target v ∧ u ∈ v.1.subtrees ∧ v.1 ≠ u := by
  induction t generalizing s with
  | missing id =>
    rw [Tree.subtrees_missing, List.mem_singleton] at hu
    exact Or.inl ⟨s, hu ▸ mem_visits_self _ s⟩
  | node n k ih =>
    by_cases hself : .node n k = u
    · exact Or.inl ⟨s, hself ▸ mem_visits_self _ s⟩
    by_cases hrejects : Rejects target (.node n k, s)
    · exact Or.inr ⟨_, mem_visits_self _ s, hrejects, hu, hself⟩
    obtain ⟨c, hc, huc⟩ := Tree.exists_mem_children_of_mem_subtrees hu hself
    obtain ⟨s', hc'⟩ := exists_entered hrejects hc
    have hvisits {v : Tree × FlowState} (hv : v ∈ visits target c s') : v ∈ visits target (.node n k) s :=
      mem_visits_node_iff.2 (Or.inr ⟨c, s', hc', hv⟩)
    rcases ih c hc huc s' with ⟨s'', h⟩ | ⟨v, hv, hbelow⟩
    · exact Or.inl ⟨s'', hvisits h⟩
    · exact Or.inr ⟨v, hvisits hv, hbelow⟩

/-- A rejected specifier is all that is visited in it. -/
theorem visits_rejected (h : Rejects target (t, s)) : visits target t s = [(t, s)] := by
  obtain ⟨hspecifier, hfault⟩ := h
  cases t with
  | missing m => exact absurd hspecifier id
  | node n k =>
    cases k with
    | specifier left value =>
      rw [visits_node, entered_rejected hspecifier hfault]
      rfl
    | _ => exact absurd hspecifier id

end

end Execution

end SemCheck
