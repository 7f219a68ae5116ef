import SemCheck.Proofs.Flow.Visits
import SemCheck.Proofs.Node.PreOrder

/-!
# Diagnostics in source order

A walk goes through an accepted specifier from the right, and finds nothing wrong with its left side then
(`Execution.partFindings_left`), so that its findings are in source order (`Execution.findings_sublist`). The nodes that
it visits are those that report so in a marked walk (`Execution.visited`).

Main statement: in an arena that is a tree, the diagnostics are in the order of the nodes, one for a node at most, and
every node that is not below a reported specifier is visited once (`Execution.reportsInOrder`).
-/

namespace SemCheck

/-! ## References and specifiers in an arena -/

namespace Arena

/-- Whether a node refers to `d` by its name alone or on the current instance. -/
def RefersAt (a : Arena) (d : DeclId) (n : NodeId) : Prop := (a.kind? n).bind NodeKind.localReference? = some d

/-- Whether a node is a specifier of `d`. -/
def SpecifiesAt (a : Arena) (d : DeclId) (n : NodeId) : Prop :=
  ∃ left value, a.kind? n = some (.specifier (some left) value) ∧ a.RefersAt d left

variable {a : Arena} {d : DeclId} {scope n l : NodeId} {value : Option NodeId} {k : NodeKind NodeId}

theorem IsTreeUnder.localReference?_tree (htree : a.IsTreeUnder scope) (hn : n ∈ a.postOrder scope) :
    (a.tree n).kind?.bind NodeKind.localReference? = (a.kind? n).bind NodeKind.localReference? := by
  cases hk : a.kind? n with
  | none =>
    rw [tree, treeWithin_of_unknown hk]
    rfl
  | some k =>
    rw [htree.tree_eq_node hn hk]
    exact NodeKind.localReference?_map a.tree k

/-- The parts of a node under another stand under it as well. -/
theorem IsTreeUnder.mem_postOrder_of_child (htree : a.IsTreeUnder scope) (hn : n ∈ a.postOrder scope)
    (hk : a.kind? n = some k) {c : NodeId} (hc : c ∈ k.children) : c ∈ a.postOrder scope := by
  obtain ⟨hmem, -⟩ := htree.tree_mem_subtrees hn
  have hchild : a.tree c ∈ (k.map a.tree).children := by
    rw [NodeKind.children_map]
    exact List.mem_map_of_mem hc
  rw [htree.tree_eq_node hn hk] at hmem
  have hunder := Tree.mem_subtrees_trans hmem (Tree.mem_subtrees_of_mem_children hchild (Tree.mem_subtrees_self _))
  rw [postOrder_eq]
  exact List.mem_map.2 ⟨_, hunder, id_treeWithin a _ c⟩

theorem IsTreeUnder.isSpecifier_iff (htree : a.IsTreeUnder scope) (hn : n ∈ a.postOrder scope) :
    Execution.IsSpecifier d (a.tree n) ↔ a.SpecifiesAt d n := by
  cases hk : a.kind? n with
  | none =>
    rw [tree, treeWithin_of_unknown hk]
    refine iff_of_false id ?_
    rintro ⟨_, _, hkind, -⟩
    rw [hk] at hkind
    cases hkind
  | some k =>
    rw [htree.tree_eq_node hn hk]
    cases k with
    | specifier left value =>
      show Execution.specifies d (left.map a.tree) = true ↔ _
      cases left with
      | none =>
        refine iff_of_false Bool.false_ne_true ?_
        rintro ⟨_, _, hkind, -⟩
        rw [hk] at hkind
        cases hkind
      | some l =>
        have hl := htree.mem_postOrder_of_child hn hk (c := l) (by simp [NodeKind.children, NodeKind.slots])
        have hspecifies : Execution.specifies d (some (a.tree l)) = true ↔ a.RefersAt d l := by
          rw [RefersAt, ← htree.localReference?_tree hl, Execution.specifies, decide_eq_true_iff]
          rfl
        refine hspecifies.trans ⟨fun h => ⟨l, value, hk, h⟩, ?_⟩
        rintro ⟨_, _, hkind, h⟩
        rw [hk] at hkind
        cases hkind
        exact h
    | _ =>
      refine iff_of_false id ?_
      rintro ⟨_, _, hkind, -⟩
      rw [hk] at hkind
      cases hkind

end Arena

namespace Execution

variable {target : DeclId} {s : FlowState} {t : Tree}

/-! ## The findings of a walk -/

/-- Nothing is wrong with the left side of an accepted specifier after its right side. -/
theorem partFindings_left {left : Option Tree} (value : Option Tree) (hleft : specifies target left = true)
    (h : Assignment.specifierFault? s = none) :
    partFindings target (left, (partPass target value s).1.assigned) = [] := by
  obtain ⟨m, hread⟩ := pass_of_specifies hleft
  have hdeclared : s.declared = true := by
    cases hs : s.declared with
    | true => rfl
    | false => simp [Assignment.specifierFault?, hs] at h
  have hafter := ((steady_partPass target value).advances s).declared hdeclared
  rw [partFindings, hread, findings_read]
  simp [FlowState.assigned, hafter]

/-- The nodes in a slot, parents first. -/
def preIn (o : Option Tree) : List NodeId := o.elim [] fun t => t.preorder.map Tree.id

theorem preIn_node (n : NodeId) (k : NodeKind Tree) : preIn (some (.node n k)) = n :: k.slots.flatMap preIn := by
  have hparts := k.flatMap_children fun t => t.preorder.map Tree.id
  rw [preIn, Option.elim_some, Tree.preorder_node, List.map_cons, List.map_flatMap, hparts]
  rfl

/-- **Findings are in source order**. -/
theorem findings_sublist (target : DeclId) (t : Tree) (s : FlowState) :
    ((partPass target (some t) s).2.map Finding.node).Sublist (preIn (some t)) := by
  induction t generalizing s with
  | missing m => exact List.nil_sublist _
  | node n k ih =>
    have hpart : ∀ x ∈ entered target k s, ((partFindings target x).map Finding.node).Sublist (preIn x.1) := by
      rintro ⟨o, s'⟩ hx
      cases o with
      | none => exact List.nil_sublist _
      | some t => exact ih t (NodeKind.mem_children_iff.2 (mem_slots_of_mem_entered hx)) s'
    have hown : ((finding? target (.node n k, s)).toList.map Finding.node).Sublist [n] := by
      rw [finding?]
      cases fault? target (.node n k) s with
      | none => exact List.nil_sublist _
      | some message => exact .refl _
    have hparts : (((entered target k s).flatMap (partFindings target)).map Finding.node).Sublist
        (k.slots.flatMap preIn) := by
      by_cases hk : IsSpecifier target (.node n k)
      · cases k with
        | specifier left value =>
          by_cases hfault : Assignment.specifierFault? s = none
          · -- The right side is entered first, but nothing is found on the left after it.
            rw [entered_accepted hk hfault] at hpart ⊢
            have hvalue := hpart _ List.mem_cons_self
            have hleft := partFindings_left value hk hfault
            simpa [NodeKind.slots, hleft] using hvalue.trans (List.sublist_append_right (preIn left) (preIn value))
          · rw [entered_rejected hk hfault]
            exact List.nil_sublist _
        | _ => exact absurd hk id
      · rw [List.map_flatMap, ← map_fst_entered hk s, List.flatMap_map]
        exact List.Sublist.flatMap_right _ hpart
    rw [findings_node, preIn_node, List.map_append]
    exact hown.append hparts

/-! ## What is reported -/

/-- Something is wrong at specifiers of the target and references to it only. -/
theorem names_of_fault? (h : fault? target t s ≠ none) :
    IsSpecifier target t ∨ t.kind?.bind NodeKind.localReference? = some target := by
  cases t with
  | missing m => exact absurd rfl h
  | node n k =>
    cases k with
    | specifier left value => exact Or.inl (by_contra fun hleft => h (if_neg hleft))
    | reference d qualifier => exact Or.inr (by_contra fun hnames => h (if_neg hnames))
    | _ => exact absurd rfl h

/-- On the left of a specifier nothing is wrong. -/
theorem fault?_left {n : NodeId} {l : Tree} {value : Option Tree} {v : Tree × FlowState}
    (hnodup : (nodesIn (some (.node n (.specifier (some l) value)))).Nodup) (hleft : specifies target (some l) = true)
    (hv : v ∈ visits target (.node n (.specifier (some l) value)) s) (hl : v.1 = l) : fault? target v.1 v.2 = none := by
  rw [nodesIn_node] at hnodup
  obtain ⟨hparts, -, hself⟩ := List.nodup_append'.1 hnodup
  have hmem : l.id ∈ nodesIn (some l) := List.mem_map_of_mem (Tree.mem_subtrees_self l)
  rcases mem_visits_node_iff.1 hv with rfl | ⟨c, s', hc, hvc⟩
  · exact absurd (hl ▸ List.mem_singleton_self _) (hself (List.mem_flatMap.2 ⟨some l, by simp [NodeKind.slots], hmem⟩))
  · by_cases hfault : Assignment.specifierFault? s = none
    · rw [entered_accepted hleft hfault, List.mem_cons, List.mem_singleton] at hc
      rcases hc with hc | hc
      · obtain ⟨rfl, rfl⟩ := Prod.mk.inj hc
        have hvalue := List.mem_map_of_mem (f := Tree.id) (mem_subtrees_of_mem_visits hvc)
        rw [hl] at hvalue
        have hdisjoint : (nodesIn (some l)).Disjoint (nodesIn (some c)) := by
          simpa [NodeKind.slots] using List.disjoint_of_nodup_append hparts
        exact absurd hvalue (hdisjoint hmem)
      · obtain ⟨heq, rfl⟩ := Prod.mk.inj hc
        obtain rfl := Option.some.inj heq
        have hnone := partFindings_left value hleft hfault
        rw [partFindings, findings_eq, List.filterMap_eq_nil_iff] at hnone
        exact Option.map_eq_none_iff.1 (hnone v hvc)
    · rw [entered_rejected hleft hfault] at hc
      exact absurd hc List.not_mem_nil

/-! ## The nodes that are visited -/

/-- The message of a sighting; the check has no finding with it. -/
def sighted : Message := .circular

theorem fault?_ne_sighted (t : Tree) (s : FlowState) : fault? target t s ≠ some sighted := by
  have hread : readFault? s ≠ some sighted := by
    unfold readFault?
    split
    · simp [sighted]
    · split <;> simp [sighted]
  have hspecifier : Assignment.specifierFault? s ≠ some sighted := by
    unfold Assignment.specifierFault?
    split
    · simp [sighted]
    · split
      · simp [sighted]
      · split <;> simp [sighted]
  unfold fault?
  split
  · split
    · exact hspecifier
    · simp
  · split
    · exact hread
    · simp
  · simp

/-- What is found in a scope by the walk in which every node reports when it is visited. -/
def sightings (a : Arena) (target : DeclId) (scope : NodeId) : List Finding :=
  ((marked target (fun n => [⟨n, sighted⟩]) (a.tree scope)).pass .initial).2

/-- The nodes that the walk through a scope visits, in turn. -/
def visited (a : Arena) (target : DeclId) (scope : NodeId) : List NodeId :=
  ((sightings a target scope).filter (·.message = sighted)).map Finding.node

theorem sightings_eq (a : Arena) (target : DeclId) (scope : NodeId) : sightings a target scope =
    (visits target (a.tree scope) .initial).flatMap fun v => ⟨v.1.id, sighted⟩ :: (finding? target v).toList :=
  congrArg Prod.snd (marked_pass (fun n => [⟨n, sighted⟩]) (a.tree scope) .initial)

theorem message_of_finding? {v : Tree × FlowState} {f : Finding} (h : finding? target v = some f) :
    f.message ≠ sighted := by
  obtain ⟨message, hmessage, rfl⟩ := Option.map_eq_some_iff.1 h
  rintro rfl
  exact fault?_ne_sighted v.1 v.2 hmessage

theorem visited_eq (a : Arena) (target : DeclId) (scope : NodeId) :
    visited a target scope = (visits target (a.tree scope) .initial).map fun v => v.1.id := by
  have hone (v : Tree × FlowState) : ((Finding.mk v.1.id sighted :: (finding? target v).toList).filter
      fun f => f.message = sighted) = [⟨v.1.id, sighted⟩] := by
    cases h : finding? target v with
    | none => simp
    | some f => simp [message_of_finding? h]
  rw [visited, sightings_eq, List.filter_flatMap]
  simp only [hone, List.map_flatMap, List.map_cons, List.map_nil]
  exact List.flatMap_pure_eq_map _ _

/-- The sightings apart, the findings are those of the check. -/
theorem filter_sightings (a : Arena) (target : DeclId) (scope : NodeId) :
    ((sightings a target scope).filter fun f => f.message ≠ sighted) = (Assignment.run target a scope).2 := by
  have hone (v : Tree × FlowState) : ((Finding.mk v.1.id sighted :: (finding? target v).toList).filter
      fun f => f.message ≠ sighted) = (finding? target v).toList := by
    cases h : finding? target v with
    | none => simp
    | some f => simp [message_of_finding? h]
  rw [sightings_eq, List.filter_flatMap, Assignment.run_eq]
  simp only [hone, ← List.filterMap_eq_flatMap_toList]
  exact (findings_eq target (a.tree scope) .initial).symm

/-! ## The reports of a check -/

section

variable {a : Arena} {m : Model} {scope n : NodeId}

/-- What is reported is what is wrong at a visit. -/
theorem reported_iff_visited : Reported a m target scope n ↔
    ∃ v ∈ visits target (a.tree scope) .initial, v.1.id = n ∧ fault? target v.1 v.2 ≠ none := by
  rw [reported_iff, findings_eq]
  simp only [List.mem_filterMap]
  constructor
  · rintro ⟨f, ⟨v, hv, hf⟩, rfl⟩
    obtain ⟨message, hmessage, rfl⟩ := Option.map_eq_some_iff.1 hf
    exact ⟨v, hv, rfl, hmessage ▸ Option.some_ne_none message⟩
  · rintro ⟨v, hv, rfl, hfault⟩
    obtain ⟨message, hmessage⟩ := Option.ne_none_iff_exists'.1 hfault
    exact ⟨⟨v.1.id, message⟩, ⟨v, hv, by rw [finding?, hmessage]; rfl⟩, rfl⟩

theorem reported_sublist (a : Arena) (m : Model) (target : DeclId) (scope : NodeId) :
    ((checkAssignment a m target scope).map Prod.fst).Sublist ((a.preOrder scope).map some) := by
  have hnodes : (checkAssignment a m target scope).map Prod.fst =
      ((partPass target (some (a.tree scope)) .initial).2.map Finding.node).map some := by
    rw [checkAssignment, Assignment.run_eq, List.map_map, List.map_map]
    rfl
  rw [hnodes, a.preOrder_eq]
  exact (findings_sublist target (a.tree scope) .initial).map some

variable (htree : a.IsTreeUnder scope)
include htree

theorem nodup_nodesIn : (nodesIn (some (a.tree scope))).Nodup := by
  rw [Arena.IsTreeUnder, Arena.postOrder_eq] at htree
  exact htree

/-- What is visited is the tree under its node. -/
theorem visited_eq_tree {v : Tree × FlowState} (hv : v ∈ visits target (a.tree scope) s) :
    v.1 = a.tree v.1.id ∧ v.1.id ∈ a.postOrder scope := by
  have hmem := mem_subtrees_of_mem_visits hv
  exact ⟨htree.eq_tree hmem, a.postOrder_eq scope ▸ List.mem_map_of_mem hmem⟩

theorem names_of_reported (h : Reported a m target scope n) : a.RefersAt target n ∨ a.SpecifiesAt target n := by
  obtain ⟨v, hv, rfl, hfault⟩ := reported_iff_visited.1 h
  obtain ⟨heq, hid⟩ := visited_eq_tree htree hv
  rcases names_of_fault? hfault with hspecifier | hrefers
  · rw [heq] at hspecifier
    exact Or.inr ((htree.isSpecifier_iff hid).1 hspecifier)
  · rw [heq, htree.localReference?_tree hid] at hrefers
    exact Or.inl hrefers

/-- A specifier is rejected where it is visited if and only if it is reported. -/
theorem rejects_iff {v : Tree × FlowState} (hv : v ∈ visits target (a.tree scope) .initial) :
    Rejects target v ↔ Reported a m target scope v.1.id ∧ a.SpecifiesAt target v.1.id := by
  obtain ⟨heq, hid⟩ := visited_eq_tree htree hv
  rw [← htree.isSpecifier_iff hid, ← heq]
  constructor
  · rintro ⟨hspecifier, hfault⟩
    refine ⟨reported_iff_visited.2 ⟨v, hv, rfl, ?_⟩, hspecifier⟩
    rwa [fault?_of_isSpecifier hspecifier]
  · rintro ⟨hreported, hspecifier⟩
    obtain ⟨v', hv', hsame, hfault⟩ := reported_iff_visited.1 hreported
    obtain rfl := eq_of_mem_visits (nodup_nodesIn htree) hv' hv hsame
    exact ⟨hspecifier, by rwa [fault?_of_isSpecifier hspecifier] at hfault⟩

/-- A reported specifier is visited, and nothing below it is. -/
theorem visits_reported (h : Reported a m target scope n) (hspecifies : a.SpecifiesAt target n) :
    ∃ s, (a.tree n, s) ∈ visits target (a.tree scope) .initial ∧ visits target (a.tree n) s = [(a.tree n, s)] := by
  obtain ⟨⟨u, s⟩, hv, rfl, -⟩ := reported_iff_visited.1 h
  have hrejects := (rejects_iff htree hv).2 ⟨h, hspecifies⟩
  rw [← (visited_eq_tree htree hv).1]
  exact ⟨s, hv, visits_rejected hrejects⟩

theorem not_reported_below {x y : NodeId} (hx : Reported a m target scope x) (hspecifies : a.SpecifiesAt target x)
    (hy : y ∈ a.preOrder x) (hne : y ≠ x) : ¬ Reported a m target scope y := by
  intro hreported
  obtain ⟨s, hvisit, hvisits⟩ := visits_reported htree hx hspecifies
  have hmem := mem_subtrees_of_mem_visits hvisit
  obtain ⟨v, hv, rfl, -⟩ := reported_iff_visited.1 hreported
  have hvx : v.1 ∈ (a.tree x).subtrees := by
    rw [a.preOrder_eq] at hy
    obtain ⟨u, hu, hid⟩ := List.mem_map.1 hy
    have hu := (a.tree x).preorder_perm.mem_iff.1 hu
    rwa [(visited_eq_tree htree hv).1, ← hid, ← htree.eq_tree (Tree.mem_subtrees_trans hmem hu)]
  obtain ⟨s', hvisit', hv'⟩ := exists_visits_of_mem_subtrees (nodup_nodesIn htree) hv hmem hvx
  obtain ⟨-, rfl⟩ := Prod.mk.inj (eq_of_mem_visits (nodup_nodesIn htree) hvisit' hvisit rfl)
  rw [hvisits, List.mem_singleton] at hv'
  rw [hv'] at hne
  exact hne (Arena.id_treeWithin a _ x)

/-- A node is visited once, unless it is below a reported specifier. -/
theorem visited_once (m : Model) (hn : n ∈ a.preOrder scope)
    (habove : ∀ x, Reported a m target scope x → a.SpecifiesAt target x → n ∈ a.preOrder x → n = x) :
    (visited a target scope).count n = 1 := by
  obtain ⟨hmem, hid⟩ := htree.tree_mem_subtrees ((a.preOrder_perm scope).mem_iff.1 hn)
  rw [visited_eq]
  refine List.count_eq_one_of_mem (nodup_visits (nodup_nodesIn htree)) ?_
  rcases visited_or_below hmem .initial with ⟨s, hvisit⟩ | ⟨v, hv, hrejects, hbelow, hne⟩
  · exact List.mem_map.2 ⟨_, hvisit, hid⟩
  · obtain ⟨hreported, hspecifies⟩ := (rejects_iff (m := m) htree hv).1 hrejects
    have heq := (visited_eq_tree htree hv).1
    rw [heq] at hbelow
    have hunder : n ∈ a.preOrder v.1.id := by
      refine (a.preOrder_perm _).mem_iff.2 ?_
      rw [a.postOrder_eq]
      exact List.mem_map.2 ⟨_, hbelow, hid⟩
    exact absurd (heq.trans (congrArg a.tree (habove _ hreported hspecifies hunder)).symm) hne

theorem not_reported_left {x l : NodeId} {value : Option NodeId} (hx : x ∈ a.preOrder scope)
    (hk : a.kind? x = some (.specifier (some l) value)) (hl : a.RefersAt target l) :
    ¬ Reported a m target scope l := by
  intro hreported
  have hx := (a.preOrder_perm scope).mem_iff.1 hx
  obtain ⟨hmem, -⟩ := htree.tree_mem_subtrees hx
  have hnode := htree.tree_eq_node hx hk
  have hspecifier := (htree.isSpecifier_iff hx).2 ⟨l, value, hk, hl⟩
  rw [hnode] at hmem hspecifier
  obtain ⟨v, hv, rfl, hfault⟩ := reported_iff_visited.1 hreported
  have heq := (visited_eq_tree htree hv).1
  have hvx : v.1 ∈ (Tree.node x ((NodeKind.specifier (some v.1.id) value).map a.tree)).subtrees := by
    refine Tree.mem_subtrees_of_mem_children (c := v.1) ?_ (Tree.mem_subtrees_self _)
    simp [NodeKind.map, NodeKind.children, NodeKind.slots, ← heq]
  obtain ⟨s, -, hv'⟩ := exists_visits_of_mem_subtrees (nodup_nodesIn htree) hv hmem hvx
  have hnodup := Tree.nodup_of_mem_subtrees (nodup_nodesIn htree) hmem
  exact hfault (fault?_left (l := a.tree v.1.id) hnodup hspecifier hv' heq)

end

/-- The diagnostics of a check are in source order, from visits to every node that is not below a reported specifier. -/
structure ReportsInOrder (a : Arena) (m : Model) (target : DeclId) (scope : NodeId) : Prop where
  /-- The reported nodes are in source order. -/
  sublist : ((checkAssignment a m target scope).map Prod.fst).Sublist ((a.preOrder scope).map some)
  /-- No node comes up twice in it. -/
  nodup : (a.preOrder scope).Nodup
  named : ∀ n, Reported a m target scope n → a.RefersAt target n ∨ a.SpecifiesAt target n
  /-- Below a specifier that is reported nothing else is. -/
  below : ∀ x y, Reported a m target scope x → a.SpecifiesAt target x → y ∈ a.preOrder x → y ≠ x →
    ¬ Reported a m target scope y
  /-- But for the sightings, the walk that reports them is the one of the check. -/
  found : checkAssignment a m target scope = ((sightings a target scope).filter fun f => f.message ≠ sighted).map
    (Finding.diagnostic a (m.name target))
  /-- A node that is not below a reported specifier is visited once. -/
  once : ∀ n ∈ a.preOrder scope,
    (∀ x, Reported a m target scope x → a.SpecifiesAt target x → n ∈ a.preOrder x → n = x) →
    (visited a target scope).count n = 1
  /-- The left side of a specifier is not reported. -/
  left : ∀ x ∈ a.preOrder scope, ∀ l value, a.kind? x = some (.specifier (some l) value) → a.RefersAt target l →
    ¬ Reported a m target scope l

/-- **Diagnostics are in source order**, one for a node at most. -/
theorem reportsInOrder (a : Arena) (m : Model) (target : DeclId) (scope : NodeId) (htree : a.IsTreeUnder scope) :
    ReportsInOrder a m target scope where
  sublist := reported_sublist a m target scope
  nodup := htree.nodup_preOrder
  named _ := names_of_reported htree
  below _ _ := not_reported_below htree
  found := by
    rw [filter_sightings]
    rfl
  once _ := visited_once htree m
  left _ hx _ _ := not_reported_left htree hx

/-- `{ value x; x = x; x = x; }`. -/
def selfAssigned : Arena := arenaOf [.valueDecl ⟨2⟩ none none, .reference ⟨2⟩ .unqualified, .reference ⟨2⟩ .unqualified,
  .specifier (some ⟨1⟩) (some ⟨2⟩), .reference ⟨2⟩ .unqualified, .reference ⟨2⟩ .unqualified,
  .specifier (some ⟨4⟩) (some ⟨5⟩), .block [some ⟨0⟩, some ⟨3⟩, some ⟨6⟩]]

/-- Of the first specifier the value is reported, of the second one nothing but itself. -/
theorem reportsInOrder_selfAssigned :
    selfAssigned.IsTreeUnder ⟨7⟩ ∧
      (checkAssignment selfAssigned oneLocal ⟨2⟩ ⟨7⟩).map Prod.fst = [some ⟨2⟩, some ⟨6⟩] ∧
      ReportsInOrder selfAssigned oneLocal ⟨2⟩ ⟨7⟩ := by
  have htree : selfAssigned.IsTreeUnder ⟨7⟩ := by
    unfold Arena.IsTreeUnder
    decide
  exact ⟨htree, rfl, reportsInOrder selfAssigned oneLocal ⟨2⟩ ⟨7⟩ htree⟩

end Execution

end SemCheck
