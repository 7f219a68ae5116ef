import Mathlib.Data.List.Nodup
import Mathlib.Data.List.Pairwise
import Mathlib.Data.List.Perm.Subperm
import SemCheck.Proofs.Node.Subtrees

/-!
# Trees in which nothing stands twice

Where no number stands twice in a tree, the parts of a node have no node in common (`Tree.nodup_parts`).

The tree under a node goes down as many levels as the arena has nodes. Where it is cut off, there are more nodes on the
way down than that (`exists_way_of_missing`), so that in an arena that is a tree it is cut off nowhere
(`IsTreeUnder.isWhole`), and more room adds nothing (`treeWithin_eq_of_isWhole`).

Main statement: in an arena that is a tree under a node, every tree under the node is the arena's tree under its own
node (`IsTreeUnder.eq_tree`).
-/

namespace SemCheck

theorem NodeKind.map_congr {γ δ : Type} {f g : γ → δ} {k : NodeKind γ} (h : ∀ c ∈ k.children, f c = g c) :
    k.map f = k.map g := by
  have hslot {o : Option γ} (ho : o ∈ k.slots) : o.map f = o.map g := by
    cases o with
    | none => rfl
    | some c => exact congrArg some (h c (mem_children_iff.2 ho))
  cases k with
  | functionDecl d parameters body => cases body <;> simp_all [map, FunctionBody.map, slots, FunctionBody.slots]
  | reference d qualifier => cases qualifier <;> simp_all [map, Qualifier.map, slots, Qualifier.slots]
  | _ => simp_all [map, slots]

/-! ## Trees without repetition -/

/-- Where no number stands twice under a node, none does under a part of it, no part has the node's own number, and
different parts have no number in common. -/
theorem Tree.nodup_parts {n : NodeId} {k : NodeKind Tree}
    (hnodup : ((Tree.node n k).subtrees.map Tree.id).Nodup) :
    (∀ c ∈ k.children, (c.subtrees.map Tree.id).Nodup ∧ n ∉ c.subtrees.map Tree.id) ∧
      ∀ c ∈ k.children, ∀ c' ∈ k.children, c ≠ c' → (c.subtrees.map Tree.id).Disjoint (c'.subtrees.map Tree.id) := by
  rw [subtrees_node, List.map_append, List.map_flatMap] at hnodup
  obtain ⟨hparts, -, hself⟩ := List.nodup_append.1 hnodup
  obtain ⟨hpart, hpairwise⟩ := List.nodup_flatMap.1 hparts
  refine ⟨fun c hc => ⟨hpart c hc, fun hn => ?_⟩, fun c hc c' hc' hne => ?_⟩
  · exact hself n (List.mem_flatMap.2 ⟨c, hc, hn⟩) n List.mem_cons_self rfl
  · have : Std.Symm (Function.onFun List.Disjoint fun c : Tree => c.subtrees.map Tree.id) :=
      ⟨fun _ _ => List.disjoint_symm⟩
    exact hpairwise.forall hc hc' hne

/-- Where no number stands twice, none does in a tree inside. -/
theorem Tree.nodup_of_mem_subtrees {t u : Tree} (hnodup : (t.subtrees.map Tree.id).Nodup) (hu : u ∈ t.subtrees) :
    (u.subtrees.map Tree.id).Nodup := by
  induction t with
  | missing m =>
    rw [subtrees_missing, List.mem_singleton] at hu
    rwa [hu]
  | node n k ih =>
    by_cases hself : .node n k = u
    · rwa [← hself]
    · obtain ⟨c, hc, hu⟩ := exists_mem_children_of_mem_subtrees hu hself
      exact ih c hc ((nodup_parts hnodup).1 c hc).1 hu

/-! ## Trees of an arena -/

namespace Arena

variable {a : Arena} {room room' : Nat} {n m : NodeId} {k : NodeKind NodeId} {u : Tree}

theorem treeWithin_succ (hk : a.kind? n = some k) :
    a.treeWithin (room + 1) n = .node n (k.map (a.treeWithin room)) := by
  rw [treeWithin, hk]

theorem treeWithin_of_unknown (hn : a.kind? n = none) (room : Nat) : a.treeWithin room n = .missing n := by
  cases room with
  | zero => rfl
  | succ room => rw [treeWithin, hn]

theorem mem_subtrees_treeWithin_succ (hk : a.kind? n = some k) : u ∈ (a.treeWithin (room + 1) n).subtrees ↔
    (∃ c ∈ k.children, u ∈ (a.treeWithin room c).subtrees) ∨ u = .node n (k.map (a.treeWithin room)) := by
  rw [treeWithin_succ hk, Tree.subtrees_node, NodeKind.children_map, List.flatMap_map]
  simp

/-- Every tree under a node has been made from its own node, with what room was left. -/
theorem exists_eq_treeWithin (h : u ∈ (a.treeWithin room n).subtrees) :
    ∃ room' ≤ room, u = a.treeWithin room' u.id := by
  induction room generalizing n with
  | zero =>
    rw [treeWithin, Tree.subtrees_missing, List.mem_singleton] at h
    exact ⟨0, Nat.le_refl 0, h ▸ rfl⟩
  | succ room ih =>
    cases hk : a.kind? n with
    | none =>
      rw [treeWithin_of_unknown hk, Tree.subtrees_missing, List.mem_singleton] at h
      exact ⟨0, Nat.zero_le _, h ▸ rfl⟩
    | some k =>
      rcases (mem_subtrees_treeWithin_succ hk).1 h with ⟨c, -, hu⟩ | rfl
      · obtain ⟨room', hroom, heq⟩ := ih hu
        exact ⟨room', Nat.le_succ_of_le hroom, heq⟩
      · exact ⟨room + 1, Nat.le_refl _, (treeWithin_succ hk).symm⟩

/-! ## Room -/

/-- The tree under a node within some room leaves out nothing that the arena has. -/
def IsWhole (a : Arena) (room : Nat) (n : NodeId) : Prop :=
  ∀ m, .missing m ∈ (a.treeWithin room n).subtrees → a.kind? m = none

theorem treeWithin_eq_of_isWhole (h : a.IsWhole room n) (hroom : room ≤ room') :
    a.treeWithin room' n = a.treeWithin room n := by
  induction room generalizing n room' with
  | zero =>
    have hn : a.kind? n = none := h n (Tree.mem_subtrees_self (.missing n))
    rw [treeWithin_of_unknown hn, treeWithin_of_unknown hn]
  | succ room ih =>
    cases hk : a.kind? n with
    | none => rw [treeWithin_of_unknown hk, treeWithin_of_unknown hk]
    | some k =>
      obtain ⟨room', rfl⟩ := Nat.exists_eq_succ_of_ne_zero (Nat.ne_zero_of_lt hroom)
      have hparts : ∀ c ∈ k.children, a.treeWithin room' c = a.treeWithin room c := fun c hc =>
        ih (fun m hm => h m ((mem_subtrees_treeWithin_succ hk).2 (Or.inl ⟨c, hc, hm⟩))) (Nat.le_of_succ_le_succ hroom)
      rw [treeWithin_succ hk, treeWithin_succ hk, NodeKind.map_congr hparts]

/-- Down to where a tree is cut off there are as many nodes as there was room for, and one more. -/
theorem exists_way_of_missing (h : .missing m ∈ (a.treeWithin room n).subtrees) (hm : a.kind? m ≠ none) :
    ∃ way : List NodeId, way.Sublist ((a.treeWithin room n).subtrees.map Tree.id) ∧ way.length = room + 1 ∧
      ∀ i ∈ way, a.kind? i ≠ none := by
  induction room generalizing n with
  | zero =>
    rw [treeWithin, Tree.subtrees_missing, List.mem_singleton] at h
    obtain rfl := Tree.missing.inj h
    refine ⟨[m], ?_, rfl, by simpa using hm⟩
    rw [treeWithin, Tree.subtrees_missing]
    exact .refl _
  | succ room ih =>
    cases hk : a.kind? n with
    | none =>
      rw [treeWithin_of_unknown hk, Tree.subtrees_missing, List.mem_singleton] at h
      obtain rfl := Tree.missing.inj h
      exact absurd hk hm
    | some k =>
      rcases (mem_subtrees_treeWithin_succ hk).1 h with ⟨c, hc, hmem⟩ | heq
      · obtain ⟨way, hsub, hlength, hknown⟩ := ih hmem
        refine ⟨way ++ [n], ?_, by simp [hlength], ?_⟩
        · rw [treeWithin_succ hk, Tree.subtrees_node, NodeKind.children_map, List.flatMap_map, List.map_append,
            List.map_flatMap]
          exact (hsub.trans (List.sublist_flatten_of_mem (List.mem_map.2 ⟨c, hc, rfl⟩))).append (.refl _)
        · intro i hi
          rcases List.mem_append.1 hi with hi | hi
          · exact hknown i hi
          · rw [List.mem_singleton.1 hi, hk]
            exact Option.some_ne_none k
      · cases heq

/-- An arena has only so many nodes. -/
theorem length_le_of_known {ns : List NodeId} (hnodup : ns.Nodup) (hknown : ∀ n ∈ ns, a.kind? n ≠ none) :
    ns.length ≤ a.nodes.size := by
  have hindexes : ns.map NodeId.index ⊆ List.range a.nodes.size := by
    intro i hi
    obtain ⟨n, hn, rfl⟩ := List.mem_map.1 hi
    have hn := hknown n hn
    rw [List.mem_range]
    by_contra hlt
    exact hn (by simp [kind?, get?, hlt])
  have hinj : Function.Injective NodeId.index := fun m n h => by cases m; cases n; cases h; rfl
  simpa using ((List.Nodup.map hinj hnodup).subperm hindexes).length_le

/-- **Nothing is cut off** where no node stands in two places. -/
theorem IsTreeUnder.isWhole (htree : a.IsTreeUnder n) : a.IsWhole a.nodes.size n := by
  intro m hm
  by_contra hknown
  -- The nodes on the way down to a node that is left out are too many to be different.
  obtain ⟨way, hsub, hlength, hall⟩ := exists_way_of_missing hm hknown
  rw [IsTreeUnder, postOrder_eq, tree] at htree
  have := length_le_of_known (htree.sublist hsub) hall
  omega

/-- **Every tree under a node is the tree under its own node.** -/
theorem IsTreeUnder.eq_tree (htree : a.IsTreeUnder n) (hu : u ∈ (a.tree n).subtrees) : u = a.tree u.id := by
  obtain ⟨room, hroom, heq⟩ := exists_eq_treeWithin hu
  have hwhole : a.IsWhole room u.id := fun m hm =>
    htree.isWhole m (Tree.mem_subtrees_trans hu (heq ▸ hm))
  rw [tree, treeWithin_eq_of_isWhole hwhole hroom, ← heq]

/-- The tree under a node that stands under another is part of its tree. -/
theorem IsTreeUnder.tree_mem_subtrees (htree : a.IsTreeUnder n) (h : m ∈ a.postOrder n) :
    a.tree m ∈ (a.tree n).subtrees ∧ (a.tree m).id = m := by
  rw [postOrder_eq] at h
  obtain ⟨u, hu, rfl⟩ := List.mem_map.1 h
  rw [← htree.eq_tree hu]
  exact ⟨hu, rfl⟩

theorem id_treeWithin (a : Arena) (room : Nat) (n : NodeId) : (a.treeWithin room n).id = n := by
  cases room with
  | zero => rfl
  | succ room =>
    rw [treeWithin]
    cases a.kind? n <;> rfl

/-- The tree under a node that stands under another, from the trees under its parts. -/
theorem IsTreeUnder.tree_eq_node (htree : a.IsTreeUnder n) (hm : m ∈ a.postOrder n) (hk : a.kind? m = some k) :
    a.tree m = .node m (k.map a.tree) := by
  obtain ⟨hmem, -⟩ := htree.tree_mem_subtrees hm
  obtain ⟨room, hroom⟩ : ∃ room, a.nodes.size = room + 1 := by
    refine Nat.exists_eq_succ_of_ne_zero fun hzero => ?_
    simp [kind?, get?, Array.eq_empty_of_size_eq_zero hzero] at hk
  have heq : a.tree m = .node m (k.map (a.treeWithin room)) := by rw [tree, hroom, treeWithin_succ hk]
  rw [heq, NodeKind.map_congr fun c hc => ?_]
  have hchild : a.treeWithin room c ∈ (k.map (a.treeWithin room)).children := by
    rw [NodeKind.children_map]
    exact List.mem_map_of_mem hc
  have hunder : a.treeWithin room c ∈ (Tree.node m (k.map (a.treeWithin room))).subtrees :=
    Tree.mem_subtrees_of_mem_children hchild (Tree.mem_subtrees_self _)
  have hown := htree.eq_tree (Tree.mem_subtrees_trans hmem (heq ▸ hunder))
  rwa [id_treeWithin] at hown

end Arena

end SemCheck
