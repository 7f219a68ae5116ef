import SemCheck.Node.Scope
import SemCheck.Proofs.Flow.Exactness
import SemCheck.Proofs.Flow.Wraps
import SemCheck.Proofs.Node.Whole

/-!
# The smallest scope is enough

A walk through a scope comes to what concerns its target only in a block, if the nodes that declare the target or refer
to it are all in that block, and so are the jumps (`Arena.ConfinedTo`). The tree under the scope then wraps the block
(`wraps_of_confines`): at every node on the way to the block the parts beside it have nothing of the target.

Main statement: the check of the scope and the check of the block find the same (`checkAssignment_eq_of_confinedTo`).
-/

namespace SemCheck

/-! ## What concerns the target -/

namespace Tree

variable {target : DeclId} {b t u c : Tree} {n : NodeId} {k : NodeKind Tree}

/-- A node declares the target, refers to it or jumps. -/
def Concerns (target : DeclId) (t : Tree) : Prop :=
  ∃ k, t.kind? = some k ∧ (k.declaration? = some target ∨ k.isJump = true)

/-- What concerns the target in a tree stands in the tree `b`, which then stands in the tree itself. -/
structure Confines (target : DeclId) (b t : Tree) : Prop where
  nodup : (t.subtrees.map Tree.id).Nodup
  same : ∀ u ∈ t.subtrees, u.id = b.id → u = b
  concerned : ∀ u ∈ t.subtrees, u.Concerns target → b ∈ t.subtrees ∧ u ∈ b.subtrees

theorem Confines.part (h : Confines target b (.node n k)) (hne : .node n k ≠ b) (hc : c ∈ k.children) :
    Confines target b c where
  nodup := ((nodup_parts h.nodup).1 c hc).1
  same u hu := h.same u (mem_subtrees_of_mem_children hc hu)
  concerned u hu hconcerns := by
    obtain ⟨hb, hub⟩ := h.concerned u (mem_subtrees_of_mem_children hc hu) hconcerns
    obtain ⟨c', hc', hbc'⟩ := exists_mem_children_of_mem_subtrees hb hne
    -- The node stands in both parts, so these are the same.
    obtain rfl : c = c' := by
      by_contra hapart
      exact (nodup_parts h.nodup).2 c hc c' hc' hapart (List.mem_map_of_mem hu)
        (List.mem_map_of_mem (mem_subtrees_trans hbc' hub))
    exact ⟨hbc', hub⟩

theorem Confines.not_concerns (h : Confines target b (.node n k)) (hne : .node n k ≠ b) :
    ¬ (Tree.node n k).Concerns target := by
  intro hconcerns
  obtain ⟨hb, hself⟩ := h.concerned _ (mem_subtrees_self _) hconcerns
  obtain ⟨c, hc, hbc⟩ := exists_mem_children_of_mem_subtrees hb hne
  exact ((nodup_parts h.nodup).1 c hc).2 (List.mem_map_of_mem (mem_subtrees_trans hbc hself))

end Tree

namespace Execution

open Pass Tree

variable {target : DeclId} {b t : Tree} {n : NodeId} {k : NodeKind Tree}

/-- A block that has all that concerns the target is not the left side of a specifier. -/
theorem specifies_eq_false_of_confines {left value : Option Tree} (hblock : ∃ os, b.kind? = some (.block os))
    (h : Confines target b (.node n (.specifier left value))) (hne : .node n (.specifier left value) ≠ b) :
    specifies target left = false := by
  by_contra hspecifies
  obtain ⟨m, k, rfl, hk⟩ := exists_of_specifies (Bool.eq_true_of_not_eq_false hspecifies)
  have hpart := h.part hne (NodeKind.mem_children_iff.2 List.mem_cons_self : .node m k ∈ _)
  obtain ⟨os, hos⟩ := hblock
  cases k with
  | reference d qualifier =>
    have hleaf : (Tree.node m (.reference d qualifier)).subtrees = [.node m (.reference d qualifier)] := by
      cases qualifier with
      | expr => cases hk
      | unqualified | self => rw [subtrees_node]; rfl
    have hd : d = target := by
      cases qualifier <;> cases hk <;> rfl
    obtain ⟨hb, -⟩ := hpart.concerned _ (mem_subtrees_self _) ⟨_, rfl, Or.inl (congrArg some hd)⟩
    rw [hleaf, List.mem_singleton] at hb
    rw [hb] at hos
    cases hos
  | _ => cases hk

/-- **A tree wraps the block** to which it confines what concerns the target. -/
theorem wraps_of_confines (hblock : ∃ os, b.kind? = some (.block os)) (h : Confines target b t) :
    Wraps (partPass target (some b) .initial).2 ((nodesIn (some t)).count b.id) (partPass target (some t)) := by
  induction t with
  | missing m =>
    obtain ⟨os, hos⟩ := hblock
    have hm : m ≠ b.id := by
      intro hm
      rw [← h.same _ (mem_subtrees_self _) hm] at hos
      cases hos
    have hcount : (nodesIn (some (.missing m))).count b.id = 0 := by
      rw [nodesIn, subtrees_missing]
      exact List.count_eq_zero.2 fun hmem => hm (List.mem_singleton.1 hmem).symm
    rw [hcount]
    exact .skip
  | node n k ih =>
    by_cases heq : .node n k = b
    · -- What the block finds is what is claimed; it is not looked into.
      subst heq
      have hself : n ∈ nodesIn (some (.node n k)) := List.mem_map_of_mem (mem_subtrees_self (.node n k))
      exact ⟨fun hzero => absurd hself (List.count_eq_zero.1 hzero), fun _ => rfl⟩
    have hn : n ≠ b.id := fun hn => heq (h.same _ (mem_subtrees_self _) hn)
    have hcount : (nodesIn (some (.node n k))).count b.id = (k.slots.map fun o => (nodesIn o).count b.id).sum := by
      rw [nodesIn_node, List.count_append, List.count_flatMap]
      simp [Function.comp_def, hn]
    have hparts : ∀ o ∈ k.slots, Wraps (partPass target (some b) .initial).2 ((nodesIn o).count b.id)
        (partPass target o) := by
      intro o ho
      cases o with
      | none => exact .skip
      | some c =>
        have hc := NodeKind.mem_children_iff.2 ho
        exact ih c hc (h.part heq hc)
    have hconcerns := h.not_concerns heq
    rw [hcount]
    refine wraps_node rfl hparts (fun hnames => hconcerns ⟨k, rfl, Or.inl hnames⟩)
      (Bool.eq_false_iff.2 fun hjump => hconcerns ⟨k, rfl, Or.inr hjump⟩) ?_
    rintro left value rfl
    exact specifies_eq_false_of_confines hblock h heq

end Execution

/-! ## Scopes -/

/-- A block under `scope` has all nodes under `scope` that declare the target or refer to it, and all jumps. -/
structure Arena.ConfinedTo (a : Arena) (target : DeclId) (scope block : NodeId) : Prop where
  mem : block ∈ a.postOrder scope
  isBlock : a.isBlock block = true
  names : ∀ n ∈ a.postOrder scope, (a.kind? n).bind NodeKind.declaration? = some target → n ∈ a.postOrder block
  jumps : ∀ n ∈ a.postOrder scope, (a.kind? n).any NodeKind.isJump = true → n ∈ a.postOrder block

variable {a : Arena} {target : DeclId} {scope block : NodeId}

theorem Arena.ConfinedTo.exists_kind? (htree : a.IsTreeUnder scope) (h : a.ConfinedTo target scope block) :
    ∃ os, (a.tree block).kind? = some (.block os) := by
  obtain ⟨hmem, hid⟩ := htree.tree_mem_subtrees h.mem
  have hblock := h.isBlock
  unfold Arena.isBlock at hblock
  cases hb : a.tree block with
  | missing n =>
    rw [hb] at hmem hid
    rw [← hid, Tree.id, htree.isWhole n hmem] at hblock
    cases hblock
  | node n k =>
    rw [hb] at hmem hid
    obtain ⟨f, k₀, hk₀, rfl⟩ := kind?_of_mem_treeWithin hmem
    rw [← hid, Tree.id, hk₀] at hblock
    cases k₀ with
    | block os => exact ⟨_, rfl⟩
    | _ => cases hblock

theorem Arena.ConfinedTo.confines (htree : a.IsTreeUnder scope) (h : a.ConfinedTo target scope block) :
    Tree.Confines target (a.tree block) (a.tree scope) where
  nodup := a.postOrder_eq scope ▸ htree
  same u hu hid := by
    rw [htree.eq_tree hu, hid, (htree.tree_mem_subtrees h.mem).2]
  concerned u hu hconcerns := by
    obtain ⟨hb, -⟩ := htree.tree_mem_subtrees h.mem
    refine ⟨hb, ?_⟩
    obtain ⟨k, hk, hconcerns⟩ := hconcerns
    have hblock : u.id ∈ a.postOrder block := by
      have hscope : u.id ∈ a.postOrder scope := a.postOrder_eq scope ▸ List.mem_map_of_mem hu
      cases u with
      | missing n => cases hk
      | node n k =>
        obtain rfl := Option.some.inj hk
        obtain ⟨f, k₀, hk₀, rfl⟩ := kind?_of_mem_treeWithin hu
        rw [NodeKind.declaration?_map, NodeKind.isJump_map] at hconcerns
        rcases hconcerns with hnames | hjump
        · exact h.names n hscope (by rw [hk₀]; exact hnames)
        · exact h.jumps n hscope (by rw [hk₀]; exact hjump)
    rw [postOrder_eq] at hblock
    obtain ⟨u', hu', hid⟩ := List.mem_map.1 hblock
    rwa [htree.eq_tree hu, ← hid, ← htree.eq_tree (Tree.mem_subtrees_trans hb hu')]

/-- **The smallest scope is enough**: in an arena that is a tree, checking a block with all that concerns the target is
checking the whole scope. -/
theorem checkAssignment_eq_of_confinedTo (m : Model) (htree : a.IsTreeUnder scope)
    (h : a.ConfinedTo target scope block) :
    checkAssignment a m target scope = checkAssignment a m target block := by
  have hwraps := Execution.wraps_of_confines (h.exists_kind? htree) (h.confines htree)
  have hone : (Execution.nodesIn (some (a.tree scope))).count (a.tree block).id = 1 :=
    List.count_eq_one_of_mem (h.confines htree).nodup (List.mem_map_of_mem (htree.tree_mem_subtrees h.mem).1)
  have hfindings : (Assignment.run target a scope).2 = (Assignment.run target a block).2 := by
    rw [Assignment.run_eq, Assignment.run_eq]
    exact hwraps.found hone
  rw [checkAssignment, checkAssignment, hfindings]

/-- `while (true) { try { f(() { value x; x; }); } finally { 1; } }`. -/
def readInLambda : Arena := Execution.arenaOf [.valueDecl ⟨2⟩ none none, .reference ⟨2⟩ .unqualified,
  .exprStmt (some ⟨1⟩), .block [some ⟨0⟩, some ⟨2⟩], .lambda [] (some ⟨3⟩), .literal, .call (some ⟨5⟩) [some ⟨4⟩],
  .exprStmt (some ⟨6⟩), .block [some ⟨7⟩], .literal, .exprStmt (some ⟨9⟩), .block [some ⟨10⟩],
  .tryCatch (some ⟨8⟩) [] (some ⟨11⟩), .block [some ⟨12⟩], .literal, .whileLoop (some ⟨14⟩) (some ⟨13⟩),
  .block [some ⟨15⟩]]

/-- The read before any assignment is found from the body of the lambda as from outside of the loop. -/
theorem checkAssignment_readInLambda :
    readInLambda.IsTreeUnder ⟨16⟩ ∧ readInLambda.ConfinedTo ⟨2⟩ ⟨16⟩ ⟨3⟩ ∧
      checkAssignment readInLambda Execution.oneLocal ⟨2⟩ ⟨3⟩ ≠ [] ∧
      checkAssignment readInLambda Execution.oneLocal ⟨2⟩ ⟨16⟩ =
        checkAssignment readInLambda Execution.oneLocal ⟨2⟩ ⟨3⟩ := by
  have htree : readInLambda.IsTreeUnder ⟨16⟩ := by
    unfold Arena.IsTreeUnder
    decide
  have hconfined : readInLambda.ConfinedTo ⟨2⟩ ⟨16⟩ ⟨3⟩ := ⟨by decide, by decide, by decide, by decide⟩
  refine ⟨htree, hconfined, ?_, checkAssignment_eq_of_confinedTo _ htree hconfined⟩
  unfold checkAssignment
  rw [ne_eq, List.map_eq_nil_iff]
  decide

end SemCheck
