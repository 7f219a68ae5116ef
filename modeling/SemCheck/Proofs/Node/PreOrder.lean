import Mathlib.Data.List.Perm.Basic
import SemCheck.Proofs.Node.Subtrees

/-!
# Parents before children

`Arena.preOrder` lists the nodes under a node in source order, every node before the nodes under it, and `Tree.preorder`
does so for a tree. For the tree under a node of an arena these are the same nodes (`preOrder_eq`), and the nodes that
`Arena.postOrder` lists, in another order (`preOrder_perm`).
-/

namespace SemCheck

theorem NodeKind.flatMap_children {γ α : Type} (k : NodeKind γ) (f : γ → List α) :
    k.children.flatMap f = k.slots.flatMap fun o => o.elim [] f := by
  rw [children]
  induction k.slots with
  | nil => rfl
  | cons o os ih => cases o <;> simp_all

namespace Tree

/-- The tree itself and the trees under it, outer ones first. -/
def preorder : Tree → List Tree :=
  fold (fun id => [.missing id]) fun id k => .node id (k.map Prod.fst) :: k.children.flatMap Prod.snd

theorem preorder_missing (id : NodeId) : preorder (.missing id) = [.missing id] := fold_missing ..

theorem preorder_node (id : NodeId) (k : NodeKind Tree) :
    preorder (.node id k) = .node id k :: k.children.flatMap preorder := by
  have hmap : (k.map (folded (fun id => [.missing id]) fun id (k : NodeKind (Tree × List Tree)) =>
      .node id (k.map Prod.fst) :: k.children.flatMap Prod.snd)).map Prod.fst = k := by
    rw [NodeKind.map_map]
    exact NodeKind.map_id k
  rw [preorder, fold_node, hmap, NodeKind.children_map, List.flatMap_map]
  rfl

/-- The same trees in either order. -/
theorem preorder_perm (t : Tree) : t.preorder.Perm t.subtrees := by
  induction t with
  | missing id =>
    rw [preorder_missing, subtrees_missing]
  | node id k ih =>
    rw [preorder_node, subtrees_node]
    exact ((List.Perm.flatMap_left _ ih).cons _).trans (List.perm_append_singleton _ _).symm

end Tree

namespace Arena

/-- The nodes under `n` down to `room` levels, after `n` itself. -/
def preOrderWithin (a : Arena) : (room : Nat) → NodeId → List NodeId
  | 0, n => [n]
  | room + 1, n => n :: (a.children n).flatMap (preOrderWithin a room)

/-- The nodes under `n`, and `n` itself, each before the nodes under it. -/
def preOrder (a : Arena) (n : NodeId) : List NodeId := a.preOrderWithin a.nodes.size n

variable (a : Arena) (n : NodeId)

theorem preOrderWithin_eq (room : Nat) (n : NodeId) :
    a.preOrderWithin room n = (a.treeWithin room n).preorder.map Tree.id := by
  induction room generalizing n with
  | zero => simp [preOrderWithin, treeWithin, Tree.preorder_missing, Tree.id]
  | succ room ih =>
    rw [preOrderWithin, children, treeWithin]
    cases a.kind? n with
    | none => simp [Tree.preorder_missing, Tree.id]
    | some k =>
      have key : a.preOrderWithin room = fun m => (a.treeWithin room m).preorder.map Tree.id := funext ih
      simp [Tree.preorder_node, NodeKind.children_map, List.map_flatMap, List.flatMap_map, Tree.id, key]

/-- **The nodes under a node** are those of the tree under it. -/
theorem preOrder_eq : a.preOrder n = (a.tree n).preorder.map Tree.id := a.preOrderWithin_eq _ n

theorem preOrder_perm : (a.preOrder n).Perm (a.postOrder n) := by
  rw [preOrder_eq, postOrder_eq]
  exact (a.tree n).preorder_perm.map Tree.id

variable {a n}

theorem IsTreeUnder.nodup_preOrder (htree : a.IsTreeUnder n) : (a.preOrder n).Nodup :=
  (a.preOrder_perm n).nodup_iff.2 htree

end Arena

end SemCheck
