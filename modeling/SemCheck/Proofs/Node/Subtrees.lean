import Mathlib.Logic.ExistsUnique
import SemCheck.Node.PostOrder
import SemCheck.Node.Tree

/-!
# What stands under a node

`Tree.subtrees` lists the trees under a tree, and the tree itself, each after the trees under it. For the tree under a
node of an arena these are the nodes that `Arena.postOrder` lists (`postOrder_eq`), so that an arena is a tree under a
node exactly if that list has no repetition (`IsTreeUnder`), and what is asked of every node under a node is asked of
every subtree (`kind?_of_mem_subtrees`).

The declaring nodes of one declaration are counted: `Tree.declarers` lists them, and there is at most one where the
arena is a tree with a single declaring node (`length_declarers_le_one`).
-/

namespace SemCheck

namespace NodeKind

variable {γ δ : Type}

theorem map_id (k : NodeKind γ) : k.map id = k := by
  cases k with
  | functionDecl d parameters body => cases body <;> simp [map, FunctionBody.map]
  | reference d qualifier => cases qualifier <;> simp [map, Qualifier.map]
  | _ => simp [map]

theorem declaration?_map (f : γ → δ) (k : NodeKind γ) : (k.map f).declaration? = k.declaration? := by
  cases k <;> rfl

theorem declared?_map (f : γ → δ) (k : NodeKind γ) : (k.map f).declared? = k.declared? := by cases k <;> rfl

/-- Whether the node is a jump. -/
def isJump : NodeKind γ → Bool
  | returnStmt _ | throwStmt _ | breakStmt | continueStmt => true
  | _ => false

theorem isJump_map (f : γ → δ) (k : NodeKind γ) : (k.map f).isJump = k.isJump := by cases k <;> rfl

/-- Whether the node is a try statement with a finally clause. -/
def hasFinalizer : NodeKind γ → Bool
  | tryCatch _ _ finalizer => finalizer.isSome
  | _ => false

/-- Whether one of several parts of the node runs. -/
def isFork : NodeKind γ → Bool
  | ifElse .. | switch .. => true
  | _ => false

/-- Whether parts of the node run any number of times. -/
def isLoop : NodeKind γ → Bool
  | whileLoop .. | doWhile .. | forLoop .. => true
  | _ => false

/-- Whether the parts of the node run in order, and nothing else is done. -/
def isPlain : NodeKind γ → Bool
  | block .. | exprStmt .. | caseArm .. | catchClause .. | literal | call .. | binary .. | extendedType ..
  | satisfiedTypes .. | staticType .. => true
  | _ => false

theorem hasFinalizer_map (f : γ → δ) (k : NodeKind γ) : (k.map f).hasFinalizer = k.hasFinalizer := by
  cases k with
  | tryCatch body catches finalizer => simp [map, hasFinalizer]
  | _ => rfl

end NodeKind

namespace Tree

/-- The trees under a tree and the tree itself, inner ones first. -/
def subtrees : Tree → List Tree :=
  fold (fun id => [.missing id]) fun id k => k.children.flatMap Prod.snd ++ [.node id (k.map Prod.fst)]

theorem subtrees_missing (id : NodeId) : subtrees (.missing id) = [.missing id] := fold_missing ..

theorem subtrees_node (id : NodeId) (k : NodeKind Tree) :
    subtrees (.node id k) = k.children.flatMap subtrees ++ [.node id k] := by
  have hmap : (k.map (folded (fun id => [.missing id]) fun id (k : NodeKind (Tree × List Tree)) =>
      k.children.flatMap Prod.snd ++ [.node id (k.map Prod.fst)])).map Prod.fst = k := by
    rw [NodeKind.map_map]
    exact NodeKind.map_id k
  rw [subtrees, fold_node, hmap, NodeKind.children_map, List.flatMap_map]
  rfl

theorem mem_subtrees_self (t : Tree) : t ∈ t.subtrees := by
  cases t with
  | missing id => simp [subtrees_missing]
  | node id k => simp [subtrees_node]

/-- What stands under a part of a node stands under the node. -/
theorem mem_subtrees_of_mem_children {id : NodeId} {k : NodeKind Tree} {c u : Tree} (hc : c ∈ k.children)
    (hu : u ∈ c.subtrees) : u ∈ (Tree.node id k).subtrees := by
  rw [subtrees_node]
  exact List.mem_append_left _ (List.mem_flatMap.2 ⟨c, hc, hu⟩)

theorem mem_subtrees_trans {t u v : Tree} (hu : u ∈ t.subtrees) (hv : v ∈ u.subtrees) : v ∈ t.subtrees := by
  induction t with
  | missing id =>
    rw [subtrees_missing, List.mem_singleton] at hu
    rwa [hu] at hv
  | node id k ih =>
    rw [subtrees_node] at hu
    rcases List.mem_append.1 hu with hu | hu
    · obtain ⟨c, hc, hu⟩ := List.mem_flatMap.1 hu
      exact mem_subtrees_of_mem_children hc (ih c hc hu)
    · rw [List.mem_singleton] at hu
      rwa [hu] at hv

/-- What stands under a node other than it stands under one of its parts. -/
theorem exists_mem_children_of_mem_subtrees {id : NodeId} {k : NodeKind Tree} {u : Tree}
    (hu : u ∈ (Tree.node id k).subtrees) (hne : .node id k ≠ u) : ∃ c ∈ k.children, u ∈ c.subtrees := by
  rw [subtrees_node, List.mem_append, List.mem_singleton] at hu
  exact List.mem_flatMap.1 (hu.resolve_right (Ne.symm hne))

/-! ## Declaring nodes -/

/-- Whether the node itself declares `d`. -/
def declares (d : DeclId) (t : Tree) : Bool := (t.kind?.bind NodeKind.declared?) = some d

/-- The nodes that declare `d`. -/
def declarers (d : DeclId) (t : Tree) : List Tree := t.subtrees.filter (declares d)

theorem declarers_node (d : DeclId) (id : NodeId) (k : NodeKind Tree) :
    declarers d (.node id k) =
      k.children.flatMap (declarers d) ++ if k.declared? = some d then [.node id k] else [] := by
  rw [declarers, subtrees_node, List.filter_append, List.filter_flatMap]
  congr 1
  by_cases h : k.declared? = some d <;> simp [declares, kind?, h]

end Tree

/-! ## Arenas -/

namespace Arena

theorem postOrderWithin_nil (a : Arena) (room : Nat) (n : NodeId) :
    a.postOrderWithin room n [] = (a.treeWithin room n).subtrees.map Tree.id := by
  induction room generalizing n with
  | zero => simp [postOrderWithin, treeWithin, Tree.subtrees_missing, Tree.id]
  | succ room ih =>
    have fold_eq (ns later : List NodeId) : ns.foldr (a.postOrderWithin room) later =
        ns.flatMap (fun m => (a.treeWithin room m).subtrees.map Tree.id) ++ later := by
      induction ns with
      | nil => rfl
      | cons m ns ih' =>
        rw [List.foldr_cons, ih', postOrderWithin_eq_append, ih, List.flatMap_cons, List.append_assoc]
    rw [postOrderWithin, fold_eq, children, treeWithin]
    cases a.kind? n with
    | none => simp [Tree.subtrees_missing, Tree.id]
    | some k =>
      simp [Tree.subtrees_node, NodeKind.children_map, List.map_flatMap, List.flatMap_map, Tree.id]

/-- **The nodes under a node** are those of the tree under it. -/
theorem postOrder_eq (a : Arena) (n : NodeId) : a.postOrder n = (a.tree n).subtrees.map Tree.id :=
  a.postOrderWithin_nil _ n

/-- A node of a tree is the arena's node of that number, with trees for its parts. -/
theorem kind?_of_mem_treeWithin {a : Arena} {room : Nat} {n id : NodeId} {k : NodeKind Tree}
    (h : .node id k ∈ (a.treeWithin room n).subtrees) : ∃ f k₀, a.kind? id = some k₀ ∧ k = k₀.map f := by
  induction room generalizing n with
  | zero => simp [treeWithin, Tree.subtrees_missing] at h
  | succ room ih =>
    rw [treeWithin] at h
    cases hk : a.kind? n with
    | none => simp [hk, Tree.subtrees_missing] at h
    | some k₀ =>
      simp only [hk, Tree.subtrees_node, NodeKind.children_map, List.flatMap_map, List.mem_append, List.mem_flatMap,
        List.mem_singleton, Tree.node.injEq] at h
      rcases h with ⟨m, _, hm⟩ | ⟨rfl, rfl⟩
      · exact ih hm
      · exact ⟨_, k₀, hk, rfl⟩

/-- No node stands in two places under `n`. -/
def IsTreeUnder (a : Arena) (n : NodeId) : Prop := (a.postOrder n).Nodup

/-- The declaration that a node declares. -/
def declaredAt? (a : Arena) (n : NodeId) : Option DeclId := (a.kind? n).bind NodeKind.declared?

/-- Exactly one node under `n` declares `d`. -/
def DeclaredOnceUnder (a : Arena) (n : NodeId) (d : DeclId) : Prop :=
  ∃! m, m ∈ a.postOrder n ∧ a.declaredAt? m = some d

/-- No node under `n` is a try statement with a finally clause. -/
def NoFinalizerUnder (a : Arena) (n : NodeId) : Prop :=
  ∀ m ∈ a.postOrder n, (a.kind? m).any NodeKind.hasFinalizer = false

theorem declaredAt?_of_declares {a : Arena} {n : NodeId} {d : DeclId} {u : Tree} (hu : u ∈ (a.tree n).subtrees)
    (h : u.declares d) : a.declaredAt? u.id = some d := by
  cases u with
  | missing id => simp [Tree.declares, Tree.kind?] at h
  | node id k =>
    obtain ⟨f, k₀, hk, rfl⟩ := kind?_of_mem_treeWithin hu
    simpa [Tree.declares, Tree.kind?, NodeKind.declared?_map, declaredAt?, Tree.id, hk] using h

/-- Where the arena is a tree, a declaration with one declaring node is declared in one place. -/
theorem length_declarers_le_one {a : Arena} {n : NodeId} {d : DeclId} (htree : a.IsTreeUnder n)
    (hone : a.DeclaredOnceUnder n d) : ((a.tree n).declarers d).length ≤ 1 := by
  obtain ⟨m, -, hm⟩ := hone
  rw [IsTreeUnder, postOrder_eq] at htree
  have hall : ∀ id ∈ ((a.tree n).declarers d).map Tree.id, id = m := by
    intro id hid
    obtain ⟨u, hu, rfl⟩ := List.mem_map.1 hid
    obtain ⟨hmem, hdecl⟩ := List.mem_filter.1 hu
    exact hm _ ⟨by rw [postOrder_eq]; exact List.mem_map_of_mem hmem, declaredAt?_of_declares hmem hdecl⟩
  have hnodup : (((a.tree n).declarers d).map Tree.id).Nodup :=
    htree.sublist (List.filter_sublist.map Tree.id)
  have hrep := List.eq_replicate_of_mem hall
  rw [hrep, List.nodup_replicate, List.length_map] at hnodup
  exact hnodup

theorem hasFinalizer_of_mem_subtrees {a : Arena} {n id : NodeId} {k : NodeKind Tree} (hno : a.NoFinalizerUnder n)
    (h : .node id k ∈ (a.tree n).subtrees) : k.hasFinalizer = false := by
  obtain ⟨f, k₀, hk, rfl⟩ := kind?_of_mem_treeWithin h
  have hid : id ∈ a.postOrder n := by
    rw [postOrder_eq]
    exact List.mem_map_of_mem h
  have := hno id hid
  rw [hk] at this
  rw [NodeKind.hasFinalizer_map]
  exact this

end Arena

end SemCheck
