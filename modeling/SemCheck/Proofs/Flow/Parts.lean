import Mathlib.Algebra.Order.BigOperators.Group.List
import Mathlib.Algebra.Order.Ring.Nat
import SemCheck.Flow.Assignment
import SemCheck.Proofs.Flow.Execution

/-!
# What the check does at a node

The pass of a node by its kind, in terms of the passes of its parts (`pass_plain`, `pass_declaring` and their
neighbours), and the number of declaring nodes of the target in a part (`count`).
-/

namespace SemCheck.Execution

open Runs

variable {target : DeclId}

/-! ## Counting declaring nodes -/

section

variable {ι : Type} {l : List ι} {n : ι → Nat}

theorem le_sum {i : ι} (hi : i ∈ l) : n i ≤ (l.map n).sum :=
  List.le_sum_of_mem (List.mem_map_of_mem hi)

theorem eq_zero_of_sum (h : (l.map n).sum = 0) {i : ι} (hi : i ∈ l) : n i = 0 :=
  Nat.le_zero.1 (h ▸ le_sum hi)

theorem sum_take_le (l : List ι) (n : ι → Nat) (i : Nat) : ((l.take i).map n).sum ≤ (l.map n).sum :=
  ((List.take_sublist i l).map n).sum_le_sum fun _ _ => Nat.zero_le _

end

/-- The number of declaring nodes of the target in a slot. -/
def count (target : DeclId) : Option Tree → Nat
  | some t => (t.declarers target).length
  | none => 0

theorem count_node (n : NodeId) (k : NodeKind Tree) : count target (some (.node n k)) =
    (k.slots.map (count target)).sum + if k.declared? = some target then 1 else 0 := by
  have hparts (os : List (Option Tree)) :
      ((os.filterMap id).flatMap (Tree.declarers target)).length = (os.map (count target)).sum := by
    induction os with
    | nil => rfl
    | cons o os ih =>
      cases o with
      | none =>
        rw [List.filterMap_cons_none rfl, ih, List.map_cons, List.sum_cons]
        exact (Nat.zero_add _).symm
      | some t =>
        have hcons : (some t :: os).filterMap id = t :: os.filterMap id := rfl
        rw [hcons, List.flatMap_cons, List.length_append, ih, List.map_cons, List.sum_cons]
        rfl
  rw [count, Tree.declarers_node, List.length_append, NodeKind.children, hparts]
  split <;> rfl

theorem count_missing (n : NodeId) : count target (some (.missing n)) = 0 := by
  simp [count, Tree.declarers, Tree.subtrees_missing, Tree.declares, Tree.kind?]

theorem sum_le_count (target : DeclId) (n : NodeId) (k : NodeKind Tree) :
    (k.slots.map (count target)).sum ≤ count target (some (.node n k)) := by
  rw [count_node]
  exact Nat.le_add_right _ _

theorem count_le_of_mem_children {n : NodeId} {k : NodeKind Tree} {t : Tree} (ht : t ∈ k.children) :
    count target (some t) ≤ count target (some (.node n k)) :=
  Nat.le_trans (le_sum (NodeKind.mem_children_iff.1 ht)) (sum_le_count ..)

/-! ## The passes by kind -/

/-- The pass of the part in a slot, which may be empty. -/
def partPass (target : DeclId) (o : Option Tree) : Pass := Subnode.slot (o.map (Assignment.subnode target))

variable {n : NodeId} {k : NodeKind Tree}

theorem pass_node (n : NodeId) (k : NodeKind Tree) :
    partPass target (some (.node n k)) = Assignment.step target n (k.map (Assignment.subnode target)) := by
  rw [partPass, Option.map_some, Assignment.subnode_node]
  rfl

theorem map_slot_pass (os : List (Option Tree)) :
    (os.map (Option.map (Assignment.subnode target))).map Subnode.slot = os.map (partPass target) := by
  rw [List.map_map]
  rfl

theorem slots_pass (k : NodeKind Tree) :
    Subnode.slots (k.map (Assignment.subnode target)).slots = .all (k.slots.map (partPass target)) := by
  rw [Subnode.slots, NodeKind.slots_map, map_slot_pass]

theorem pass_plain (hk : k.isPlain) :
    partPass target (some (.node n k)) = .all (k.slots.map (partPass target)) := by
  rw [pass_node, ← slots_pass]
  cases k <;> first | rfl | cases hk

theorem pass_lambda {parameters : List (Option Tree)} {body : Option Tree} :
    partPass target (some (.node n (.lambda parameters body))) =
      .nested (.all ((NodeKind.lambda parameters body).slots.map (partPass target))) := by
  rw [pass_node, ← slots_pass]
  rfl

theorem pass_declaring {d : DeclId} (hk : k.declared? = some d) :
    partPass target (some (.node n k)) =
      if d = target then Assignment.declare (k.map (Assignment.subnode target))
      else .nested (.all (k.slots.map (partPass target))) := by
  rw [pass_node, ← slots_pass]
  cases k <;> first | (cases hk; rfl) | cases hk

theorem pass_switch {subject default : Option Tree} {arms : List (Option Tree)} {exhaustive : Bool} :
    partPass target (some (.node n (.switch subject arms default exhaustive))) =
      (partPass target subject).andThen
        (.fork ((arms ++ if default.isSome || !exhaustive then [default] else []).map (partPass target))) := by
  rw [pass_node, List.map_append, ← map_slot_pass arms]
  cases default <;> cases exhaustive <;> rfl

theorem andThen_skip (p : Pass) : p.andThen .skip = p := by
  funext s
  simp [Pass.andThen, Pass.skip, Pass.change]

/-- A loop with no clause after it. -/
theorem loop_eq {os : List (Option Tree)}
    (hpass : partPass target (some (.node n k)) = .loop (.all (os.map (partPass target)))) :
    partPass target (some (.node n k)) =
      (Pass.loop (.all (os.map (partPass target)))).andThen (partPass target none).interruptible :=
  hpass.trans (andThen_skip _).symm

/-- The block and the catch clauses of a try statement. -/
def tried (target : DeclId) (body : Option Tree) (catches : List (Option Tree)) : Pass :=
  if catches.isEmpty then partPass target body
  else (partPass target body).interruptible.andThen (.all (catches.map fun o => (partPass target o).interruptible))

theorem pass_try {body finalizer : Option Tree} {catches : List (Option Tree)} :
    partPass target (some (.node n (.tryCatch body catches finalizer))) =
      (tried target body catches).andThen (partPass target finalizer).keepDeclared := by
  rw [pass_node]
  show Pass.andThen (if (catches.map (Option.map (Assignment.subnode target))).isEmpty then partPass target body
    else .all ((body.map (Assignment.subnode target) :: catches.map (Option.map (Assignment.subnode target))).map
      fun o => (Subnode.slot o).interruptible)) (partPass target finalizer).keepDeclared = _
  rw [tried, List.isEmpty_map, List.map_cons, List.map_map]
  rfl

theorem pass_tryCatch {body : Option Tree} {catches : List (Option Tree)} :
    partPass target (some (.node n (.tryCatch body catches none))) = tried target body catches := by
  rw [pass_try]
  exact andThen_skip _

/-- A check that finds nothing wrong is a walk through the tree under the scope without findings. -/
theorem findings_eq_nil {a : Arena} {m : Model} {scope : NodeId} (hcheck : checkAssignment a m target scope = []) :
    (partPass target (some (a.tree scope)) .initial).2 = [] := by
  rw [checkAssignment, List.map_eq_nil_iff, Assignment.run_eq] at hcheck
  exact hcheck

/-! ## Where the target is named -/

/-- The state inside the declaring node of the target. -/
def inside (k : NodeKind Subnode) (s : FlowState) : FlowState :=
  if Assignment.assignedInside k then { s with declared := true }.assigned else s

theorem assigned_map (f : Tree → Subnode) (k : NodeKind Tree) :
    Assignment.assignedInside (k.map f) = valuedInside k ∧ Assignment.assignedAfter (k.map f) = valuedAfter k := by
  cases k with
  | functionDecl d parameters body => cases body <;> exact ⟨rfl, rfl⟩
  | valueDecl d typeClause initializer => cases initializer <;> exact ⟨rfl, rfl⟩
  | _ => exact ⟨rfl, rfl⟩

theorem inside_of_not {k : NodeKind Subnode} (h : Assignment.assignedInside k = false) (s : FlowState) :
    inside k s = s := by
  simp [inside, h]

theorem declare_eq (k : NodeKind Subnode) (s : FlowState) : Assignment.declare k s =
    (if Assignment.assignedAfter k then (inside k s).passed.assigned else (inside k s).passed,
      (Subnode.slots k.slots (inside k s).withBarrier).2) := rfl

theorem specifies_eq (left : Option Tree) :
    Assignment.specifies target (left.map (Assignment.subnode target)) = specifies target left := by
  cases left with
  | none => rfl
  | some t =>
    cases t with
    | missing m => rfl
    | node m k =>
      have hsub := Assignment.subnode_node target m k
      simp only [Assignment.specifies, specifies, Option.map_some, hsub, Option.bind_eq_bind, Option.bind_some,
        Tree.kind?]
      split
      · next d hd => simp [hd]
      · next hd => simp [hd]

/-- The left side of a specifier of the target is a reference to it. -/
theorem exists_of_specifies {left : Option Tree} (h : specifies target left = true) :
    ∃ m k, left = some (.node m k) ∧ k.localReference? = some target := by
  cases left with
  | none => exact absurd h nofun
  | some t =>
    cases t with
    | missing m => exact absurd h nofun
    | node m k => exact ⟨m, k, rfl, of_decide_eq_true h⟩

theorem pass_of_specifies {left : Option Tree} (h : specifies target left = true) :
    ∃ m, partPass target left = Assignment.read m := by
  obtain ⟨m, k, rfl, hk⟩ := exists_of_specifies h
  refine ⟨m, ?_⟩
  rw [pass_node]
  cases k with
  | reference d qualifier =>
    cases qualifier with
    | expr primary => exact absurd hk nofun
    | unqualified | self =>
      cases hk
      exact if_pos rfl
  | _ => exact absurd hk nofun

end SemCheck.Execution
