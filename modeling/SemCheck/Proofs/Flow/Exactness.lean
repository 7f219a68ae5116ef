import Mathlib.Data.List.Flatten
import SemCheck.Proofs.Flow.Exact

/-!
# Definite assignment is exact on branching code

Code without loops, try statements and bodies of their own is *branching*: its statements run in order, one of several
branches runs at a time, and a jump ends it (`Tree.isBranching`). In a block of such code that starts with the
declaration of the target, a read is reported as not definitely assigned exactly if some execution comes to it without
having run an accepted specifier to its end (`checkAssignment_exact`). Reads in the right side of a rejected specifier
are excepted, as the check does not look there.

The proof is an induction over the trees under the scope, with one lemma of `Exact` for each way of putting a node
together (`exact_node`).
-/

namespace SemCheck

/-! ## Branching code -/

namespace NodeKind

variable {γ : Type}

def isExpression : NodeKind γ → Bool
  | reference .. | literal | call .. | binary .. => true
  | _ => false

/-- Whether the node is an expression, or a statement that neither repeats nor guards anything nor declares. -/
def isBranching : NodeKind γ → Bool
  | block .. | exprStmt .. | specifier .. | ifElse .. | switch .. | caseArm .. | returnStmt .. | throwStmt ..
  | breakStmt | continueStmt => true
  | k => k.isExpression

/-- The parts of which the value is needed. -/
def operands : NodeKind γ → List (Option γ)
  | specifier left value => [left, value]
  | ifElse condition _ _ => [condition]
  | switch subject _ _ _ => [subject]
  | caseArm pattern _ => [pattern]
  | returnStmt value | throwStmt value => [value]
  | k => if k.isExpression then k.slots else []

end NodeKind

namespace Tree

def isExpression (t : Tree) : Bool := t.kind?.all NodeKind.isExpression

/-- Whether the tree is branching code in which every operand is an expression. -/
def isBranching (t : Tree) : Bool :=
  t.subtrees.all fun u => u.kind?.all fun k => k.isBranching && k.operands.all fun o => o.all isExpression

theorem isBranching_node {n : NodeId} {k : NodeKind Tree} (h : (Tree.node n k).isBranching = true) :
    k.isBranching = true ∧ (∀ t, some t ∈ k.operands → t.isExpression = true) ∧
      ∀ t, some t ∈ k.slots → t.isBranching = true := by
  rw [isBranching, subtrees_node, List.all_append, Bool.and_eq_true, List.all_flatMap] at h
  obtain ⟨hparts, hself⟩ := h
  simp only [List.all_cons, List.all_nil, Bool.and_true, kind?, Option.all_some, Bool.and_eq_true] at hself
  refine ⟨hself.1, fun t ht => ?_, fun t ht => ?_⟩
  · exact List.all_eq_true.1 hself.2 _ ht
  · exact List.all_eq_true.1 hparts t (NodeKind.mem_children_iff.2 ht)

end Tree

namespace Execution

open Runs

/-- The nodes in a slot. -/
def nodesIn : Option Tree → List NodeId
  | some t => t.subtrees.map Tree.id
  | none => []

theorem nodesIn_node (n : NodeId) (k : NodeKind Tree) :
    nodesIn (some (.node n k)) = k.slots.flatMap nodesIn ++ [n] := by
  have hparts (os : List (Option Tree)) :
      ((os.filterMap id).flatMap fun t => t.subtrees.map Tree.id) = os.flatMap nodesIn := by
    induction os with
    | nil => rfl
    | cons o os ih => cases o <;> simp_all [nodesIn]
  rw [nodesIn, Tree.subtrees_node, List.map_append, List.map_flatMap, NodeKind.children, hparts]
  rfl

theorem nodesIn_subset {n : NodeId} {k : NodeKind Tree} {o : Option Tree} (ho : o ∈ k.slots) :
    nodesIn o ⊆ nodesIn (some (.node n k)) := by
  intro m hm
  rw [nodesIn_node]
  exact List.mem_append_left _ (List.mem_flatMap.2 ⟨o, ho, hm⟩)

/-- The nodes in the right side of a specifier of the target. -/
def specifiedBy (target : DeclId) : Tree → List NodeId
  | .node _ (.specifier left value) => if specifies target left then nodesIn value else []
  | _ => []

/-- Whether a node stands in the right side of a rejected specifier. -/
def InRejected (rejected : NodeId → Prop) (target : DeclId) (t : Tree) (n : NodeId) : Prop :=
  ∃ u ∈ t.subtrees, rejected u.id ∧ n ∈ specifiedBy target u

/-! ## The induction -/

section

variable {target : DeclId} {rejected : NodeId → Prop} {n m : NodeId} {k : NodeKind Tree}

/-- **Expressions** are evaluated. -/
theorem evaluates {t : Tree} (hbranching : t.isBranching = true) (h : t.isExpression = true) :
    Evaluates (nodesIn (some t)) (runs target t) := by
  induction t with
  | missing m =>
    rw [runs, Tree.fold_missing]
    exact Evaluates.skip.mono (List.nil_subset _)
  | node m k ih =>
    obtain ⟨-, hoperands, hparts⟩ := Tree.isBranching_node hbranching
    have hexpression : k.isExpression = true := h
    have hslots : k.operands = k.slots := by cases k <;> first | rfl | cases hexpression
    have hpart (o : Option Tree) (ho : o ∈ k.slots) :
        Evaluates (nodesIn (some (.node m k))) (within (runs target) o) := by
      cases o with
      | none => exact Evaluates.skip.mono (List.nil_subset _)
      | some t =>
        have ht := ih t (NodeKind.mem_children_iff.2 ho) (hparts t ho) (hoperands t (hslots ▸ ho))
        exact ht.mono (nodesIn_subset ho)
    have hall : Evaluates (nodesIn (some (.node m k))) (all (k.slots.map (within (runs target)))) :=
      Evaluates.all (List.forall_mem_map.2 hpart)
    rw [runs_node]
    cases k with
    | reference d qualifier =>
      cases qualifier with
      | expr primary => exact hpart primary (by simp [NodeKind.slots, Qualifier.slots])
      | unqualified | self =>
        show Evaluates _ (if d = target then event (.read m) else skip)
        split
        · refine (Evaluates.read m).mono ?_
          rw [nodesIn_node]
          exact List.subset_append_right ..
        · exact Evaluates.skip.mono (List.nil_subset _)
    | literal | call | binary =>
      rw [step_plain rfl]
      exact hall
    | _ => cases hexpression

/-- The pass of a part is exact. -/
def ExactPart (rejected : NodeId → Prop) (n : NodeId) (target : DeclId) (o : Option Tree) : Prop :=
  Exact rejected n (nodesIn o) (partPass target o) (within (runs target) o)

/-- Alternatives after a first part. -/
theorem exact_fork {first : Option Tree} {os others : List (Option Tree)} (hfirst : ExactPart rejected n target first)
    (hos : ∀ o ∈ os, ExactPart rejected n target o) (hsub : os.Sublist others)
    (hnodup : ((first :: others).flatMap nodesIn).Nodup) :
    Exact rejected n ((first :: others).flatMap nodesIn)
      ((partPass target first).andThen (.fork (os.map (partPass target))))
      (Seq (within (runs target) first) (oneOf (os.map (within (runs target))))) := by
  have hnodes : (os.flatMap nodesIn).Sublist (others.flatMap nodesIn) := hsub.flatMap nodesIn
  rw [List.flatMap_cons] at hnodup ⊢
  obtain ⟨-, hothers, hdisjoint⟩ := List.nodup_append'.1 hnodup
  have hfork := Exact.fork hos (hothers.sublist hnodes)
  refine (hfirst.andThen hfork fun x hx hx' => hdisjoint hx (hnodes.subset hx')).mono ?_
  exact List.append_subset.2 ⟨List.subset_append_left .., List.subset_append_of_subset_right _ hnodes.subset⟩

/-- What is asked of a tree for its pass to be exact. -/
structure Plain (rejected : NodeId → Prop) (target : DeclId) (n : NodeId) (t : Tree) : Prop where
  branching : t.isBranching = true
  nodup : (nodesIn (some t)).Nodup
  visible : ¬ InRejected rejected target t n

/-- One step of the induction: the pass of a node is exact if those of the trees under it are. -/
theorem exact_node (h : Plain rejected target n (.node m k))
    (hparts : ∀ t ∈ k.children, ExactPart rejected n target (some t)) :
    ExactPart rejected n target (some (.node m k)) := by
  obtain ⟨hbranching, hoperands, hbranches⟩ := Tree.isBranching_node h.branching
  have hpart (o : Option Tree) (ho : o ∈ k.slots) : ExactPart rejected n target o := by
    cases o with
    | none => exact .skip
    | some t => exact hparts t (NodeKind.mem_children_iff.2 ho)
  have hnodup := h.nodup
  unfold ExactPart
  rw [nodesIn_node] at hnodup ⊢
  obtain ⟨hslots, -, hself⟩ := List.nodup_append'.1 hnodup
  have hall : Exact rejected n (k.slots.flatMap nodesIn ++ [m]) (.all (k.slots.map (partPass target)))
      (all (k.slots.map (within (runs target)))) :=
    (Exact.all hpart hslots).mono (List.subset_append_left ..)
  show Exact _ _ _ _ (runs target (.node m k))
  rw [runs_node]
  cases k with
  | block | exprStmt | caseArm | literal | call | binary =>
    rw [pass_plain rfl, step_plain rfl]
    exact hall
  | reference d qualifier =>
    rw [pass_node]
    cases qualifier with
    | expr primary =>
      have hprimary := hpart primary (by simp [NodeKind.slots, Qualifier.slots])
      exact hprimary.mono (by simp [NodeKind.slots, Qualifier.slots])
    | unqualified | self =>
      show Exact _ _ _ (if d = target then Assignment.read m else .skip) (if d = target then event (.read m) else skip)
      split
      · exact (Exact.read m).mono (List.subset_append_right ..)
      · exact Exact.skip.mono (List.nil_subset _)
  | specifier left value =>
    rw [pass_node, step_specifier]
    split
    · next hleft =>
      obtain ⟨l, hread⟩ := pass_of_specifies hleft
      have hvalue : Evaluates (nodesIn value) (within (runs target) value) := by
        cases value with
        | none => exact .skip
        | some t => exact evaluates (hbranches t (by simp [NodeKind.slots])) (hoperands t (by simp [NodeKind.operands]))
      have hsub : nodesIn value ⊆ [left, value].flatMap nodesIn := by simp
      have hvisible : rejected m → n ∉ nodesIn value := by
        intro hrejected hn
        refine h.visible ⟨_, Tree.mem_subtrees_self _, hrejected, ?_⟩
        rwa [specifiedBy, if_pos hleft]
      refine (Exact.specify ((specifies_eq left).trans hleft) hread (hpart value (by simp [NodeKind.slots])) hvalue
        (fun hm => hself (hsub hm) (List.mem_singleton_self m)) hvisible).mono ?_
      exact List.append_subset.2 ⟨List.subset_append_of_subset_left _ hsub, List.subset_append_right ..⟩
    · next hleft =>
      have hpass : Assignment.specify target m (left.map (Assignment.subnode target))
          (value.map (Assignment.subnode target)) = .all ([left, value].map (partPass target)) :=
        if_neg (by rwa [specifies_eq])
      show Exact _ _ _ (Assignment.specify target m _ _) _
      rw [hpass]
      exact hall
  | returnStmt value | throwStmt value =>
    rw [pass_node]
    have hleft : Ending.left ≠ .normal := by decide
    have hvalue := (hpart value (by simp [NodeKind.slots])).andThen (.exit hleft) (List.disjoint_nil_right _)
    exact hvalue.mono (by simp [NodeKind.slots])
  | breakStmt =>
    rw [pass_node]
    have hbroke : Ending.broke ≠ .normal := by decide
    exact (Exact.exit hbroke).mono (List.nil_subset _)
  | continueStmt =>
    rw [pass_node]
    have hcontinued : Ending.continued ≠ .normal := by decide
    exact (Exact.exit hcontinued).mono (List.nil_subset _)
  | ifElse condition thenBranch elseBranch =>
    rw [pass_node]
    refine (exact_fork (hpart condition (by simp [NodeKind.slots])) (fun o ho => hpart o ?_) (.refl _) hslots).mono ?_
    · exact List.mem_cons_of_mem _ ho
    · exact List.subset_append_left ..
  | switch subject arms default exhaustive =>
    rw [pass_switch, step_switch]
    have hsub : (arms ++ if default.isSome || !exhaustive then [default] else []).Sublist (arms ++ [default]) := by
      refine (List.Sublist.refl arms).append ?_
      split
      · exact .refl _
      · exact List.nil_sublist _
    refine (exact_fork (hpart subject (by simp [NodeKind.slots])) (fun o ho => hpart o ?_) hsub hslots).mono ?_
    · exact List.mem_cons_of_mem _ (hsub.subset ho)
    · exact List.subset_append_left ..
  | _ => cases hbranching

theorem Plain.of_mem_children {t : Tree} (h : Plain rejected target n (.node m k)) (ht : t ∈ k.children) :
    Plain rejected target n t := by
  have hslot := NodeKind.mem_children_iff.1 ht
  have hnodup := h.nodup
  rw [nodesIn_node] at hnodup
  constructor
  case branching => exact (Tree.isBranching_node h.branching).2.2 t hslot
  case nodup => exact (List.nodup_flatMap.1 (List.nodup_append'.1 hnodup).1).1 _ hslot
  case visible =>
    rintro ⟨u, hu, hrejected, hn⟩
    exact h.visible ⟨u, Tree.mem_subtrees_of_mem_children ht hu, hrejected, hn⟩

theorem exact_tree {t : Tree} (h : Plain rejected target n t) : ExactPart rejected n target (some t) := by
  induction t with
  | missing m =>
    have hskip : runs target (.missing m) = skip := Tree.fold_missing ..
    show Exact _ _ _ _ (runs target (.missing m))
    rw [hskip]
    exact Exact.skip.mono (List.nil_subset _)
  | node m k ih => exact exact_node h fun t ht => ih t ht (h.of_mem_children ht)

end

/-! ## The check of a scope -/

section

variable {a : Arena} {m : Model} {target : DeclId} {scope d n : NodeId} {typeClause : Option Tree}

/-- Something is reported at the node. -/
def Reported (a : Arena) (m : Model) (target : DeclId) (scope n : NodeId) : Prop :=
  ∃ d, (some n, d) ∈ checkAssignment a m target scope

/-- The node is reported for that. -/
def ReportedFor (a : Arena) (m : Model) (target : DeclId) (scope : NodeId) (message : Message) (n : NodeId) : Prop :=
  ∃ d, (some n, d) ∈ checkAssignment a m target scope ∧ d.code = message.code

/-- `value x;`, perhaps with a type. -/
def forward (target : DeclId) (d : NodeId) (typeClause : Option Tree) : Tree :=
  .node d (.valueDecl target typeClause none)

def IsTypeClause (o : Option Tree) : Prop := ∀ t, o = some t → ∃ d ty, t = .node d (.staticType ty)

/-- A block of branching code after the declaration of the target, which has no value. -/
def IsForwardScope (target : DeclId) (t : Tree) : Prop :=
  ∃ n d typeClause rest, t = .node n (.block (some (forward target d typeClause) :: rest)) ∧
    IsTypeClause typeClause ∧ ∀ o ∈ rest, o.all Tree.isBranching = true

theorem reported_iff :
    Reported a m target scope n ↔ ∃ f ∈ (partPass target (some (a.tree scope)) .initial).2, f.node = n := by
  simp only [Reported, checkAssignment, Assignment.run_eq, List.mem_map, Finding.diagnostic, Prod.mk.injEq,
    Option.some.injEq]
  constructor
  · rintro ⟨_, f, hf, hnode, -⟩
    exact ⟨f, hf, hnode⟩
  · rintro ⟨f, hf, hnode⟩
    exact ⟨_, f, hf, hnode, rfl⟩

theorem reportedFor_iff {message : Message} :
    ReportedFor a m target scope message n ↔ ⟨n, message⟩ ∈ (partPass target (some (a.tree scope)) .initial).2 := by
  simp only [ReportedFor, checkAssignment, Assignment.run_eq, List.mem_map, Finding.diagnostic, Prod.mk.injEq,
    Option.some.injEq]
  constructor
  · rintro ⟨_, ⟨⟨k, found⟩, hf, rfl, rfl⟩, hcode⟩
    have hfound : Message.ofCode? found.code = Message.ofCode? message.code := congrArg Message.ofCode? hcode
    rw [Message.ofCode?_code, Message.ofCode?_code, Option.some.injEq] at hfound
    exact hfound ▸ hf
  · intro hf
    exact ⟨_, ⟨_, hf, rfl, rfl⟩, rfl⟩

theorem seq_skip (r : Runs) : Seq skip r = r := by
  funext es e
  refine propext ⟨fun h => ?_, fun h => .of ⟨rfl, rfl⟩ h rfl⟩
  cases h with
  | stop h he => exact absurd h.2 he
  | go h h' =>
    rw [h.1]
    exact h'

/-- Declaring the target without a value does no more than that. -/
theorem runs_forward (htype : IsTypeClause typeClause) :
    runs target (forward target d typeClause) = event (.declare false) := by
  have hclause : partRuns target typeClause = skip := by
    cases typeClause with
    | none => rfl
    | some t =>
      obtain ⟨id, ty, rfl⟩ := htype t rfl
      show runs target (.node id (.staticType ty)) = skip
      rw [runs_plain rfl]
      rfl
  have hcontained : contained skip = skip := by
    funext es e
    refine propext ⟨?_, fun h => ⟨h.2, e, h⟩⟩
    rintro ⟨rfl, e', rfl, -⟩
    exact ⟨rfl, rfl⟩
  rw [forward, runs_declaring rfl, if_pos rfl]
  show Seq (contained (Seq (partRuns target typeClause) (Seq skip skip))) _ = _
  rw [hclause, seq_skip, seq_skip, hcontained, seq_skip]
  rfl

theorem pass_forward (htype : IsTypeClause typeClause) (s : FlowState) :
    partPass target (some (forward target d typeClause)) s = (s.passed, []) := by
  have hclause : partPass target typeClause = .skip := by
    cases typeClause with
    | none => rfl
    | some t =>
      obtain ⟨id, ty, rfl⟩ := htype t rfl
      exact pass_plain rfl
  rw [forward, pass_declaring rfl, if_pos rfl, declare_eq, slots_pass]
  show (s.passed, (Pass.all [partPass target typeClause, .skip] _).2) = _
  rw [hclause]
  rfl

theorem pass_scope (htype : IsTypeClause typeClause) (rest : List (Option Tree)) :
    partPass target (some (.node n (.block (some (forward target d typeClause) :: rest)))) .initial =
      Pass.all (rest.map (partPass target)) FlowState.initial.passed := by
  rw [pass_plain rfl]
  show Pass.andThen (partPass target (some (forward target d typeClause))) _ _ = _
  rw [Pass.andThen, pass_forward htype]
  rfl

theorem runs_scope (htype : IsTypeClause typeClause) (rest : List (Option Tree)) :
    runs target (.node n (.block (some (forward target d typeClause) :: rest))) =
      Seq (event (.declare false)) (all (rest.map (within (runs target)))) := by
  rw [runs_plain rfl]
  show Seq (runs target (forward target d typeClause)) _ = _
  rw [runs_forward htype]
  rfl

theorem open_passed : FlowState.initial.passed.Open := ⟨⟨nofun, nofun⟩, rfl, rfl⟩

/-- **Definite assignment is exact on branching code**: a read is reported as not definitely assigned exactly if some
execution comes to it having run none but rejected specifiers to their end. -/
theorem checkAssignment_exact (htree : a.IsTreeUnder scope) (hscope : IsForwardScope target (a.tree scope))
    (hvisible : ¬ InRejected (Reported a m target scope) target (a.tree scope) n) :
    ReportedFor a m target scope .notDefinitelyAssigned n ↔
      ∃ before, Comes (runs target (a.tree scope)) n before ∧ Bare (Reported a m target scope) before := by
  have hreported (k : NodeId) : Reported a m target scope k ↔
      ∃ f ∈ (partPass target (some (a.tree scope)) .initial).2, f.node = k := reported_iff
  rw [reportedFor_iff]
  rw [Arena.IsTreeUnder, Arena.postOrder_eq] at htree
  generalize Reported a m target scope = rejected at hvisible hreported ⊢
  generalize a.tree scope = t at htree hscope hvisible hreported ⊢
  obtain ⟨k, d, typeClause, rest, rfl, htype, hrest⟩ := hscope
  have hnodup : (nodesIn (some (.node k (.block (some (forward target d typeClause) :: rest))))).Nodup := htree
  rw [nodesIn_node] at hnodup
  obtain ⟨-, hnodup, -⟩ := List.nodup_append'.1 (List.nodup_append'.1 hnodup).1
  have hpart (o : Option Tree) (ho : o ∈ rest) : ExactPart rejected n target o := by
    cases o with
    | none => exact .skip
    | some u =>
      have hu : u ∈ (NodeKind.block (some (forward target d typeClause) :: rest)).children :=
        NodeKind.mem_children_iff.2 (List.mem_cons_of_mem _ ho)
      refine exact_tree ⟨hrest (some u) ho, (List.nodup_flatMap.1 hnodup).1 _ ho, ?_⟩
      rintro ⟨v, hv, hrejected, hn⟩
      exact hvisible ⟨v, Tree.mem_subtrees_of_mem_children hu hv, hrejected, hn⟩
  have hall := Exact.all hpart hnodup
  rw [pass_scope htype] at hreported ⊢
  rw [runs_scope htype, hall.reads _ open_passed fun j _ => hreported j]
  simp only [comes_seq hall.runs, comes_event, reduceCtorEq, false_and, false_or]
  constructor
  · rintro ⟨-, before, hcomes, hbare⟩
    exact ⟨.declare false :: before, ⟨[.declare false], before, rfl, ⟨rfl, rfl⟩, hcomes⟩, hbare⟩
  · rintro ⟨-, ⟨-, before, rfl, ⟨rfl, -⟩, hcomes⟩, hbare⟩
    exact ⟨rfl, before, hcomes, hbare⟩

/-- `value x; if (1) { x = 1; } x`. -/
def onlyThen : Arena := arenaOf [.valueDecl ⟨2⟩ none none, .literal, .reference ⟨2⟩ .unqualified, .literal,
  .specifier (some ⟨2⟩) (some ⟨3⟩), .ifElse (some ⟨1⟩) (some ⟨4⟩) none, .reference ⟨2⟩ .unqualified,
  .block [some ⟨0⟩, some ⟨5⟩, some ⟨6⟩]]

/-- The last read is reported, and so there is an execution that comes to it past the `if`. -/
theorem checkAssignment_exact_onlyThen :
    ReportedFor onlyThen oneLocal ⟨2⟩ ⟨7⟩ .notDefinitelyAssigned ⟨6⟩ ∧
      ∃ before, Comes (runs ⟨2⟩ (onlyThen.tree ⟨7⟩)) ⟨6⟩ before ∧
        Bare (Reported onlyThen oneLocal ⟨2⟩ ⟨7⟩) before := by
  have htree : onlyThen.IsTreeUnder ⟨7⟩ := by
    unfold Arena.IsTreeUnder
    decide
  have hscope : IsForwardScope ⟨2⟩ (onlyThen.tree ⟨7⟩) := by
    refine ⟨⟨7⟩, ⟨0⟩, none, _, rfl, nofun, ?_⟩
    decide
  have hvisible : ¬ InRejected (Reported onlyThen oneLocal ⟨2⟩ ⟨7⟩) ⟨2⟩ (onlyThen.tree ⟨7⟩) ⟨6⟩ := by
    have hnone : ∀ u ∈ (onlyThen.tree ⟨7⟩).subtrees, ⟨6⟩ ∉ specifiedBy ⟨2⟩ u := by decide
    rintro ⟨u, hu, -, hn⟩
    exact hnone u hu hn
  have hreported : ReportedFor onlyThen oneLocal ⟨2⟩ ⟨7⟩ .notDefinitelyAssigned ⟨6⟩ :=
    ⟨_, List.mem_singleton_self _, rfl⟩
  exact ⟨hreported, (checkAssignment_exact htree hscope hvisible).1 hreported⟩

end

end Execution

end SemCheck
