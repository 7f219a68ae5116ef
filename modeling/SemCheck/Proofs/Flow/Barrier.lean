import SemCheck.Proofs.Flow.Construct
import SemCheck.Proofs.Flow.SourceOrder

/-!
# Nodes behind a barrier

Where assigning is not allowed, a walk that does not come to the declaration of the target finds out nothing about it:
whether it is declared and whether it is possibly assigned stay as they were (`Pass.Inert`). Every way of putting passes
together keeps this, the jumps and the states taken back in part included, so that a tree without a declaring node of
the target is inert (`Execution.inert_partPass`) and all that is visited in it is visited behind the barrier
(`Execution.barred_visits`).

Main statement: a loop without a clause after it, a lambda and the declaration of something else leave the flow state as
it is, and a specifier in one of them is an error that is found once (`Execution.closed_inert`).
-/

namespace SemCheck

/-- Whether all parts of a node are behind a barrier: a body of its own, or a loop with no clause after it. -/
def NodeKind.isClosed {γ : Type} : NodeKind γ → Bool
  | lambda .. | whileLoop .. | doWhile .. => true
  | forLoop _ _ _ fail => fail.isNone
  | k => k.declared?.isSome

theorem NodeKind.isClosed_map {γ δ : Type} (f : γ → δ) (k : NodeKind γ) : (k.map f).isClosed = k.isClosed := by
  cases k with
  | forLoop iterator iterable body fail => cases fail <;> rfl
  | _ => rfl

/-! ## States behind a barrier -/

/-- `t` is behind a barrier, and knows of a declaration and of assignments to it what `s` does. -/
structure FlowState.Barred (s t : FlowState) : Prop where
  barrier : t.barrier = true
  declared : t.declared = s.declared
  possible : t.possible = s.possible

namespace FlowState

variable {s t u : FlowState}

theorem Barred.refl (hs : s.barrier = true) : s.Barred s := ⟨hs, rfl, rfl⟩

theorem Barred.trans (h : s.Barred t) (h' : t.Barred u) : s.Barred u :=
  ⟨h'.barrier, h'.declared.trans h.declared, h'.possible.trans h.possible⟩

theorem barred_withBarrier (s : FlowState) : s.Barred s.withBarrier := ⟨rfl, rfl, rfl⟩

theorem barred_join {arms : List FlowState} (hs : s.barrier = true) (h : ∀ arm ∈ arms, s.Barred arm) :
    s.Barred (s.join arms) where
  barrier := (s.barrier_join).trans hs
  declared := s.declared_join
  possible := by
    rcases s.join_cases arms with heq | heq | ⟨arm, harm, hlive⟩
    · rw [heq]
    · rw [heq]
      rfl
    · have hany : arms.any possible = true → s.possible = true := by
        intro hany
        obtain ⟨arm, harm, hpossible⟩ := List.any_eq_true.1 hany
        exact (h arm harm).possible.symm.trans hpossible
      rw [s.join_of_live harm hlive]
      show (s.possible || arms.any possible) = s.possible
      cases hs : s.possible with
      | true => rfl
      | false => exact Bool.eq_false_iff.2 fun htrue => Bool.false_ne_true (hs.symm.trans (hany htrue))

end FlowState

/-! ## Passes behind a barrier -/

/-- From behind a barrier, the pass neither assigns nor declares. -/
def Pass.Inert (p : Pass) : Prop := ∀ s : FlowState, s.barrier = true → s.Barred (p s).1

namespace Pass

variable {p q : Pass}

theorem inert_skip : skip.Inert := fun _ => .refl

theorem inert_exit : (change .exit).Inert := fun _ hs => ⟨hs, rfl, rfl⟩

theorem Inert.andThen (hp : p.Inert) (hq : q.Inert) : (p.andThen q).Inert := by
  intro s hs
  have hmiddle := hp s hs
  exact hmiddle.trans (hq (p s).1 hmiddle.barrier)

theorem inert_all {ps : List Pass} (h : ∀ p ∈ ps, p.Inert) : (all ps).Inert := by
  induction ps with
  | nil => exact inert_skip
  | cons p ps ih =>
    obtain ⟨hp, hps⟩ := List.forall_mem_cons.1 h
    exact hp.andThen (ih hps)

theorem inert_fork {arms : List Pass} (h : ∀ p ∈ arms, p.Inert) : (fork arms).Inert := by
  intro s hs
  refine FlowState.barred_join hs fun t ht => ?_
  obtain ⟨_, hx, rfl⟩ := List.mem_map.1 ht
  obtain ⟨p, hp, rfl⟩ := List.mem_map.1 hx
  exact h p hp s hs

/-- A loop over what is inert changes nothing, wherever it stands. -/
theorem Inert.loop_eq (hp : p.Inert) (s : FlowState) : (p.loop s).1 = s := by
  have hpossible : (p s.withBarrier).1.possible = s.possible := (hp s.withBarrier rfl).possible
  show s.afterLoop (p s.withBarrier).1 = s
  rw [FlowState.afterLoop, hpossible, Bool.or_self]

theorem Inert.loop (hp : p.Inert) : p.loop.Inert := by
  intro s hs
  rw [hp.loop_eq s]
  exact .refl hs

theorem Inert.interruptible (hp : p.Inert) : p.interruptible.Inert := by
  intro s hs
  have hbarred := hp s hs
  exact ⟨hbarred.barrier, rfl, hbarred.possible⟩

theorem Inert.keepDeclared (hp : p.Inert) : p.keepDeclared.Inert := by
  intro s hs
  have hbarred := hp s hs
  exact ⟨hbarred.barrier, rfl, hbarred.possible⟩

theorem inert_nested (p : Pass) : p.nested.Inert := fun _ => .refl

end Pass

namespace Assignment

variable {target : DeclId} {s : FlowState}

theorem inert_read (n : NodeId) : (read n).Inert := by
  intro s hs
  rw [fst_read]
  exact .refl hs

/-- Behind a barrier no specifier is allowed. -/
theorem specifierFault?_of_barrier (hs : s.barrier = true) :
    specifierFault? s = some (if s.declared then .cannotSpecifyFromHere else .notYetDeclared) := by
  cases hd : s.declared <;> simp [specifierFault?, hd, hs]

theorem inert_specify (n : NodeId) {left : Option Subnode} (hleft : specifies target left = true)
    (value : Option Subnode) : (specify target n left value).Inert := by
  intro s hs
  rw [Execution.specify_rejected hleft (specifierFault?_of_barrier hs)]
  exact .refl hs

end Assignment

namespace Execution

open Pass

variable {target : DeclId} {n : NodeId} {k : NodeKind Tree} {s t : FlowState}

/-! ## Trees behind a barrier -/

theorem inert_guarded {body : Option Tree} {catches : List (Option Tree)}
    (h : ∀ o ∈ body :: catches, (partPass target o).Inert) :
    ((partPass target body).interruptible.andThen
      (.all (catches.map fun o => (partPass target o).interruptible))).Inert := by
  obtain ⟨hbody, hcatches⟩ := List.forall_mem_cons.1 h
  exact hbody.interruptible.andThen (inert_all (List.forall_mem_map.2 fun o ho => (hcatches o ho).interruptible))

theorem inert_tried {body : Option Tree} {catches : List (Option Tree)}
    (h : ∀ o ∈ body :: catches, (partPass target o).Inert) : (tried target body catches).Inert := by
  unfold tried
  split
  · exact h body List.mem_cons_self
  · exact inert_guarded h

/-- A node is inert if its parts are and it does not declare the target. -/
theorem inert_node (hcount : count target (some (.node n k)) = 0)
    (hparts : ∀ o ∈ k.slots, (partPass target o).Inert) : (partPass target (some (.node n k))).Inert := by
  have hpart (o : Option Tree) (ho : IsPart k o) : (partPass target o).Inert := by
    rcases ho with rfl | ho
    · exact inert_skip
    · exact hparts o ho
  have hslot {o : Option Tree} (ho : o ∈ k.slots) := hpart o (Or.inr ho)
  have hall {os : List (Option Tree)} (hos : ∀ o ∈ os, IsPart k o) (p : Pass) (hp : p ∈ os.map (partPass target)) :
      p.Inert := by
    obtain ⟨o, ho, rfl⟩ := List.mem_map.1 hp
    exact hpart o (hos o ho)
  -- The executions of the parts make no difference to the pass.
  obtain ⟨m, hm, hconstruct⟩ := construct target (fun _ => Runs.skip) n k
  rw [hcount] at hm
  generalize partPass target (some (.node n k)) = p at hconstruct ⊢
  generalize step target n (k.map fun t => (t, Runs.skip)) = r at hconstruct
  cases hconstruct with
  | part h => exact hpart _ h
  | sequence h => exact inert_all (hall h)
  | nested => exact inert_nested _
  | declare => exact absurd hm (Nat.not_succ_le_zero _)
  | read => exact Assignment.inert_read n
  | @specify left value hk hleft => exact Assignment.inert_specify n ((specifies_eq left).trans hleft) _
  | stop => exact inert_exit
  | jump h => exact (hpart _ h).andThen inert_exit
  | fork hk h =>
    obtain ⟨hfirst, hos⟩ := List.forall_mem_cons.1 h
    exact (hpart _ hfirst).andThen (inert_fork (hall hos))
  | loop hk h =>
    obtain ⟨hfail, hos⟩ := List.forall_mem_cons.1 h
    exact (inert_all (hall hos)).loop.andThen (hpart _ hfail).interruptible
  | guarded hk hne =>
    subst hk
    exact inert_guarded fun o ho => hslot (List.mem_append_left _ ho)
  | attempt hk =>
    subst hk
    exact (hslot List.mem_cons_self).andThen (hslot (by simp [NodeKind.slots])).keepDeclared
  | guardedAttempt hk hne =>
    subst hk
    exact (inert_guarded fun o ho => hslot (List.mem_append_left _ ho)).andThen
      (hslot (by simp [NodeKind.slots])).keepDeclared

theorem count_of_mem_slots {o : Option Tree} (hcount : count target (some (.node n k)) = 0) (ho : o ∈ k.slots) :
    count target o = 0 :=
  eq_zero_of_sum (Nat.le_zero.1 (hcount ▸ sum_le_count target n k)) ho

theorem declared_ne_of_count (hcount : count target (some (.node n k)) = 0) {d : DeclId} (hk : k.declared? = some d) :
    d ≠ target := by
  rintro rfl
  rw [count_node, if_pos hk] at hcount
  exact Nat.succ_ne_zero _ hcount

/-- **Trees without a declaring node of the target are inert**. -/
theorem inert_partPass {o : Option Tree} (hcount : count target o = 0) : (partPass target o).Inert := by
  cases o with
  | none => exact inert_skip
  | some t =>
    induction t with
    | missing m =>
      rw [partPass, Option.map_some, Assignment.subnode, Tree.fold_missing]
      exact inert_skip
    | node n k ih =>
      refine inert_node hcount fun o ho => ?_
      cases o with
      | none => exact inert_skip
      | some t => exact ih t (NodeKind.mem_children_iff.2 ho) (count_of_mem_slots hcount ho)

theorem inert_slots (hcount : count target (some (.node n k)) = 0) : ∀ o ∈ k.slots, (partPass target o).Inert :=
  fun _ ho => inert_partPass (count_of_mem_slots hcount ho)

/-! ## Where the parts of an inert node are entered -/

theorem barred_inTurn {pass : Option Tree → Pass} {os : List (Option Tree)} (hpass : ∀ o ∈ os, (pass o).Inert)
    (ht : s.Barred t) : ∀ x ∈ inTurn pass os t, s.Barred x.2 := by
  induction os generalizing t with
  | nil => exact List.forall_mem_nil _
  | cons o os ih =>
    obtain ⟨ho, hos⟩ := List.forall_mem_cons.1 hpass
    exact List.forall_mem_cons.2 ⟨ht, ih hos (ht.trans (ho t ht.barrier))⟩

theorem barred_branches {os : List (Option Tree)} (ht : s.Barred t) : ∀ x ∈ os.map (·, t), s.Barred x.2 :=
  List.forall_mem_map.2 fun _ _ => ht

/-- Behind a barrier every part is entered behind it. -/
theorem barred_entered (hcount : count target (some (.node n k)) = 0) (hs : s.barrier = true) :
    ∀ x ∈ entered target k s, s.Barred x.2 := by
  have hparts := inert_slots hcount
  have hself : s.Barred s := .refl hs
  cases k with
  | reference d qualifier =>
    cases qualifier with
    | expr primary => exact barred_inTurn hparts hself
    | unqualified | self => exact List.forall_mem_nil _
  | specifier left value =>
    by_cases hleft : specifies target left = true
    · have hfault := Assignment.specifierFault?_of_barrier hs
      rw [entered_rejected hleft (hfault ▸ Option.some_ne_none _)]
      exact List.forall_mem_nil _
    · rw [entered, if_neg hleft]
      exact barred_inTurn hparts hself
  | ifElse condition thenBranch elseBranch =>
    exact List.forall_mem_cons.2 ⟨hself, barred_branches (hparts condition List.mem_cons_self s hs)⟩
  | switch subject arms default exhaustive =>
    exact List.forall_mem_cons.2 ⟨hself, barred_branches (hparts subject List.mem_cons_self s hs)⟩
  | whileLoop | doWhile | lambda =>
    refine barred_inTurn (fun o ho => hparts o ?_) s.barred_withBarrier
    simpa [NodeKind.slots] using ho
  | forLoop iterator iterable body fail =>
    have hheader (o : Option Tree) (ho : o ∈ [iterator, iterable, body]) : (partPass target o).Inert :=
      hparts o (List.mem_append_left [fail] ho)
    refine List.forall_mem_append.2
      ⟨barred_inTurn hheader s.barred_withBarrier, List.forall_mem_singleton.2 ?_⟩
    exact (inert_all (List.forall_mem_map.2 hheader)).loop s hs
  | tryCatch body catches finalizer =>
    have hclauses (o : Option Tree) (ho : o ∈ body :: catches) : (partPass target o).Inert :=
      hparts o (List.mem_append_left [finalizer] ho)
    obtain ⟨hbody, hcatches⟩ := List.forall_mem_cons.1 hclauses
    refine List.forall_mem_cons.2 ⟨hself, List.forall_mem_append.2 ⟨?_, List.forall_mem_singleton.2 ?_⟩⟩
    · exact barred_inTurn (fun o ho => (hcatches o ho).interruptible) (hbody.interruptible s hs)
    · exact inert_tried hclauses s hs
  | valueDecl d | functionDecl d | getterDecl d | classDecl d | interfaceDecl d | aliasDecl d | typeConstraint d
  | parameter d | variableDecl d =>
    rw [entered_declaring rfl (declared_ne_of_count hcount rfl)]
    exact barred_inTurn hparts s.barred_withBarrier
  | returnStmt | throwStmt | breakStmt | continueStmt | block | exprStmt | caseArm | catchClause | literal | call
  | binary | extendedType | satisfiedTypes | staticType => exact barred_inTurn hparts hself

/-- Behind a barrier everything is visited behind it. -/
theorem barred_visits {u : Tree} (hcount : count target (some u) = 0) (hs : s.barrier = true) :
    ∀ v ∈ visits target u s, s.Barred v.2 := by
  induction u generalizing s with
  | missing m =>
    rw [visits_missing]
    exact List.forall_mem_singleton.2 (.refl hs)
  | node n k ih =>
    intro v hv
    rcases mem_visits_node_iff.1 hv with rfl | ⟨u, s', hu, hv⟩
    · exact .refl hs
    · have hentered := barred_entered hcount hs _ hu
      have hslot := mem_slots_of_mem_entered hu
      exact hentered.trans (ih u (NodeKind.mem_children_iff.2 hslot) (count_of_mem_slots hcount hslot)
        hentered.barrier v hv)

/-! ## Closed nodes -/

/-- A closed node leaves the state as it is. -/
theorem fst_closed (hcount : count target (some (.node n k)) = 0) (hclosed : k.isClosed = true) (s : FlowState) :
    (partPass target (some (.node n k)) s).1 = s := by
  have hparts (os : List (Option Tree)) (hos : os ⊆ k.slots) : (Pass.all (os.map (partPass target))).Inert :=
    inert_all (List.forall_mem_map.2 fun o ho => inert_slots hcount o (hos ho))
  cases k with
  | whileLoop first second | doWhile first second =>
    rw [pass_node]
    exact (hparts [_, _] (List.Subset.refl _)).loop_eq s
  | forLoop iterator iterable body fail =>
    obtain rfl : fail = none := Option.isNone_iff_eq_none.1 hclosed
    rw [pass_node]
    exact (hparts [iterator, iterable, body] (List.subset_append_left _ [none])).loop_eq s
  | lambda =>
    rw [pass_lambda]
    rfl
  | valueDecl d | functionDecl d | getterDecl d | classDecl d | interfaceDecl d | aliasDecl d | typeConstraint d
  | parameter d | variableDecl d =>
    rw [pass_declaring rfl, if_neg (declared_ne_of_count hcount rfl)]
    rfl
  | _ => cases hclosed

/-- The parts of a closed node are entered behind a barrier. -/
theorem barred_entered_closed (hcount : count target (some (.node n k)) = 0) (hclosed : k.isClosed = true) {u : Tree}
    (hu : (some u, t) ∈ entered target k s) : s.Barred t := by
  have hparts := inert_slots hcount
  cases k with
  | whileLoop | doWhile | lambda =>
    refine barred_inTurn (fun o ho => hparts o ?_) s.barred_withBarrier _ hu
    simpa [NodeKind.slots] using ho
  | forLoop iterator iterable body fail =>
    obtain rfl : fail = none := Option.isNone_iff_eq_none.1 hclosed
    rcases List.mem_append.1 hu with hu | hu
    · exact barred_inTurn (fun o ho => hparts o (List.mem_append_left [none] ho)) s.barred_withBarrier _ hu
    · exact absurd (Prod.mk.inj (List.mem_singleton.1 hu)).1 (Option.some_ne_none u)
  | valueDecl d | functionDecl d | getterDecl d | classDecl d | interfaceDecl d | aliasDecl d | typeConstraint d
  | parameter d | variableDecl d =>
    rw [entered_declaring rfl (declared_ne_of_count hcount rfl)] at hu
    exact barred_inTurn hparts s.barred_withBarrier _ hu
  | _ => cases hclosed

/-- What is visited in a closed node is visited behind a barrier. -/
theorem barred_visits_closed (hcount : count target (some (.node n k)) = 0) (hclosed : k.isClosed = true)
    {v : Tree × FlowState} (hv : v ∈ visits target (.node n k) s) (hne : v.1 ≠ .node n k) : s.Barred v.2 := by
  rcases mem_visits_node_iff.1 hv with rfl | ⟨u, t, hu, hv⟩
  · exact absurd rfl hne
  · have hentered := barred_entered_closed hcount hclosed hu
    exact hentered.trans (barred_visits (count_of_mem_slots hcount (mem_slots_of_mem_entered hu)) hentered.barrier v hv)

/-! ## Closed nodes of an arena -/

end Execution

namespace Arena

variable {a : Arena} {d : DeclId} {n x y : NodeId}

/-- Whether a node stands in the value of a specifier of `d` under `n`. -/
def InValueUnder (a : Arena) (d : DeclId) (n x : NodeId) : Prop :=
  ∃ y ∈ a.postOrder n, ∃ left value, a.kind? y = some (.specifier (some left) (some value)) ∧ a.RefersAt d left ∧
    x ∈ a.postOrder value

theorem mem_postOrder_self (a : Arena) (n : NodeId) : n ∈ a.postOrder n := by
  rw [postOrder_eq]
  exact List.mem_map.2 ⟨_, Tree.mem_subtrees_self _, id_treeWithin a _ n⟩

theorem children_of_localReference? {γ : Type} {k : NodeKind γ} (hk : k.localReference? = some d) :
    k.children = [] := by
  cases k with
  | reference _ qualifier =>
    cases qualifier with
    | expr primary => cases hk
    | unqualified | self => rfl
  | _ => cases hk

/-- Below a reference by name alone stands nothing. -/
theorem IsTreeUnder.postOrder_of_refersAt (htree : a.IsTreeUnder n) (hx : x ∈ a.postOrder n) (h : a.RefersAt d x) :
    a.postOrder x = [x] := by
  obtain ⟨k, hk, hlocal⟩ := Option.bind_eq_some_iff.1 h
  rw [postOrder_eq, htree.tree_eq_node hx hk, Tree.subtrees_node, NodeKind.children_map,
    children_of_localReference? hlocal]
  rfl

/-- A specifier is not a reference. -/
theorem not_refersAt_of_specifiesAt (h : a.SpecifiesAt d x) : ¬ a.RefersAt d x := by
  obtain ⟨left, value, hk, -⟩ := h
  simp [RefersAt, hk, NodeKind.localReference?]

/-- A specifier below another stands in the value of that. -/
theorem IsTreeUnder.inValueUnder (htree : a.IsTreeUnder n) (hy : y ∈ a.postOrder n) (hspecifies : a.SpecifiesAt d y)
    (hx : a.SpecifiesAt d x) (hbelow : a.tree x ∈ (a.tree y).subtrees) (hne : a.tree y ≠ a.tree x) :
    a.InValueUnder d n x := by
  obtain ⟨left, value, hk, hleft⟩ := hspecifies
  rw [htree.tree_eq_node hy hk] at hbelow hne
  obtain ⟨t, ht, hxt⟩ := Tree.exists_mem_children_of_mem_subtrees hbelow hne
  rw [NodeKind.children_map] at ht
  obtain ⟨c, hc, rfl⟩ := List.mem_map.1 ht
  have hxc : x ∈ a.postOrder c := by
    rw [postOrder_eq]
    exact List.mem_map.2 ⟨_, hxt, id_treeWithin a _ x⟩
  have hside : c = left ∨ value = some c := by
    simpa [NodeKind.mem_children_iff, NodeKind.slots, eq_comm] using hc
  rcases hside with rfl | rfl
  · rw [htree.postOrder_of_refersAt (htree.mem_postOrder_of_child hy hk hc) hleft, List.mem_singleton] at hxc
    exact absurd (hxc ▸ hleft) (not_refersAt_of_specifiesAt hx)
  · exact ⟨y, hy, left, c, hk, hleft, hxc⟩

/-- No declaring node is counted where none stands. -/
theorem count_tree (houtside : ∀ m ∈ a.postOrder n, a.declaredAt? m ≠ some d) :
    Execution.count d (some (a.tree n)) = 0 := by
  refine List.length_eq_zero_iff.2 (List.filter_eq_nil_iff.2 fun u hu hdeclares => ?_)
  refine houtside u.id ?_ (declaredAt?_of_declares hu hdeclares)
  rw [postOrder_eq]
  exact List.mem_map_of_mem hu

/-- The codes of the diagnostics at a node, of findings about a declaration of that name. -/
def codesAt (a : Arena) (name : String) (findings : List Finding) (x : NodeId) : List Nat :=
  ((findings.map (Finding.diagnostic a name)).filter fun d => d.1 = some x).map fun d => d.2.code

theorem codesAt_eq (a : Arena) (name : String) (findings : List Finding) (x : NodeId) :
    a.codesAt name findings x = (findings.filter fun f => f.node = x).map fun f => f.message.code := by
  rw [codesAt, List.filter_map, List.map_map]
  simp [Function.comp_def, Finding.diagnostic, Diagnostic.errorAt, Diagnostic.error]

end Arena

namespace Execution

variable {target : DeclId} {a : Arena} {n x : NodeId} {k : NodeKind NodeId} {s : FlowState}

/-- In a closed node, a specifier that stands in the value of no other is visited behind a barrier. -/
theorem exists_visit_closed (htree : a.IsTreeUnder n) (hk : a.kind? n = some k) (hclosed : k.isClosed = true)
    (houtside : ∀ m ∈ a.postOrder n, a.declaredAt? m ≠ some target) (hx : x ∈ a.postOrder n)
    (hspecifies : a.SpecifiesAt target x) (hvalue : ¬ a.InValueUnder target n x) :
    ∃ t, (a.tree x, t) ∈ visits target (a.tree n) s ∧ s.Barred t := by
  have hcount := Arena.count_tree houtside
  have hspecifier := (htree.isSpecifier_iff hx).2 hspecifies
  obtain ⟨hmem, -⟩ := htree.tree_mem_subtrees hx
  rcases visited_or_below hmem s with ⟨t, hvisit⟩ | ⟨v, hv, hrejects, hbelow, hne⟩
  · have hnode := htree.tree_eq_node (a.mem_postOrder_self n) hk
    rw [hnode] at hvisit hcount
    refine ⟨t, hnode ▸ hvisit, barred_visits_closed hcount (by rwa [NodeKind.isClosed_map]) hvisit ?_⟩
    intro (hself : a.tree x = _)
    rw [hself] at hspecifier
    cases k with
    | specifier => cases hclosed
    | _ => exact hspecifier
  · obtain ⟨heq, hid⟩ := visited_eq_tree htree hv
    have hother := hrejects.1
    rw [heq] at hother hbelow hne
    exact absurd (htree.inValueUnder hid ((htree.isSpecifier_iff hid).1 hother) hspecifies hbelow hne) hvalue

/-- **Closed nodes are inert**: from any state, a walk through a closed node in which the target is not declared ends in
the same state. Every specifier of the target in it, unless it stands in the value of another, has one diagnostic, for
where it stands or for the target not being declared yet. -/
theorem closed_inert (m : Model) (s : FlowState) (htree : a.IsTreeUnder n) (hk : a.kind? n = some k)
    (hclosed : k.isClosed = true) (houtside : ∀ m ∈ a.postOrder n, a.declaredAt? m ≠ some target) :
    ((Assignment.subnodeWithin target a a.nodes.size n).pass s).1 = s ∧
      ∀ x ∈ a.postOrder n, a.SpecifiesAt target x → ¬ a.InValueUnder target n x →
        a.codesAt (m.name target) ((Assignment.subnodeWithin target a a.nodes.size n).pass s).2 x =
          [if s.declared then 3003 else 3001] := by
  have hpass : (Assignment.subnodeWithin target a a.nodes.size n).pass = partPass target (some (a.tree n)) :=
    congrArg Subnode.pass (Assignment.subnodeWithin_eq target a a.nodes.size n)
  rw [hpass]
  constructor
  case left =>
    have hcount := Arena.count_tree houtside
    rw [htree.tree_eq_node (a.mem_postOrder_self n) hk] at hcount ⊢
    exact fst_closed hcount (by rwa [NodeKind.isClosed_map]) s
  case right =>
    intro x hx hspecifies hvalue
    obtain ⟨t, hvisit, hbarred⟩ := exists_visit_closed htree hk hclosed houtside hx hspecifies hvalue
    have hid : (a.tree x).id = x := Arena.id_treeWithin a _ x
    have hfinding : finding? target (a.tree x, t) =
        some ⟨x, if s.declared then .cannotSpecifyFromHere else .notYetDeclared⟩ := by
      rw [finding?, fault?_of_isSpecifier ((htree.isSpecifier_iff hx).2 hspecifies),
        Assignment.specifierFault?_of_barrier hbarred.barrier, hbarred.declared, Option.map_some, hid]
    have hat := findings_at (nodup_nodesIn htree) hvisit
    rw [hfinding, hid] at hat
    rw [Arena.codesAt_eq, hat]
    cases s.declared <;> rfl

/-- `while (1) { try { x = 1; return; } catch { break; } }`. -/
def assignedInLoop : Arena := arenaOf [.literal, .reference ⟨2⟩ .unqualified, .literal,
  .specifier (some ⟨1⟩) (some ⟨2⟩), .returnStmt none, .block [some ⟨3⟩, some ⟨4⟩], .breakStmt,
  .catchClause none (some ⟨6⟩), .tryCatch (some ⟨5⟩) [some ⟨7⟩] none, .whileLoop (some ⟨0⟩) (some ⟨8⟩)]

/-- The specifier is not allowed, though the loop is left after it, and none of the jumps is known of after the loop. -/
theorem closed_inert_assignedInLoop :
    assignedInLoop.IsTreeUnder ⟨9⟩ ∧
      (∀ m ∈ assignedInLoop.postOrder ⟨9⟩, assignedInLoop.declaredAt? m ≠ some ⟨2⟩) ∧
      assignedInLoop.SpecifiesAt ⟨2⟩ ⟨3⟩ ∧ ¬ assignedInLoop.InValueUnder ⟨2⟩ ⟨9⟩ ⟨3⟩ ∧
      ((Assignment.subnodeWithin ⟨2⟩ assignedInLoop assignedInLoop.nodes.size ⟨9⟩).pass FlowState.initial.passed).1 =
        FlowState.initial.passed ∧
      assignedInLoop.codesAt (oneLocal.name ⟨2⟩) ((Assignment.subnodeWithin ⟨2⟩ assignedInLoop
        assignedInLoop.nodes.size ⟨9⟩).pass FlowState.initial.passed).2 ⟨3⟩ = [3003] := by
  have htree : assignedInLoop.IsTreeUnder ⟨9⟩ := by
    unfold Arena.IsTreeUnder
    decide
  have houtside : ∀ m ∈ assignedInLoop.postOrder ⟨9⟩, assignedInLoop.declaredAt? m ≠ some ⟨2⟩ := by decide
  have hspecifies : assignedInLoop.SpecifiesAt ⟨2⟩ ⟨3⟩ := ⟨⟨1⟩, some ⟨2⟩, rfl, rfl⟩
  have hvalue : ¬ assignedInLoop.InValueUnder ⟨2⟩ ⟨9⟩ ⟨3⟩ := by
    rintro ⟨y, hy, left, value, hk, -, hx⟩
    have hy : y ∈ [⟨0⟩, ⟨1⟩, ⟨2⟩, ⟨3⟩, ⟨4⟩, ⟨5⟩, ⟨6⟩, ⟨7⟩, ⟨8⟩, (⟨9⟩ : NodeId)] := hy
    simp only [List.mem_cons, List.not_mem_nil, or_false] at hy
    rcases hy with rfl | rfl | rfl | rfl | rfl | rfl | rfl | rfl | rfl | rfl
    all_goals cases hk
    revert hx
    decide
  obtain ⟨hstate, hcodes⟩ := closed_inert oneLocal FlowState.initial.passed htree rfl rfl houtside
  exact ⟨htree, houtside, hspecifies, hvalue, hstate, hcodes ⟨3⟩ (by decide) hspecifies hvalue⟩

end Execution

end SemCheck
