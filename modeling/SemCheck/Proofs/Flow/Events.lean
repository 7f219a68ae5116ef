import SemCheck.Proofs.Flow.Execution

/-!
# The events of an execution

Which events an execution can have is read off the tree: only a declaring node of the target declares it, and only a
specifier of the target assigns it (`only_runsThrowing`). `Runs.Only P` says that all events satisfy `P`; every way of
putting executions together keeps it.

The second part says what events do to a store: nothing undeclares the target, without a declaration nothing takes its
value or the entering of a catch clause back, and without a declaration or an assignment its value stays what it is.
-/

namespace SemCheck.Execution

namespace Runs

/-- Every event of every execution satisfies `P`. -/
def Only (P : Event → Prop) (r : Runs) : Prop := ∀ es e, r es e → ∀ ev ∈ es, P ev

variable {P : Event → Prop} {r r' : Runs} {rs : List Runs}

theorem only_skip : Only P skip := by
  rintro es e ⟨rfl, -⟩ ev hev
  exact absurd hev List.not_mem_nil

theorem only_jump (ending : Ending) : Only P (jump ending) := by
  rintro es e ⟨rfl, -⟩ ev hev
  exact absurd hev List.not_mem_nil

theorem only_event {ev : Event} (h : P ev) : Only P (event ev) := by
  rintro es e ⟨rfl, -⟩ ev' hev
  exact List.mem_singleton.1 hev ▸ h

theorem only_seq (h : Only P r) (h' : Only P r') : Only P (Seq r r') := by
  rintro es e (⟨hr, -⟩ | ⟨hr, hr'⟩) ev hev
  · exact h _ _ hr ev hev
  · rcases List.mem_append.1 hev with hev | hev
    · exact h _ _ hr ev hev
    · exact h' _ _ hr' ev hev

theorem only_all (h : ∀ r ∈ rs, Only P r) : Only P (all rs) := by
  induction rs with
  | nil => exact only_skip
  | cons r rs ih =>
    obtain ⟨hr, hrs⟩ := List.forall_mem_cons.1 h
    exact only_seq hr (ih hrs)

theorem only_oneOf (h : ∀ r ∈ rs, Only P r) : Only P (oneOf rs) := by
  rintro es e (⟨-, hskip⟩ | ⟨r, hmem, hr⟩)
  · exact only_skip es e hskip
  · exact h r hmem es e hr

theorem only_contained (h : Only P r) : Only P (contained r) := by
  rintro es e ⟨-, e', hr⟩
  exact h es e' hr

theorem only_rounds (h : ∀ r ∈ rs, Only P r) : Only P (Rounds rs) := by
  intro es e hrun
  induction hrun with
  | last i hr => exact only_all (fun r hmem => h r (List.mem_of_mem_take hmem)) _ _ hr
  | again hr _ _ ih =>
    intro ev hev
    rcases List.mem_append.1 hev with hev | hev
    · exact only_all h _ _ hr ev hev
    · exact ih ev hev
  | stop hr _ => exact only_all h _ _ hr

theorem only_loop (h : ∀ r ∈ rs, Only P r) (h' : Only P r') : Only P (Loop rs r') := by
  rintro es e (⟨hr, hr'⟩ | hr | hr) ev hev
  · rcases List.mem_append.1 hev with hev | hev
    · exact only_rounds h _ _ hr ev hev
    · exact h' _ _ hr' ev hev
  · exact only_rounds h _ _ hr ev hev
  · exact only_rounds h _ _ hr ev hev

theorem only_guarded (hcaught : P .caught) (h : Only P r) (h' : ∀ r ∈ rs, Only P r) : Only P (Guarded r rs) := by
  rintro es e (hr | @⟨es, rest, es', e, e', r', hr, hmem, hr'⟩) ev hev
  · exact h _ _ hr ev hev
  · rcases List.mem_append.1 hev with hev | hev
    · exact h _ _ hr ev (List.mem_append_left _ hev)
    · rcases List.mem_cons.1 hev with rfl | hev
      · exact hcaught
      · exact h' r' hmem _ _ hr' ev hev

theorem only_finally (hfinal : P .finalized) (h : Only P r) (h' : Only P r') : Only P (Finally r r') := by
  rintro es e ⟨hr, hr'⟩ ev hev
  rcases List.mem_append.1 hev with hev | hev
  · exact h _ _ hr ev hev
  · rcases List.mem_cons.1 hev with rfl | hev
    · exact hfinal
    · exact h' _ _ hr' ev hev

theorem only_throwing {may : Prop} (h : Only P r) : Only P (throwing may r) := by
  intro es e hrun
  rcases of_throwing hrun with rfl | ⟨e', hr⟩
  · exact List.forall_mem_nil _
  · exact h es e' hr

end Runs

/-! ## The events of a tree -/

section

open Runs

variable {P : Event → Prop} {target : DeclId} {f : Tree → Runs}

theorem only_within {o : Option Tree} (h : ∀ t, o = some t → Only P (f t)) : Only P (within f o) := by
  cases o with
  | none => exact only_skip
  | some t => exact h t rfl

section

variable {id : NodeId} {k : NodeKind Tree}

/-- The events of a declaring node, whose parts are a body of their own. -/
theorem only_declaring {d : DeclId} (hk : k.declared? = some d)
    (hdeclare : (Tree.node id k).declares target → ∀ valued, P (.declare valued))
    (hall : Only P (all (k.slots.map (within f)))) : Only P (step target id (k.map fun t => (t, f t))) := by
  rw [step_declaring hk]
  by_cases hd : d = target
  · have hdeclares : (Tree.node id k).declares target := by simp [Tree.declares, Tree.kind?, hk, hd]
    have hevent (valued : Bool) := only_event (hdeclare hdeclares valued)
    rw [if_pos hd]
    split
    · exact only_seq (hevent _) (only_contained hall)
    · exact only_seq (only_contained hall) (hevent _)
  · rw [if_neg hd]
    exact only_contained hall

/-- The events of a node are those of its parts and its own. -/
theorem only_node (hread : ∀ n, P (.read n)) (hspecify : ∀ n, P (.specify n)) (hcaught : P .caught)
    (hfinal : P .finalized) (hdeclare : (Tree.node id k).declares target → ∀ valued, P (.declare valued))
    (hassign : IsSpecifier target (.node id k) → P .assign) (hpart : ∀ o ∈ k.slots, Only P (within f o)) :
    Only P (step target id (k.map fun t => (t, f t))) := by
  have hparts (os : List (Option Tree)) (hos : ∀ o ∈ os, o ∈ k.slots) : ∀ r ∈ os.map (within f), Only P r :=
    List.forall_mem_map.2 fun o ho => hpart o (hos o ho)
  have hall := only_all (hparts k.slots fun o ho => ho)
  cases k with
  | reference d qualifier =>
    cases qualifier with
    | expr primary => exact hpart primary (by simp [NodeKind.slots, Qualifier.slots])
    | unqualified | self =>
      show Only P (if d = target then event (.read id) else skip)
      split
      · exact only_event (hread id)
      · exact only_skip
  | specifier left value =>
    rw [step_specifier]
    split
    · next hleft =>
      have hvalue := hpart value (by simp [NodeKind.slots])
      exact only_seq (only_event (hspecify id))
        (only_seq hvalue (only_seq (only_event (hassign hleft)) only_skip))
    · exact hall
  | returnStmt value | throwStmt value =>
    exact only_seq (hpart value (by simp [NodeKind.slots])) (only_jump _)
  | breakStmt | continueStmt =>
    exact only_jump _
  | ifElse condition thenBranch elseBranch =>
    exact only_seq (hpart condition (by simp [NodeKind.slots]))
      (only_oneOf (hparts [thenBranch, elseBranch] (by simp [NodeKind.slots])))
  | switch subject arms default exhaustive =>
    rw [step_switch]
    refine only_seq (hpart subject (by simp [NodeKind.slots])) (only_oneOf (hparts _ ?_))
    intro o ho
    simp only [NodeKind.slots]
    grind
  | whileLoop condition body =>
    exact only_loop (hparts [condition, body] (by simp [NodeKind.slots])) only_skip
  | doWhile body condition =>
    exact only_loop (hparts [body, condition] (by simp [NodeKind.slots])) only_skip
  | forLoop iterator iterable body fail =>
    exact only_loop (hparts [iterator, iterable, body] (by simp [NodeKind.slots]))
      (hpart fail (by simp [NodeKind.slots]))
  | tryCatch body catches finalizer =>
    have hguarded := only_guarded hcaught (hpart body (by simp [NodeKind.slots]))
      (hparts catches fun o ho => by simp [NodeKind.slots, ho])
    cases finalizer with
    | none =>
      rw [step_tryCatch]
      exact hguarded
    | some final =>
      rw [step_tryFinally]
      exact only_finally hfinal hguarded (hpart (some final) (by simp [NodeKind.slots]))
  | lambda parameters body =>
    rw [step_lambda]
    exact only_contained hall
  | valueDecl | functionDecl | getterDecl | classDecl | interfaceDecl | aliasDecl | typeConstraint | parameter
  | variableDecl => exact only_declaring rfl hdeclare hall
  | block | exprStmt | caseArm | catchClause | literal | call | binary | extendedType | satisfiedTypes
  | staticType =>
    rw [step_plain rfl]
    exact hall

end

/-- **The events of a tree**: only declaring nodes of the target declare it, and only its specifiers assign it. -/
theorem only_runsThrowing {throws : NodeId → Prop} (hread : ∀ n, P (.read n)) (hspecify : ∀ n, P (.specify n))
    (hcaught : P .caught) (hfinal : P .finalized) (t : Tree)
    (hdeclare : ∀ u ∈ t.subtrees, u.declares target → ∀ valued, P (.declare valued))
    (hassign : ∀ u ∈ t.subtrees, IsSpecifier target u → P .assign) : Only P (runsThrowing target throws t) := by
  induction t with
  | missing id =>
    rw [runsThrowing_missing]
    exact only_skip
  | node id k ih =>
    have hself : Tree.node id k ∈ (Tree.node id k).subtrees := Tree.mem_subtrees_self _
    rw [runsThrowing_node]
    apply only_throwing
    apply only_node hread hspecify hcaught hfinal (hdeclare _ hself) (hassign _ hself)
    intro o ho
    apply only_within
    intro t ht
    have hchild : t ∈ k.children := NodeKind.mem_children_iff.2 (ht ▸ ho)
    apply ih t hchild
    · intro u hu
      exact hdeclare u (Tree.mem_subtrees_of_mem_children hchild hu)
    · intro u hu
      exact hassign u (Tree.mem_subtrees_of_mem_children hchild hu)

/-- Without a specifier of the target nothing is assigned. -/
theorem only_ne_assign {throws : NodeId → Prop} {t : Tree} (h : ¬ Assigns target t) :
    Only (· ≠ .assign) (runsThrowing target throws t) :=
  only_runsThrowing (fun _ => nofun) (fun _ => nofun) nofun nofun t (fun _ _ _ => nofun)
    fun u hu hspec => absurd ⟨u, hu, hspec⟩ h

/-- Executions that assign the target need a specifier of it. -/
theorem exists_specifier {throws : NodeId → Prop} {o : Option Tree}
    (h : ¬ Only (· ≠ .assign) (within (runsThrowing target throws) o)) : ∃ t, o = some t ∧ Assigns target t := by
  cases o with
  | none => exact absurd only_skip h
  | some t => exact ⟨t, rfl, Classical.byContradiction fun hno => h (only_ne_assign hno)⟩

theorem exists_specifier_of_runs {o : Option Tree} (h : ¬ Only (· ≠ .assign) (within (runs target) o)) :
    ∃ t, o = some t ∧ Assigns target t := by
  rw [← runsThrowing_never] at h
  exact exists_specifier h

end

/-! ## Events and the store -/

namespace Store

theorem declared_afterAll {c : Store} (es : List Event) (h : c.declared = true) : (c.afterAll es).declared = true := by
  induction es generalizing c with
  | nil => exact h
  | cons ev es ih =>
    refine ih ?_
    cases ev <;> first | exact h | rfl

theorem valued_afterAll {c : Store} {es : List Event} (hes : ∀ ev ∈ es, ∀ valued, ev ≠ .declare valued)
    (h : c.valued = true) : (c.afterAll es).valued = true := by
  induction es generalizing c with
  | nil => exact h
  | cons ev es ih =>
    obtain ⟨hev, hes⟩ := List.forall_mem_cons.1 hes
    refine ih hes ?_
    cases ev with
    | declare valued => exact absurd rfl (hev valued)
    | assign => rfl
    | _ => exact h

theorem caught_afterAll {c : Store} {es : List Event} (hes : ∀ ev ∈ es, ∀ valued, ev ≠ .declare valued)
    (h : c.caught = true) : (c.afterAll es).caught = true := by
  induction es generalizing c with
  | nil => exact h
  | cons ev es ih =>
    obtain ⟨hev, hes⟩ := List.forall_mem_cons.1 hes
    refine ih hes ?_
    cases ev with
    | declare valued => exact absurd rfl (hev valued)
    | caught => rfl
    | _ => exact h

/-- Without a declaration and an assignment the value stays what it is. -/
theorem valued_of_afterAll {c : Store} {es : List Event} (hes : ∀ ev ∈ es, ∀ valued, ev ≠ .declare valued)
    (hassign : ∀ ev ∈ es, ev ≠ .assign) (h : (c.afterAll es).valued = true) : c.valued = true := by
  induction es generalizing c with
  | nil => exact h
  | cons ev es ih =>
    obtain ⟨hev, hes⟩ := List.forall_mem_cons.1 hes
    obtain ⟨hne, hassign⟩ := List.forall_mem_cons.1 hassign
    have := ih hes hassign h
    cases ev with
    | declare valued => exact absurd rfl (hev valued)
    | assign => exact absurd rfl hne
    | _ => exact this

end Store

end SemCheck.Execution
