import SemCheck.Proofs.Flow.Parts

/-!
# The order of flow states

The flags of a flow state are not free. A path that has left counts as definitely assigned, and what is definitely
assigned on a path that has not left is possibly assigned (`FlowState.Coherent`). A walk only adds to what is known: no
flag is taken back, and no barrier is put up (`FlowState.Advances`).

Both hold of every pass that the check is made of (`Pass.Steady`, with one lemma for every way of putting passes
together), and so of the walk through any node. Main statement: a walk from a coherent state ends in a coherent state
that is further on, and from the initial state it meets no other states than coherent ones
(`subnodeWithin_coherent`).
-/

namespace SemCheck

namespace FlowState

/-- What the flags of a state say of one another. -/
structure Coherent (s : FlowState) : Prop where
  definite : s.exited = true → s.definite = true
  possible : s.definite = true → s.exited = false → s.possible = true

/-- What is known in `s` is known in `t`, and `t` is behind no barrier that `s` is not behind. -/
structure Advances (s t : FlowState) : Prop where
  declared : s.declared = true → t.declared = true
  definite : s.definite = true → t.definite = true
  possible : s.possible = true → t.possible = true
  exited : s.exited = true → t.exited = true
  barrier : s.barrier = false → t.barrier = false

variable {s t u : FlowState}

theorem coherent_initial : initial.Coherent := ⟨nofun, nofun⟩

theorem Coherent.withBarrier (h : s.Coherent) : s.withBarrier.Coherent := ⟨h.definite, h.possible⟩

theorem coherent_assigned (s : FlowState) : s.assigned.Coherent := ⟨fun _ => rfl, fun _ _ => rfl⟩

theorem coherent_exit (s : FlowState) : s.exit.Coherent := ⟨fun _ => rfl, nofun⟩

theorem Advances.refl (s : FlowState) : s.Advances s := ⟨id, id, id, id, id⟩

theorem Advances.trans (h : s.Advances t) (h' : t.Advances u) : s.Advances u where
  declared hs := h'.declared (h.declared hs)
  definite hs := h'.definite (h.definite hs)
  possible hs := h'.possible (h.possible hs)
  exited hs := h'.exited (h.exited hs)
  barrier hs := h'.barrier (h.barrier hs)

/-- What is live after a walk was live before. -/
theorem Advances.live (h : s.Advances t) (ht : t.exited = false) : s.exited = false := by
  cases hs : s.exited with
  | false => rfl
  | true => exact absurd (ht.symm.trans (h.exited hs)) nofun

/-! ### The state where branches meet -/

section

variable (s : FlowState) {arms : List FlowState} {arm : FlowState}

theorem declared_join : (s.join arms).declared = s.declared := by
  unfold FlowState.join
  split
  · rfl
  · split <;> rfl

theorem barrier_join : (s.join arms).barrier = s.barrier := by
  unfold FlowState.join
  split
  · rfl
  · split <;> rfl

theorem possible_join (h : s.possible = true) : (s.join arms).possible = true := by
  unfold FlowState.join
  split
  · exact h
  · split
    · exact h
    · simp [h]

theorem definite_join (h : s.definite = true) : (s.join arms).definite = true := by
  unfold FlowState.join
  split
  · exact h
  · split
    · rfl
    · simp [h]

/-- Where a live branch is among those that meet, every branch counts. -/
theorem join_of_live (harm : arm ∈ arms) (hlive : arm.exited = false) :
    s.join arms = { s with
      definite := s.definite || arms.all FlowState.definite
      possible := s.possible || arms.any FlowState.possible
      exited := false } := by
  have hne : arms.isEmpty = false := by
    cases arms with
    | nil => exact absurd harm List.not_mem_nil
    | cons => rfl
  have hall : arms.all FlowState.exited = false :=
    List.all_eq_false.2 ⟨arm, harm, by simp [hlive]⟩
  simp [FlowState.join, hne, hall]

/-- Branches of which none is live count for nothing. -/
theorem join_cases (arms : List FlowState) :
    s.join arms = s ∨ s.join arms = s.exit ∨ ∃ arm ∈ arms, arm.exited = false := by
  unfold FlowState.join
  split
  · exact Or.inl rfl
  · split
    · exact Or.inr (Or.inl rfl)
    · next hall =>
      obtain ⟨arm, harm, hlive⟩ := List.all_eq_false.1 (Bool.eq_false_iff.2 hall)
      exact Or.inr (Or.inr ⟨arm, harm, Bool.eq_false_iff.2 hlive⟩)

variable {s}

/-- Where branches meet, a way leads on exactly if one leads through a branch, or there is none. -/
theorem exited_join_eq_false_iff (hs : s.exited = false) :
    (s.join arms).exited = false ↔ arms = [] ∨ ∃ arm ∈ arms, arm.exited = false := by
  cases arms with
  | nil => simpa [FlowState.join] using hs
  | cons arm arms =>
    simp only [FlowState.join, List.isEmpty_cons, reduceCtorEq, false_or, if_false, Bool.false_eq_true]
    split
    · next hall => simpa [exit] using List.all_eq_true.1 hall
    · next hall => simpa using List.all_eq_false.1 (Bool.eq_false_iff.2 hall)

/-- Something is not definitely assigned where branches meet exactly if it is not so after one of them, or there is
none. -/
theorem definite_join_eq_false_iff (h : ∀ arm ∈ arms, arm.Coherent) :
    (s.join arms).definite = false ↔ s.definite = false ∧ (arms = [] ∨ ∃ arm ∈ arms, arm.definite = false) := by
  cases arms with
  | nil => simp [FlowState.join]
  | cons arm arms =>
    simp only [FlowState.join, List.isEmpty_cons, reduceCtorEq, false_or, if_false, Bool.false_eq_true]
    split
    · next hall =>
      have hdefinite : ∀ u ∈ arm :: arms, u.definite = true := fun u hu =>
        (h u hu).definite (List.all_eq_true.1 hall u hu)
      constructor
      · exact fun hfalse => absurd hfalse (by simp [exit])
      · rintro ⟨-, u, hu, hfalse⟩
        exact absurd (hdefinite u hu) (by simp [hfalse])
    · rw [Bool.or_eq_false_iff, List.all_eq_false]
      simp

theorem advances_join (h : ∀ arm ∈ arms, s.Advances arm) : s.Advances (s.join arms) where
  declared hs := s.declared_join.trans hs
  definite := s.definite_join
  possible := s.possible_join
  exited hs := by
    rcases s.join_cases arms with heq | heq | ⟨arm, harm, hlive⟩
    · rw [heq, hs]
    · rw [heq]
      rfl
    · exact absurd (hlive.symm.trans ((h arm harm).exited hs)) nofun
  barrier hs := s.barrier_join.trans hs

theorem Coherent.join (hs : s.Coherent) (h : ∀ arm ∈ arms, s.Advances arm) (h' : ∀ arm ∈ arms, arm.Coherent) :
    (s.join arms).Coherent := by
  rcases s.join_cases arms with heq | heq | ⟨arm, harm, hlive⟩
  · rwa [heq]
  · rw [heq]
    exact coherent_exit s
  · rw [s.join_of_live harm hlive]
    refine ⟨nofun, fun hdefinite _ => ?_⟩
    rcases Bool.or_eq_true_iff.1 hdefinite with hdefinite | hall
    · exact Bool.or_eq_true_iff.2 (Or.inl (hs.possible hdefinite ((h arm harm).live hlive)))
    · have hpossible := (h' arm harm).possible (List.all_eq_true.1 hall arm harm) hlive
      exact Bool.or_eq_true_iff.2 (Or.inr (List.any_eq_true.2 ⟨arm, harm, hpossible⟩))

end

end FlowState

/-! ## Passes -/

namespace Pass

/-- A pass that takes nothing back and keeps coherent states coherent. -/
structure Steady (p : Pass) : Prop where
  advances : ∀ s : FlowState, s.Advances (p s).1
  coherent : ∀ s : FlowState, s.Coherent → (p s).1.Coherent

variable {p q : Pass}

theorem steady_skip : skip.Steady := ⟨.refl, fun _ => id⟩

theorem steady_exit : (change .exit).Steady :=
  ⟨fun _ => ⟨id, fun _ => rfl, id, fun _ => rfl, id⟩, fun s _ => s.coherent_exit⟩

theorem steady_assigned : (change .assigned).Steady :=
  ⟨fun _ => ⟨id, fun _ => rfl, fun _ => rfl, id, id⟩, fun s _ => s.coherent_assigned⟩

theorem Steady.andThen (hp : p.Steady) (hq : q.Steady) : (p.andThen q).Steady where
  advances s := (hp.advances s).trans (hq.advances _)
  coherent s hs := hq.coherent _ (hp.coherent s hs)

theorem steady_all {ps : List Pass} (h : ∀ p ∈ ps, p.Steady) : (all ps).Steady := by
  induction ps with
  | nil => exact steady_skip
  | cons p ps ih =>
    obtain ⟨hp, hps⟩ := List.forall_mem_cons.1 h
    exact hp.andThen (ih hps)

theorem steady_fork {arms : List Pass} (h : ∀ p ∈ arms, p.Steady) : (fork arms).Steady := by
  have harms (s : FlowState) : ∀ arm ∈ (arms.map (· s)).map Prod.fst, s.Advances arm ∧ (s.Coherent → arm.Coherent) := by
    rw [List.map_map]
    exact List.forall_mem_map.2 fun p hp => ⟨(h p hp).advances s, (h p hp).coherent s⟩
  constructor
  case advances => exact fun s => FlowState.advances_join fun arm harm => (harms s arm harm).1
  case coherent =>
    intro s hs
    exact hs.join (fun arm harm => (harms s arm harm).1) fun arm harm => (harms s arm harm).2 hs

theorem steady_loop (p : Pass) : p.loop.Steady := by
  have hpossible (s : FlowState) (h : s.possible = true) : (p.loop s).1.possible = true :=
    Bool.or_eq_true_iff.2 (Or.inl h)
  constructor
  case advances => exact fun s => ⟨id, id, hpossible s, id, id⟩
  case coherent => exact fun s hs => ⟨hs.definite, fun hd he => hpossible s (hs.possible hd he)⟩

theorem Steady.interruptible (hp : p.Steady) : p.interruptible.Steady where
  advances s := ⟨id, id, (hp.advances s).possible, id, (hp.advances s).barrier⟩
  coherent s hs := ⟨hs.definite, fun hd he => (hp.advances s).possible (hs.possible hd he)⟩

theorem Steady.keepDeclared (hp : p.Steady) : p.keepDeclared.Steady where
  advances s :=
    have h := hp.advances s
    ⟨id, h.definite, h.possible, h.exited, h.barrier⟩
  coherent s hs := ⟨(hp.coherent s hs).definite, (hp.coherent s hs).possible⟩

theorem steady_nested (p : Pass) : p.nested.Steady := ⟨.refl, fun _ => id⟩

end Pass

namespace Assignment

open Pass

variable {target : DeclId} {n : NodeId}

/-! ## Nodes -/

theorem fst_read (n : NodeId) (s : FlowState) : (read n s).1 = s := by
  unfold read
  split
  · rfl
  · split <;> rfl

theorem steady_read (n : NodeId) : (read n).Steady := by
  constructor
  case advances =>
    intro s
    rw [fst_read]
    exact .refl s
  case coherent =>
    intro s hs
    rwa [fst_read]

/-- A specifier of the target changes nothing, or is gone through to the assignment. -/
theorem specify_eq (n : NodeId) {left : Option Subnode} (hleft : specifies target left = true) (value : Option Subnode)
    (s : FlowState) :
    (specify target n left value s).1 = s ∨
      specify target n left value s = all [Subnode.slot value, change .assigned, Subnode.slot left] s := by
  rw [specify, if_pos hleft]
  cases specifierFault? s with
  | some message => exact Or.inl rfl
  | none => exact Or.inr rfl

theorem steady_specify {left value : Option Subnode} (hleft : (Subnode.slot left).Steady)
    (hvalue : (Subnode.slot value).Steady) : (specify target n left value).Steady := by
  by_cases hspecifies : specifies target left = true
  · have hall : (all [Subnode.slot value, change .assigned, Subnode.slot left]).Steady :=
      hvalue.andThen (steady_assigned.andThen (hleft.andThen steady_skip))
    constructor
    case advances =>
      intro s
      rcases specify_eq n hspecifies value s with heq | heq
      · rw [heq]
        exact .refl s
      · rw [heq]
        exact hall.advances s
    case coherent =>
      intro s hs
      rcases specify_eq n hspecifies value s with heq | heq
      · rwa [heq]
      · rw [heq]
        exact hall.coherent s hs
  · rw [specify, if_neg hspecifies]
    exact hleft.andThen (hvalue.andThen steady_skip)

theorem coherent_inside {k : NodeKind Subnode} {s : FlowState} (hs : s.Coherent) : (Execution.inside k s).Coherent := by
  unfold Execution.inside
  split
  · exact FlowState.coherent_assigned _
  · exact hs

theorem advances_inside (k : NodeKind Subnode) (s : FlowState) : s.Advances (Execution.inside k s) := by
  unfold Execution.inside
  split
  · exact ⟨fun _ => rfl, fun _ => rfl, fun _ => rfl, id, id⟩
  · exact .refl s

theorem steady_declare (k : NodeKind Subnode) : (declare k).Steady := by
  constructor
  case advances =>
    intro s
    refine (advances_inside k s).trans ?_
    rw [Execution.declare_eq]
    split
    · exact ⟨fun _ => rfl, fun _ => rfl, fun _ => rfl, id, fun _ => rfl⟩
    · exact ⟨fun _ => rfl, id, id, id, fun _ => rfl⟩
  case coherent =>
    intro s hs
    have hinside := coherent_inside (k := k) hs
    rw [Execution.declare_eq]
    split
    · exact FlowState.coherent_assigned _
    · exact ⟨hinside.definite, hinside.possible⟩

/-- The pass of a node is steady if those of its parts are. -/
theorem steady_step (k : NodeKind Subnode) (h : ∀ o ∈ k.slots, (Subnode.slot o).Steady) :
    (step target n k).Steady := by
  have hparts (os : List (Option Subnode)) (hos : ∀ o ∈ os, o ∈ k.slots) : ∀ p ∈ os.map Subnode.slot, p.Steady :=
    List.forall_mem_map.2 fun o ho => h o (hos o ho)
  have hall : (Subnode.slots k.slots).Steady := steady_all (hparts k.slots fun _ => id)
  cases k with
  | reference d qualifier =>
    cases qualifier with
    | expr primary => exact h primary (by simp [NodeKind.slots, Qualifier.slots])
    | unqualified | self =>
      show (if d = target then read n else skip).Steady
      split
      · exact steady_read n
      · exact steady_skip
  | specifier left value =>
    exact steady_specify (h left (by simp [NodeKind.slots])) (h value (by simp [NodeKind.slots]))
  | returnStmt value | throwStmt value => exact (h value (by simp [NodeKind.slots])).andThen steady_exit
  | breakStmt | continueStmt => exact steady_exit
  | ifElse condition thenBranch elseBranch =>
    exact (h condition (by simp [NodeKind.slots])).andThen
      (steady_fork (hparts [thenBranch, elseBranch] (by simp [NodeKind.slots])))
  | switch subject arms default exhaustive =>
    refine (h subject (by simp [NodeKind.slots])).andThen (steady_fork fun p hp => ?_)
    rcases List.mem_append.1 hp with hp | hp
    · exact hparts arms (fun o ho => by simp [NodeKind.slots, ho]) p hp
    · split at hp
      · exact hparts [default] (by simp [NodeKind.slots]) p hp
      · exact absurd hp List.not_mem_nil
  | whileLoop first second | doWhile first second => exact steady_loop (Subnode.slots [first, second])
  | forLoop iterator iterable body fail =>
    exact (steady_loop (Subnode.slots [iterator, iterable, body])).andThen
      (h fail (by simp [NodeKind.slots])).interruptible
  | tryCatch body catches finalizer =>
    refine Steady.andThen (p := if catches.isEmpty then Subnode.slot body
      else .all ((body :: catches).map fun o => (Subnode.slot o).interruptible)) ?_
      (h finalizer (by simp [NodeKind.slots])).keepDeclared
    split
    · exact h body (by simp [NodeKind.slots])
    · refine steady_all (List.forall_mem_map.2 fun o ho => (h o ?_).interruptible)
      rcases List.mem_cons.1 ho with rfl | ho
      · exact List.mem_cons_self
      · simp [NodeKind.slots, ho]
  | lambda => exact steady_nested _
  | valueDecl d | functionDecl d | getterDecl d | classDecl d | interfaceDecl d | aliasDecl d | typeConstraint d
  | parameter d | variableDecl d =>
    show (if d = target then declare _ else (Subnode.slots _).nested).Steady
    split
    · exact steady_declare _
    · exact steady_nested _
  | block | exprStmt | caseArm | catchClause | literal | call | binary | extendedType | satisfiedTypes
  | staticType => exact hall

theorem steady_slot {o : Option Subnode} (h : ∀ p, o = some p → p.pass.Steady) : (Subnode.slot o).Steady := by
  cases o with
  | none => exact steady_skip
  | some p => exact h p rfl

theorem steady_subnode (target : DeclId) (t : Tree) : (subnode target t).pass.Steady := by
  induction t with
  | missing => exact steady_skip
  | node id k ih =>
    rw [subnode_node]
    refine steady_step _ fun o ho => steady_slot fun p hp => ?_
    rw [NodeKind.slots_map, hp] at ho
    obtain ⟨o', ho', hmap⟩ := List.mem_map.1 ho
    obtain ⟨t, rfl, rfl⟩ := Option.map_eq_some_iff.1 hmap
    exact ih t (NodeKind.mem_children_iff.2 ho')

end Assignment

/-! ## The states of a walk -/

namespace Execution

variable {target : DeclId} {s s' : FlowState}

theorem steady_partPass (target : DeclId) (o : Option Tree) : (partPass target o).Steady := by
  cases o with
  | none => exact Pass.steady_skip
  | some t => exact Assignment.steady_subnode target t

theorem steady_tried (target : DeclId) (body : Option Tree) (catches : List (Option Tree)) :
    (tried target body catches).Steady := by
  have hpart := steady_partPass target
  unfold tried
  split
  · exact hpart body
  · have hcatches := Pass.steady_all (List.forall_mem_map.2 fun o (_ : o ∈ catches) => (hpart o).interruptible)
    exact (hpart body).interruptible.andThen hcatches

/-- Parts that are walked in order, each with the state that the walk enters it in. -/
def inTurn (pass : Option Tree → Pass) : List (Option Tree) → FlowState → List (Option Tree × FlowState)
  | [], _ => []
  | o :: os, s => (o, s) :: inTurn pass os (pass o s).1

/-- The parts that the walk through a node enters, each with the state that it enters it in. -/
def entered (target : DeclId) (k : NodeKind Tree) (s : FlowState) : List (Option Tree × FlowState) :=
  match k with
  | .reference _ .unqualified | .reference _ .self => []
  | .specifier left value =>
    if specifies target left then
      if (Assignment.specifierFault? s).isSome then []
      else [(value, s), (left, (partPass target value s).1.assigned)]
    else inTurn (partPass target) [left, value] s
  | .ifElse condition thenBranch elseBranch =>
    (condition, s) :: [thenBranch, elseBranch].map (·, (partPass target condition s).1)
  | .switch subject arms default _ => (subject, s) :: (arms ++ [default]).map (·, (partPass target subject s).1)
  | .whileLoop condition body => inTurn (partPass target) [condition, body] s.withBarrier
  | .doWhile body condition => inTurn (partPass target) [body, condition] s.withBarrier
  | .forLoop iterator iterable body fail =>
    inTurn (partPass target) [iterator, iterable, body] s.withBarrier ++
      [(fail, (Pass.loop (.all ([iterator, iterable, body].map (partPass target))) s).1)]
  | .tryCatch body catches finalizer =>
    (body, s) ::
      (inTurn (fun o => (partPass target o).interruptible) catches ((partPass target body).interruptible s).1 ++
        [(finalizer, (tried target body catches s).1)])
  | .lambda .. => inTurn (partPass target) k.slots s.withBarrier
  | k =>
    match k.declared? with
    | some d =>
      if d = target then inTurn (partPass target) k.slots (inside (k.map (Assignment.subnode target)) s).withBarrier
      else inTurn (partPass target) k.slots s.withBarrier
    | none => inTurn (partPass target) k.slots s

/-- A walk through a tree from `s` meets a state: before the tree, after it, or inside a part that it enters. -/
inductive Meets (target : DeclId) : Tree → FlowState → FlowState → Prop
  | before (t : Tree) (s : FlowState) : Meets target t s s
  | after (t : Tree) (s : FlowState) : Meets target t s ((Assignment.subnode target t).pass s).1
  | inside {n : NodeId} {k : NodeKind Tree} {t : Tree} {s s' s'' : FlowState} (h : (some t, s') ∈ entered target k s)
      (h' : Meets target t s' s'') : Meets target (.node n k) s s''

theorem coherent_inTurn {pass : Option Tree → Pass} (hpass : ∀ o, (pass o).Steady) {os : List (Option Tree)}
    (hs : s.Coherent) : ∀ x ∈ inTurn pass os s, x.2.Coherent := by
  induction os generalizing s with
  | nil => exact List.forall_mem_nil _
  | cons o os ih => exact List.forall_mem_cons.2 ⟨hs, ih ((hpass o).coherent s hs)⟩

theorem coherent_branches {os : List (Option Tree)} (hs : s.Coherent) : ∀ x ∈ os.map (·, s), x.2.Coherent :=
  List.forall_mem_map.2 fun _ _ => hs

/-- Every part is entered in a coherent state. -/
theorem coherent_entered {k : NodeKind Tree} (hs : s.Coherent) : ∀ x ∈ entered target k s, x.2.Coherent := by
  have hturn {os : List (Option Tree)} {s : FlowState} (hs : s.Coherent) :
      ∀ x ∈ inTurn (partPass target) os s, x.2.Coherent :=
    coherent_inTurn (steady_partPass target) hs
  have hafter (o : Option Tree) : (partPass target o s).1.Coherent := (steady_partPass target o).coherent s hs
  cases k with
  | reference d qualifier =>
    cases qualifier with
    | expr primary => exact hturn hs
    | unqualified | self => exact List.forall_mem_nil _
  | specifier left value =>
    rw [entered]
    split
    · split
      · exact List.forall_mem_nil _
      · exact List.forall_mem_cons.2 ⟨hs, List.forall_mem_singleton.2 (FlowState.coherent_assigned _)⟩
    · exact hturn hs
  | ifElse condition thenBranch elseBranch =>
    exact List.forall_mem_cons.2 ⟨hs, coherent_branches (hafter condition)⟩
  | switch subject arms default exhaustive => exact List.forall_mem_cons.2 ⟨hs, coherent_branches (hafter subject)⟩
  | whileLoop | doWhile | lambda => exact hturn hs.withBarrier
  | forLoop iterator iterable body fail =>
    refine List.forall_mem_append.2 ⟨hturn hs.withBarrier, List.forall_mem_singleton.2 ?_⟩
    exact (Pass.steady_loop (.all ([iterator, iterable, body].map (partPass target)))).coherent s hs
  | tryCatch body catches finalizer =>
    have hcut (o : Option Tree) := (steady_partPass target o).interruptible
    refine List.forall_mem_cons.2 ⟨hs, List.forall_mem_append.2 ⟨?_, List.forall_mem_singleton.2 ?_⟩⟩
    · exact coherent_inTurn hcut ((hcut body).coherent s hs)
    · exact (steady_tried target body catches).coherent s hs
  | valueDecl d | functionDecl d | getterDecl d | classDecl d | interfaceDecl d | aliasDecl d | typeConstraint d
  | parameter d | variableDecl d =>
    show ∀ x ∈ (if d = target then _ else _), _
    split
    · exact hturn (Assignment.coherent_inside hs).withBarrier
    · exact hturn hs.withBarrier
  | returnStmt | throwStmt | breakStmt | continueStmt | block | exprStmt | caseArm | catchClause | literal | call
  | binary | extendedType | satisfiedTypes | staticType => exact hturn hs

theorem coherent_of_meets {t : Tree} (h : Meets target t s s') (hs : s.Coherent) : s'.Coherent := by
  induction h with
  | before => exact hs
  | after t s => exact (Assignment.steady_subnode target t).coherent s hs
  | inside h _ ih => exact ih (coherent_entered hs _ h)

/-- **Walks keep the order of flow states**: from a coherent state a walk through a node ends in a coherent state and
takes nothing back, and a walk from the initial state meets coherent states only. -/
theorem subnodeWithin_coherent (target : DeclId) (a : Arena) (n : NodeId) (s : FlowState) (hs : s.Coherent) :
    ((Assignment.subnodeWithin target a a.nodes.size n).pass s).1.Coherent ∧
      s.Advances ((Assignment.subnodeWithin target a a.nodes.size n).pass s).1 ∧
        ∀ s', Meets target (a.tree n) .initial s' → s'.Coherent := by
  rw [Assignment.subnodeWithin_eq]
  have hsteady := Assignment.steady_subnode target (a.treeWithin a.nodes.size n)
  exact ⟨hsteady.coherent s hs, hsteady.advances s,
    fun s' hmeets => coherent_of_meets hmeets FlowState.coherent_initial⟩

/-- `if (1) { return; }`. -/
def guardedReturn : Arena := arenaOf [.literal, .returnStmt none, .ifElse (some ⟨0⟩) (some ⟨1⟩) none]

/-- Past a declaration without a value, the `return` ends in a state that has left. -/
theorem subnodeWithin_coherent_guardedReturn :
    ((Assignment.subnodeWithin ⟨2⟩ guardedReturn guardedReturn.nodes.size ⟨1⟩).pass FlowState.initial.passed).1 =
        FlowState.initial.passed.exit ∧
      FlowState.initial.passed.exit.Coherent ∧ FlowState.initial.passed.Advances FlowState.initial.passed.exit ∧
        ∀ s', Meets ⟨2⟩ (guardedReturn.tree ⟨1⟩) .initial s' → s'.Coherent := by
  have hwalk : ((Assignment.subnodeWithin ⟨2⟩ guardedReturn guardedReturn.nodes.size ⟨1⟩).pass
      FlowState.initial.passed).1 = FlowState.initial.passed.exit := rfl
  refine ⟨hwalk, ?_⟩
  rw [← hwalk]
  exact subnodeWithin_coherent ⟨2⟩ guardedReturn ⟨1⟩ FlowState.initial.passed ⟨nofun, nofun⟩

end Execution

end SemCheck
