import SemCheck.Proofs.Flow.Events
import SemCheck.Proofs.Flow.Parts

/-!
# How nodes are put together

The pass of a node and its executions are put together from those of its parts, in ways of which there are fewer than
kinds of nodes. `Construct` lists them, each with the number of declaring nodes in the parts, and every node is put
together in one of them (`construct`); what is asked of the pass and the executions of every node is then shown for one
way after the other.
-/

namespace SemCheck.Execution

open Runs

variable {target : DeclId} {f : Tree → Runs} {n : NodeId} {k : NodeKind Tree}

/-- A slot of a node, or an empty one that it does not have. -/
def IsPart (k : NodeKind Tree) (o : Option Tree) : Prop := o = none ∨ o ∈ k.slots

theorem IsPart.mem_children {t : Tree} (h : IsPart k (some t)) : t ∈ k.children :=
  NodeKind.mem_children_iff.2 (h.resolve_left (Option.some_ne_none t))

/-- How a node is put together, where `f` says what the executions of its parts are. -/
inductive Construct (target : DeclId) (f : Tree → Runs) (n : NodeId) (k : NodeKind Tree) : Nat → Pass → Runs → Prop
  /-- The only part of a node. -/
  | part {o : Option Tree} (h : IsPart k o) : Construct target f n k (count target o) (partPass target o) (within f o)
  /-- Parts in order. -/
  | sequence {os : List (Option Tree)} (h : ∀ o ∈ os, IsPart k o) :
      Construct target f n k (os.map (count target)).sum (.all (os.map (partPass target))) (all (os.map (within f)))
  /-- A body of its own. -/
  | nested : Construct target f n k (k.slots.map (count target)).sum (.nested (.all (k.slots.map (partPass target))))
      (contained (all (k.slots.map (within f))))
  /-- The declaration of the target. -/
  | declare (hk : k.declared? = some target) :
      Construct target f n k ((k.slots.map (count target)).sum + 1)
        (Assignment.declare (k.map (Assignment.subnode target)))
        (if valuedInside k then Seq (event (.declare true)) (contained (all (k.slots.map (within f))))
          else Seq (contained (all (k.slots.map (within f)))) (event (.declare (valuedAfter k))))
  | read : Construct target f n k 0 (Assignment.read n) (event (.read n))
  /-- A specifier of the target. -/
  | specify {left value : Option Tree} (hk : k = .specifier left value) (hleft : specifies target left = true) :
      Construct target f n k (count target value)
        (Assignment.specify target n (left.map (Assignment.subnode target)) (value.map (Assignment.subnode target)))
        (all [event (.specify n), within f value, event .assign])
  /-- A jump without a value. -/
  | stop {ending : Ending} (hending : ending ≠ .normal) : Construct target f n k 0 (.change .exit) (jump ending)
  /-- A jump with one. -/
  | jump {value : Option Tree} (h : IsPart k value) :
      Construct target f n k (count target value) ((partPass target value).andThen (.change .exit))
        (Seq (within f value) (jump .left))
  | fork {first : Option Tree} {os : List (Option Tree)} (hk : k.isFork = true) (h : ∀ o ∈ first :: os, IsPart k o) :
      Construct target f n k (count target first + (os.map (count target)).sum)
        ((partPass target first).andThen (.fork (os.map (partPass target))))
        (Seq (within f first) (oneOf (os.map (within f))))
  | loop {os : List (Option Tree)} {fail : Option Tree} (hk : k.isLoop = true) (h : ∀ o ∈ fail :: os, IsPart k o) :
      Construct target f n k ((os.map (count target)).sum + count target fail)
        ((Pass.loop (.all (os.map (partPass target)))).andThen (partPass target fail).interruptible)
        (Loop (os.map (within f)) (within f fail))
  /-- A block with catch clauses. -/
  | guarded {body : Option Tree} {catches : List (Option Tree)} (hk : k = .tryCatch body catches none)
      (hne : catches ≠ []) :
      Construct target f n k (count target body + (catches.map (count target)).sum)
        ((partPass target body).interruptible.andThen (.all (catches.map fun o => (partPass target o).interruptible)))
        (Guarded (within f body) (catches.map (within f)))
  /-- A block with a finally clause. -/
  | attempt {body : Option Tree} {final : Tree} (hk : k = .tryCatch body [] (some final)) :
      Construct target f n k (count target body + count target (some final))
        ((partPass target body).andThen (partPass target (some final)).keepDeclared)
        (Finally (within f body) (f final))
  /-- A block with catch clauses and a finally clause. -/
  | guardedAttempt {body : Option Tree} {catches : List (Option Tree)} {final : Tree}
      (hk : k = .tryCatch body catches (some final)) (hne : catches ≠ []) :
      Construct target f n k (count target body + (catches.map (count target)).sum + count target (some final))
        (((partPass target body).interruptible.andThen
          (.all (catches.map fun o => (partPass target o).interruptible))).andThen
            (partPass target (some final)).keepDeclared)
        (Finally (Guarded (within f body) (catches.map (within f))) (f final))

/-- A node that is put together in some way, from parts without more declaring nodes than it has. -/
def Constructed (target : DeclId) (f : Tree → Runs) (n : NodeId) (k : NodeKind Tree) : Prop :=
  ∃ m ≤ count target (some (.node n k)),
    Construct target f n k m (partPass target (some (.node n k))) (step target n (k.map fun t => (t, f t)))

theorem construct_declaring {d : DeclId} (hk : k.declared? = some d) : Constructed target f n k := by
  unfold Constructed
  rw [pass_declaring hk, step_declaring hk]
  by_cases hd : d = target
  · rw [if_pos hd, if_pos hd, count_node, if_pos (hd ▸ hk)]
    exact ⟨_, Nat.le_refl _, .declare (hd ▸ hk)⟩
  · rw [if_neg hd, if_neg hd]
    exact ⟨_, sum_le_count .., .nested⟩

theorem construct_specifier {left value : Option Tree} : Constructed target f n (.specifier left value) := by
  have hcount : ([left, value].map (count target)).sum ≤ count target (some (.node n (.specifier left value))) :=
    sum_le_count target n (.specifier left value)
  unfold Constructed
  rw [pass_node, step_specifier]
  by_cases hleft : specifies target left = true
  · rw [if_pos hleft]
    have hvalue : count target value ≤ ([left, value].map (count target)).sum := by simp
    exact ⟨_, Nat.le_trans hvalue hcount, .specify rfl hleft⟩
  · have hpass : Assignment.specify target n (left.map (Assignment.subnode target))
        (value.map (Assignment.subnode target)) = .all ([left, value].map (partPass target)) :=
      if_neg (by rwa [specifies_eq])
    rw [if_neg hleft]
    show ∃ m ≤ _, Construct target f n _ m (Assignment.specify target n _ _) _
    rw [hpass]
    exact ⟨_, hcount, .sequence fun o ho => Or.inr ho⟩

theorem construct_reference {d : DeclId} {qualifier : Qualifier Tree} :
    Constructed target f n (.reference d qualifier) := by
  unfold Constructed
  rw [pass_node]
  cases qualifier with
  | expr primary =>
    refine ⟨_, ?_, .part (o := primary) (Or.inr (by simp [NodeKind.slots, Qualifier.slots]))⟩
    simpa [NodeKind.slots, Qualifier.slots] using sum_le_count target n (.reference d (.expr primary))
  | unqualified | self =>
    show ∃ m ≤ _, Construct target f n _ m (if d = target then Assignment.read n else .skip)
      (if d = target then event (.read n) else skip)
    split
    · exact ⟨0, Nat.zero_le _, .read⟩
    · exact ⟨0, Nat.zero_le _, .part (Or.inl rfl)⟩

theorem construct_jump {value : Option Tree} (hslots : k.slots = [value])
    (hpass : partPass target (some (.node n k)) = (partPass target value).andThen (.change .exit))
    (hruns : step target n (k.map fun t => (t, f t)) = Seq (within f value) (jump .left)) :
    Constructed target f n k := by
  have hcount := sum_le_count target n k
  rw [hslots] at hcount
  unfold Constructed
  rw [hpass, hruns]
  refine ⟨_, by simpa using hcount, .jump (Or.inr ?_)⟩
  rw [hslots]
  exact List.mem_cons_self

/-- A switch has its default for a further arm, also an empty one unless the arms cover all cases. -/
theorem construct_switch {subject default : Option Tree} {arms : List (Option Tree)} {exhaustive : Bool} :
    Constructed target f n (.switch subject arms default exhaustive) := by
  have hcount := sum_le_count target n (.switch subject arms default exhaustive)
  unfold Constructed
  rw [pass_switch, step_switch]
  refine ⟨_, Nat.le_trans ?_ hcount, .fork rfl ?_⟩
  · simp only [NodeKind.slots, List.map_cons, List.sum_cons, List.map_append, List.sum_append]
    split
    · exact Nat.le_refl _
    · simp
  · intro o ho
    simp only [IsPart, NodeKind.slots]
    grind

/-- The clause after a loop comes last in it, or is missing. -/
theorem construct_loop (os : List (Option Tree)) {fail : Option Tree} (hk : k.isLoop = true)
    (hpass : partPass target (some (.node n k)) =
      (Pass.loop (.all (os.map (partPass target)))).andThen (partPass target fail).interruptible)
    (hruns : step target n (k.map fun t => (t, f t)) = Loop (os.map (within f)) (within f fail))
    (hslots : k.slots = os ++ [fail] ∨ k.slots = os ∧ fail = none) : Constructed target f n k := by
  have hcount := sum_le_count target n k
  unfold Constructed
  rw [hpass, hruns]
  rcases hslots with hslots | ⟨hslots, rfl⟩
  · rw [hslots, List.map_append, List.sum_append] at hcount
    refine ⟨_, hcount, .loop hk fun o ho => Or.inr ?_⟩
    rw [hslots]
    simpa [or_comm] using ho
  · rw [hslots] at hcount
    refine ⟨_, by simpa [count] using hcount, .loop hk fun o ho => ?_⟩
    rw [IsPart, hslots]
    exact List.mem_cons.1 ho

/-- Without catch clauses a block is not guarded. -/
theorem construct_tryCatch {body : Option Tree} {catches : List (Option Tree)} {finalizer : Option Tree} :
    Constructed target f n (.tryCatch body catches finalizer) := by
  have hcount := sum_le_count target n (.tryCatch body catches finalizer)
  simp only [NodeKind.slots, List.map_cons, List.map_append, List.map_nil, List.sum_cons, List.sum_append,
    List.sum_nil, Nat.add_zero] at hcount
  unfold Constructed
  cases finalizer with
  | none =>
    rw [pass_tryCatch, step_tryCatch]
    cases catches with
    | nil =>
      rw [List.map_nil, guarded_nil]
      exact ⟨count target body, by omega, .part (Or.inr (by simp [NodeKind.slots]))⟩
    | cons c cs => exact ⟨_, by omega, .guarded rfl (List.cons_ne_nil _ _)⟩
  | some final =>
    rw [pass_try, step_tryFinally]
    cases catches with
    | nil =>
      rw [List.map_nil, guarded_nil]
      exact ⟨count target body + count target (some final), by simpa using hcount, .attempt rfl⟩
    | cons c cs => exact ⟨_, by omega, .guardedAttempt rfl (List.cons_ne_nil _ _)⟩

/-- **How nodes are put together**: every node in one of the ways of `Construct`. -/
theorem construct (target : DeclId) (f : Tree → Runs) (n : NodeId) (k : NodeKind Tree) : Constructed target f n k := by
  cases k with
  | reference => exact construct_reference
  | specifier => exact construct_specifier
  | returnStmt value | throwStmt value => exact construct_jump rfl (pass_node ..) rfl
  | breakStmt | continueStmt =>
    unfold Constructed
    rw [pass_node]
    exact ⟨0, Nat.zero_le _, .stop nofun⟩
  | ifElse condition thenBranch elseBranch =>
    refine ⟨_, sum_le_count .., ?_⟩
    rw [pass_node]
    exact .fork rfl fun o ho => Or.inr ho
  | switch => exact construct_switch
  | whileLoop condition body =>
    exact construct_loop [condition, body] rfl (loop_eq (pass_node ..)) rfl (Or.inr ⟨rfl, rfl⟩)
  | doWhile body condition =>
    exact construct_loop [body, condition] rfl (loop_eq (pass_node ..)) rfl (Or.inr ⟨rfl, rfl⟩)
  | forLoop iterator iterable body fail =>
    exact construct_loop [iterator, iterable, body] rfl (pass_node ..) rfl (Or.inl rfl)
  | tryCatch => exact construct_tryCatch
  | lambda =>
    unfold Constructed
    rw [pass_lambda, step_lambda]
    exact ⟨_, sum_le_count .., .nested⟩
  | valueDecl | functionDecl | getterDecl | classDecl | interfaceDecl | aliasDecl | typeConstraint | parameter
  | variableDecl => exact construct_declaring rfl
  | block | exprStmt | caseArm | catchClause | literal | call | binary | extendedType | satisfiedTypes
  | staticType =>
    unfold Constructed
    rw [pass_plain rfl, step_plain rfl]
    exact ⟨_, sum_le_count .., .sequence fun o ho => Or.inr ho⟩

/-! ## Parts that assign -/

theorem Assigns.of_mem_children {t : Tree} (h : Assigns target t) (ht : t ∈ k.children) : Assigns target (.node n k) :=
  h.imp fun _ => And.imp_left (Tree.mem_subtrees_of_mem_children ht)

/-- A fork that assigns the target has a specifier in it. -/
theorem assigns_of_fork {throws : NodeId → Prop} {os : List (Option Tree)} (hos : ∀ o ∈ os, IsPart k o)
    (h : ¬ (oneOf (os.map (within (runsThrowing target throws)))).Only (· ≠ .assign)) : Assigns target (.node n k) := by
  refine Classical.byContradiction fun hno => h (only_oneOf (List.forall_mem_map.2 fun o ho => ?_))
  refine Classical.byContradiction fun hassign => hno ?_
  obtain ⟨t, rfl, hassigns⟩ := exists_specifier hassign
  exact hassigns.of_mem_children (hos _ ho).mem_children

end SemCheck.Execution
