import SemCheck.Proofs.Flow.Parts

/-!
# Passes around a block

The pass of a part of a program in which a block stands once, and nothing else concerns the target, finds what the block
does: it comes to the block in the initial state, and finds nothing after it, whatever the state (`Pass.Wraps`). Every
way of putting passes together keeps this, with the number of times that the block stands in the parts added up.

Main statement: so does every node that neither names the target nor jumps (`wraps_node`).
-/

namespace SemCheck

theorem FlowState.join_initial {arms : List FlowState} (h : ∀ s ∈ arms, s = .initial) :
    FlowState.initial.join arms = .initial := by
  rw [List.eq_replicate_of_mem h]
  cases arms.length <;> simp [join, initial, List.replicate_succ]

namespace Pass

/-- The pass of a part in which a block stands `n` times. Without the block it finds nothing and leaves the initial
state as it is; with it, it finds from the initial state what the block does. -/
structure Wraps (findings : List Finding) (n : Nat) (p : Pass) : Prop where
  idle : n = 0 → (p .initial).1 = .initial ∧ ∀ s, (p s).2 = []
  found : n = 1 → (p .initial).2 = findings

namespace Wraps

variable {findings : List Finding} {n n' : Nat} {p q : Pass}

theorem skip : Wraps findings 0 .skip := ⟨fun _ => ⟨rfl, fun _ => rfl⟩, nofun⟩

theorem congr (h : Wraps findings n p) (hn : n = n') : Wraps findings n' p := hn ▸ h

theorem andThen (hp : Wraps findings n p) (hq : Wraps findings n' q) : Wraps findings (n + n') (p.andThen q) where
  idle h := by
    obtain ⟨hstate, hnothing⟩ := hp.idle (by omega)
    obtain ⟨hstate', hnothing'⟩ := hq.idle (by omega)
    refine ⟨?_, fun s => ?_⟩
    · show (q (p .initial).1).1 = _
      rw [hstate, hstate']
    · show (p s).2 ++ (q (p s).1).2 = []
      rw [hnothing, hnothing', List.append_nil]
  found h := by
    show (p .initial).2 ++ (q (p .initial).1).2 = findings
    rcases Nat.eq_zero_or_pos n with hn | hn
    · obtain ⟨hstate, hnothing⟩ := hp.idle hn
      rw [hnothing, hstate, List.nil_append, hq.found (by omega)]
    · rw [hp.found (by omega), (hq.idle (by omega)).2, List.append_nil]

section

variable {ι : Type} {is : List ι} {w : ι → Nat} {p : ι → Pass}

theorem all (h : ∀ i ∈ is, Wraps findings (w i) (p i)) : Wraps findings (is.map w).sum (.all (is.map p)) := by
  induction is with
  | nil => exact skip
  | cons i is ih =>
    obtain ⟨hi, his⟩ := List.forall_mem_cons.1 h
    exact hi.andThen (ih his)

/-- Only one of several parts has the block, and all begin in the initial state. -/
theorem flatMap_eq (h : ∀ i ∈ is, Wraps findings (w i) (p i)) (hone : (is.map w).sum = 1) :
    is.flatMap (fun i => (p i .initial).2) = findings := by
  induction is with
  | nil => exact absurd hone nofun
  | cons i is ih =>
    obtain ⟨hi, his⟩ := List.forall_mem_cons.1 h
    rw [List.map_cons, List.sum_cons] at hone
    rw [List.flatMap_cons]
    rcases Nat.eq_zero_or_pos (w i) with hw | hw
    · rw [(hi.idle hw).2, ih his (by omega), List.nil_append]
    · have hrest : (is.map w).sum = 0 := by omega
      have hnothing : is.flatMap (fun i => (p i .initial).2) = [] :=
        List.flatMap_eq_nil_iff.2 fun j hj => ((his j hj).idle (Execution.eq_zero_of_sum hrest hj)).2 _
      rw [hi.found (by omega), hnothing, List.append_nil]

theorem fork (h : ∀ i ∈ is, Wraps findings (w i) (p i)) : Wraps findings (is.map w).sum (.fork (is.map p)) where
  idle hsum := by
    have hidle (i : ι) (hi : i ∈ is) := (h i hi).idle (Execution.eq_zero_of_sum hsum hi)
    refine ⟨?_, fun s => ?_⟩
    · show FlowState.initial.join (((is.map p).map (· .initial)).map Prod.fst) = _
      exact FlowState.join_initial (by simpa using fun i hi => (hidle i hi).1)
    · show ((is.map p).map (· s)).flatMap Prod.snd = []
      simpa using fun i hi => (hidle i hi).2 s
  found hsum := by
    show ((is.map p).map (· .initial)).flatMap Prod.snd = findings
    rw [List.map_map, List.flatMap_map]
    exact flatMap_eq h hsum

end

theorem loop (hp : Wraps findings n p) : Wraps findings n p.loop where
  idle h := by
    obtain ⟨hstate, hnothing⟩ := hp.idle h
    refine ⟨?_, fun s => hnothing s.withBarrier⟩
    show FlowState.initial.afterLoop (p .initial).1 = _
    rw [hstate]
    rfl
  found h := hp.found h

theorem interruptible (hp : Wraps findings n p) : Wraps findings n p.interruptible where
  idle h := by
    obtain ⟨hstate, hnothing⟩ := hp.idle h
    refine ⟨?_, hnothing⟩
    show (p .initial).1.restorePartial .initial = _
    rw [hstate]
    rfl
  found h := hp.found h

theorem keepDeclared (hp : Wraps findings n p) : Wraps findings n p.keepDeclared where
  idle h := by
    obtain ⟨hstate, hnothing⟩ := hp.idle h
    refine ⟨?_, hnothing⟩
    show { (p .initial).1 with declared := false } = _
    rw [hstate]
    rfl
  found h := hp.found h

theorem nested (hp : Wraps findings n p) : Wraps findings n p.nested where
  idle h := ⟨rfl, fun s => (hp.idle h).2 s.withBarrier⟩
  found h := hp.found h

end Wraps

end Pass

namespace Execution

open Pass

variable {target : DeclId} {findings : List Finding} {n : NodeId} {k : NodeKind Tree} {w : Option Tree → Nat}

theorem wraps_declaring {d : DeclId} (hk : k.declared? = some d) (hd : d ≠ target)
    (hparts : ∀ o ∈ k.slots, Wraps findings (w o) (partPass target o)) :
    Wraps findings (k.slots.map w).sum (partPass target (some (.node n k))) := by
  rw [pass_declaring hk, if_neg hd]
  exact (Wraps.all hparts).nested

theorem wraps_tried {body : Option Tree} {catches : List (Option Tree)}
    (hparts : ∀ o ∈ body :: catches, Wraps findings (w o) (partPass target o)) :
    Wraps findings ((body :: catches).map w).sum (tried target body catches) := by
  obtain ⟨hbody, hcatches⟩ := List.forall_mem_cons.1 hparts
  unfold tried
  split
  · next hempty =>
    rw [List.isEmpty_iff.1 hempty]
    exact hbody
  · exact hbody.interruptible.andThen (Wraps.all fun o ho => (hcatches o ho).interruptible)

/-- A node that neither names the target nor jumps wraps what its parts do. -/
theorem wraps_node (hnone : w none = 0) (hparts : ∀ o ∈ k.slots, Wraps findings (w o) (partPass target o))
    (hnames : k.declaration? ≠ some target) (hjump : k.isJump = false)
    (hleft : ∀ left value, k = .specifier left value → specifies target left = false) :
    Wraps findings (k.slots.map w).sum (partPass target (some (.node n k))) := by
  cases k with
  | block | exprStmt | caseArm | catchClause | literal | call | binary | extendedType | satisfiedTypes | staticType =>
    rw [pass_plain rfl]
    exact .all hparts
  | valueDecl d | functionDecl d | getterDecl d | classDecl d | interfaceDecl d | aliasDecl d | typeConstraint d
  | parameter d | variableDecl d =>
    exact wraps_declaring rfl (fun hd => hnames (congrArg some hd)) hparts
  | lambda parameters body =>
    rw [pass_lambda]
    exact (Wraps.all hparts).nested
  | reference d qualifier =>
    have hd : d ≠ target := fun hd => hnames (congrArg some hd)
    rw [pass_node]
    cases qualifier with
    | expr primary => exact (hparts primary List.mem_cons_self).congr (Nat.add_zero _).symm
    | unqualified | self =>
      show Wraps findings 0 (if d = target then Assignment.read n else .skip)
      rw [if_neg hd]
      exact .skip
  | specifier left value =>
    have hpass : Assignment.specify target n (left.map (Assignment.subnode target))
        (value.map (Assignment.subnode target)) = .all ([left, value].map (partPass target)) :=
      if_neg (by rw [specifies_eq, hleft left value rfl]; exact Bool.false_ne_true)
    rw [pass_node]
    show Wraps findings _ (Assignment.specify target n _ _)
    rw [hpass]
    exact .all hparts
  | ifElse condition thenBranch elseBranch =>
    obtain ⟨hcondition, hbranches⟩ := List.forall_mem_cons.1 hparts
    rw [pass_node]
    exact hcondition.andThen (Wraps.fork hbranches)
  | switch subject arms default exhaustive =>
    obtain ⟨hsubject, hothers⟩ := List.forall_mem_cons.1 hparts
    have harms : Wraps findings ((arms ++ [default]).map w).sum (.fork ((arms ++
        if default.isSome || !exhaustive then [default] else []).map (partPass target))) := by
      split
      · exact .fork hothers
      · next hcovered =>
        -- The slot of the default has no branch, and is empty.
        obtain rfl : default = none := by
          cases default with
          | none => rfl
          | some => exact absurd rfl hcovered
        rw [List.append_nil]
        refine (Wraps.fork fun o ho => hothers o (List.mem_append_left _ ho)).congr ?_
        simp [hnone]
    rw [pass_switch]
    exact hsubject.andThen harms
  | whileLoop | doWhile =>
    rw [pass_node]
    exact (Wraps.all hparts).loop
  | forLoop iterator iterable body fail =>
    -- The clause after the loop is outside of it, though it is a part of the same node.
    have hloop : Wraps findings ([iterator, iterable, body].map w).sum
        (.loop (.all ([iterator, iterable, body].map (partPass target)))) :=
      (Wraps.all fun o ho => hparts o (List.mem_append_left [fail] ho)).loop
    have hfail : Wraps findings (w fail) (partPass target fail) := hparts fail (by simp [NodeKind.slots])
    rw [pass_node]
    exact (hloop.andThen hfail.interruptible).congr (by simp [NodeKind.slots, Nat.add_assoc])
  | tryCatch body catches finalizer =>
    have htried := wraps_tried fun o (ho : o ∈ body :: catches) => hparts o (List.mem_append_left [finalizer] ho)
    have hfinalizer : Wraps findings (w finalizer) (partPass target finalizer) :=
      hparts finalizer (by simp [NodeKind.slots])
    rw [pass_try]
    exact (htried.andThen hfinalizer.keepDeclared).congr (by simp [NodeKind.slots, Nat.add_assoc])
  | returnStmt | throwStmt | breakStmt | continueStmt => cases hjump

end Execution

end SemCheck
