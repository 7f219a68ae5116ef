import SemCheck.Proofs.Flow.Construct
import SemCheck.Proofs.Flow.Target

/-!
# Definite assignment is sound

A scope in which the check of a declaration finds nothing wrong has only safe executions (`checkAssignment_sound`).
Every read finds the declaration with its value. A specifier finds it without one, except that a try block with a dead
end loses what its branches assigned, and that the right side of a specifier is not looked at for what it assigns: these
are the `excuses` of the scope, and there is a scope that needs one (`not_safe_deadEnd`).

The proof is an induction over the tree under the scope, with one lemma of `Sound` for each way of putting a node
together (`sound_node`).
-/

namespace SemCheck.Execution

open Runs

/-! ## The induction -/

section

variable {target : DeclId} {n : NodeId} {k : NodeKind Tree}

/-- What is asked of a tree for its executions to need no more than the excuses `x`. -/
structure Admits (x : Excuses) (target : DeclId) (t : Tree) : Prop where
  final : ∀ n k, .node n k ∈ t.subtrees → k.hasFinalizer = false
  once : count target (some t) ≤ 1
  catches : GuardedDeadEnd target t → x.catches
  values : NestedSpecifiers target t → x.values

theorem Admits.of_mem_children {x : Excuses} {t : Tree} (h : Admits x target (.node n k)) (ht : t ∈ k.children) :
    Admits x target t := by
  have hsub {u : Tree} (hu : u ∈ t.subtrees) : u ∈ (Tree.node n k).subtrees := Tree.mem_subtrees_of_mem_children ht hu
  constructor
  case final =>
    intro m k' hmem
    exact h.final m k' (hsub hmem)
  case once => exact Nat.le_trans (count_le_of_mem_children ht) h.once
  case catches =>
    rintro ⟨m, body, catches, finalizer, hmem, hne, hdead⟩
    exact h.catches ⟨m, body, catches, finalizer, hsub hmem, hne, hdead⟩
  case values =>
    rintro ⟨m, left, value, hmem, hleft, hspec⟩
    exact h.values ⟨m, left, value, hsub hmem, hleft, hspec⟩

/-- The pass of a part is right about its executions. -/
def SoundPart (x : Excuses) (covered : Prop) (target : DeclId) (o : Option Tree) : Prop :=
  Sound x covered (count target o) (partPass target o) (within (runs target) o)

/-- The pass of a tree is right about its executions; in a try block its dead ends have to be excused. -/
abbrev SoundTree (x : Excuses) (target : DeclId) (t : Tree) : Prop :=
  SoundPart x (∀ u ∈ t.subtrees, DeadEnd target u → x.catches) target (some t)

/-- A fork with no way on and an assignment inside is a dead end. -/
theorem deadEnd_of_fork {first : Option Tree} {os : List (Option Tree)} (hk : k.isFork = true)
    (hruns : runs target (.node n k) = Seq (within (runs target) first) (oneOf (os.map (within (runs target)))))
    (hos : ∀ o ∈ os, IsPart k o) (hstop : ∀ es, ¬ oneOf (os.map (within (runs target))) es .normal)
    (hassign : ¬ (oneOf (os.map (within (runs target)))).Only (· ≠ .assign)) : DeadEnd target (.node n k) := by
  refine ⟨⟨k, rfl, hk⟩, fun es hrun => ?_, ?_⟩
  · rw [hruns] at hrun
    obtain ⟨es₁, es₂, -, -, hrun⟩ := seq_normal hrun
    exact hstop es₂ hrun
  · rw [← runsThrowing_never] at hassign
    exact assigns_of_fork hos hassign

/-- One step of the induction: the pass of a node is right about its executions if those of the trees under it are. -/
theorem sound_node {x : Excuses} (h : Admits x target (.node n k)) (hparts : ∀ t ∈ k.children, SoundTree x target t) :
    SoundTree x target (.node n k) := by
  have hself : Tree.node n k ∈ (Tree.node n k).subtrees := Tree.mem_subtrees_self _
  have hpart (o : Option Tree) (ho : IsPart k o) :
      SoundPart x (∀ u ∈ (Tree.node n k).subtrees, DeadEnd target u → x.catches) target o := by
    cases o with
    | none => exact .skip
    | some t =>
      have ht := ho.mem_children
      exact (hparts t ht).imp fun hc u hu => hc u (Tree.mem_subtrees_of_mem_children ht hu)
  obtain ⟨m, hm, hconstruct⟩ := construct target (runs target) n k
  have honce := h.once
  have hruns := runs_node target n k
  unfold SoundTree SoundPart
  show Sound _ _ _ _ (runs target (.node n k))
  rw [hruns]
  refine Sound.mono ?_ hm
  generalize partPass target (some (.node n k)) = p at hconstruct
  generalize step target n (k.map fun t => (t, runs target t)) = r at hconstruct hruns
  cases hconstruct with
  | part h => exact hpart _ h
  | sequence h => exact Sound.all fun o ho => hpart o (h o ho)
  | nested => exact (Sound.all fun o ho => hpart o (Or.inr ho)).nested
  | declare hk =>
    have hall := Sound.all fun o ho => hpart o (Or.inr ho)
    have hzero : (k.slots.map (count target)).sum = 0 := by omega
    rw [hzero, ← slots_pass] at hall
    rw [hzero, ← (assigned_map (Assignment.subnode target) k).1, ← (assigned_map (Assignment.subnode target) k).2]
    exact hall.declare
  | read => exact Sound.read n
  | @specify left value hk hleft =>
    subst hk
    obtain ⟨m, hread⟩ := pass_of_specifies hleft
    refine Sound.specify ((specifies_eq left).trans hleft) hread (hpart value (Or.inr (by simp [NodeKind.slots]))) ?_
    by_cases honly : (within (runs target) value).Only (· ≠ .assign)
    · exact Or.inr honly
    · obtain ⟨t, rfl, hspec⟩ := exists_specifier_of_runs honly
      exact Or.inl (h.values ⟨n, left, t, hself, hleft, hspec⟩)
  | stop hending => exact Sound.exit hending
  | @jump value h =>
    have hleft : Ending.left ≠ .normal := by decide
    exact (hpart value h).andThen (.exit hleft)
  | @fork first os hk h =>
    have hos (o : Option Tree) (ho : o ∈ os) := h o (List.mem_cons_of_mem _ ho)
    have hfork := Sound.fork (fun o ho => hpart o (hos o ho)) fun hc hstop hassign =>
      hc _ hself (deadEnd_of_fork hk hruns hos hstop hassign)
    exact (hpart first (h _ List.mem_cons_self)).andThen hfork
  | @loop os fail hk h =>
    exact Sound.loop (fun o ho => hpart o (h o (List.mem_cons_of_mem _ ho))) (hpart fail (h _ List.mem_cons_self))
  | @guarded body catches hk hne =>
    subst hk
    have hblock : SoundPart x True target body := by
      cases body with
      | none => exact .skip
      | some t =>
        have hmem : some t ∈ (NodeKind.tryCatch (some t) catches none).slots := List.mem_cons_self
        have ht := NodeKind.mem_children_iff.2 hmem
        exact (hparts t ht).imp fun _ u hu hdead => h.catches ⟨n, t, catches, none, hself, hne, u, hu, hdead⟩
    exact Sound.guarded hblock fun o ho => hpart o (Or.inr (by simp [NodeKind.slots, ho]))
  | attempt hk | guardedAttempt hk =>
    subst hk
    exact Bool.noConfusion (h.final n _ hself)

theorem sound_subnode {x : Excuses} {t : Tree} (h : Admits x target t) : SoundTree x target t := by
  induction t with
  | missing n =>
    unfold SoundTree SoundPart
    rw [count_missing]
    exact .skip
  | node n k ih => exact sound_node h fun t ht => ih t ht (h.of_mem_children ht)

end

/-- **A scope without findings has only safe executions**, if it is a tree that declares the target once and has no
finally clause. -/
theorem checkAssignment_sound {a : Arena} {m : Model} {target : DeclId} {scope : NodeId} {es : List Event} {e : Ending}
    (htree : a.IsTreeUnder scope) (honce : a.DeclaredOnceUnder scope target) (hfinal : a.NoFinalizerUnder scope)
    (hcheck : checkAssignment a m target scope = []) (hrun : runs target (a.tree scope) es e) :
    Safe (excuses target (a.tree scope)) {} es := by
  have hadmits : Admits (excuses target (a.tree scope)) target (a.tree scope) :=
    ⟨fun n k hmem => Arena.hasFinalizer_of_mem_subtrees hfinal hmem, Arena.length_declarers_le_one htree honce, id, id⟩
  have hinitial : Agrees (excuses target (a.tree scope)) 1 .initial {} :=
    ⟨rfl, Nat.le_refl 1, fun _ => ⟨rfl, rfl⟩, nofun, nofun, nofun⟩
  exact (sound_subnode hadmits).safe hadmits.once hinitial (findings_eq_nil hcheck) hrun

section

/-- `value x; if (1) { x = 1; } else { return; } x`. -/
def oneBranch : Arena := arenaOf [.valueDecl ⟨2⟩ none none, .literal, .reference ⟨2⟩ .unqualified, .literal,
  .specifier (some ⟨2⟩) (some ⟨3⟩), .returnStmt none, .ifElse (some ⟨1⟩) (some ⟨4⟩) (some ⟨5⟩),
  .reference ⟨2⟩ .unqualified, .block [some ⟨0⟩, some ⟨6⟩, some ⟨7⟩]]

theorem runs_oneBranch :
    runs ⟨2⟩ (oneBranch.tree ⟨8⟩) [.declare false, .specify ⟨4⟩, .assign, .read ⟨7⟩] .normal := by
  have htree : oneBranch.tree ⟨8⟩ = .node ⟨8⟩ (.block [
      some (.node ⟨0⟩ (.valueDecl ⟨2⟩ none none)),
      some (.node ⟨6⟩ (.ifElse (some (.node ⟨1⟩ .literal)) (some (assignment ⟨2⟩ ⟨4⟩ ⟨2⟩ ⟨3⟩))
        (some (.node ⟨5⟩ (.returnStmt none))))),
      some (.node ⟨7⟩ (.reference ⟨2⟩ .unqualified))]) := rfl
  rw [htree, ← partRuns_some]
  exact part_plain rfl (Seq.of part_forward
    (Seq.of (part_then part_literal part_assignment rfl) (Seq.of part_reference ⟨rfl, rfl⟩ rfl) rfl) rfl)

theorem checkAssignment_sound_oneBranch :
    Safe (excuses ⟨2⟩ (oneBranch.tree ⟨8⟩)) {} [.declare false, .specify ⟨4⟩, .assign, .read ⟨7⟩] := by
  have honly : ∀ n ∈ oneBranch.postOrder ⟨8⟩, oneBranch.declaredAt? n = some ⟨2⟩ → n = ⟨0⟩ := by decide
  have htree : oneBranch.IsTreeUnder ⟨8⟩ := by
    unfold Arena.IsTreeUnder
    decide
  have honce : oneBranch.DeclaredOnceUnder ⟨8⟩ ⟨2⟩ := ⟨⟨0⟩, by decide, fun n hn => honly n hn.1 hn.2⟩
  have hfinal : oneBranch.NoFinalizerUnder ⟨8⟩ := by
    unfold Arena.NoFinalizerUnder
    decide
  exact checkAssignment_sound (m := oneLocal) htree honce hfinal rfl runs_oneBranch

/-- `value x; try { if (1) { x = 1; throw; } else { throw; } } catch { x = 1; }`. -/
def deadEnd : Arena := arenaOf [.valueDecl ⟨2⟩ none none, .literal, .literal, .reference ⟨2⟩ .unqualified,
  .specifier (some ⟨3⟩) (some ⟨2⟩), .throwStmt none, .block [some ⟨4⟩, some ⟨5⟩], .throwStmt none,
  .ifElse (some ⟨1⟩) (some ⟨6⟩) (some ⟨7⟩), .literal, .reference ⟨2⟩ .unqualified,
  .specifier (some ⟨10⟩) (some ⟨9⟩), .catchClause none (some ⟨11⟩), .tryCatch (some ⟨8⟩) [some ⟨12⟩] none,
  .block [some ⟨0⟩, some ⟨13⟩]]

theorem runs_deadEnd : runs ⟨2⟩ (deadEnd.tree ⟨14⟩)
    [.declare false, .specify ⟨4⟩, .assign, .caught, .specify ⟨11⟩, .assign] .normal := by
  have htree : deadEnd.tree ⟨14⟩ = .node ⟨14⟩ (.block [
      some (.node ⟨0⟩ (.valueDecl ⟨2⟩ none none)),
      some (.node ⟨13⟩ (.tryCatch
        (some (.node ⟨8⟩ (.ifElse (some (.node ⟨1⟩ .literal))
          (some (.node ⟨6⟩ (.block [some (assignment ⟨2⟩ ⟨4⟩ ⟨3⟩ ⟨2⟩), some (.node ⟨5⟩ (.throwStmt none))])))
          (some (.node ⟨7⟩ (.throwStmt none))))))
        [some (.node ⟨12⟩ (.catchClause none (some (assignment ⟨2⟩ ⟨11⟩ ⟨10⟩ ⟨9⟩))))] none))]) := rfl
  have hthen : partRuns ⟨2⟩ (some (.node ⟨6⟩ (.block [some (assignment ⟨2⟩ ⟨4⟩ ⟨3⟩ ⟨2⟩),
      some (.node ⟨5⟩ (.throwStmt none))]))) [.specify ⟨4⟩, .assign] .left :=
    part_plain rfl (Seq.of part_assignment (.stop part_throw nofun) rfl)
  have hblock : partRuns ⟨2⟩ (some (.node ⟨8⟩ (.ifElse (some (.node ⟨1⟩ .literal)) _
      (some (.node ⟨7⟩ (.throwStmt none)))))) ([.specify ⟨4⟩, .assign] ++ []) .left :=
    part_then part_literal hthen rfl
  have hcatch : partRuns ⟨2⟩ (some (.node ⟨12⟩ (.catchClause none (some (assignment ⟨2⟩ ⟨11⟩ ⟨10⟩ ⟨9⟩)))))
      [.specify ⟨11⟩, .assign] .normal :=
    part_plain rfl (Seq.of ⟨rfl, rfl⟩ (Seq.of part_assignment ⟨rfl, rfl⟩ rfl) rfl)
  rw [htree, ← partRuns_some]
  exact part_plain rfl (Seq.of part_forward (Seq.of (part_caught hblock hcatch) ⟨rfl, rfl⟩ rfl) rfl)

/-- What the block assigns before it throws is forgotten in the catch clause, where no specifier should be allowed. -/
theorem not_safe_deadEnd :
    deadEnd.IsTreeUnder ⟨14⟩ ∧ deadEnd.DeclaredOnceUnder ⟨14⟩ ⟨2⟩ ∧ deadEnd.NoFinalizerUnder ⟨14⟩ ∧
      checkAssignment deadEnd oneLocal ⟨2⟩ ⟨14⟩ = [] ∧
        ∃ es e, runs ⟨2⟩ (deadEnd.tree ⟨14⟩) es e ∧ ¬ Safe ⟨False, False⟩ {} es := by
  have honly : ∀ n ∈ deadEnd.postOrder ⟨14⟩, deadEnd.declaredAt? n = some ⟨2⟩ → n = ⟨0⟩ := by decide
  refine ⟨?_, ⟨⟨0⟩, by decide, fun n hn => honly n hn.1 hn.2⟩, ?_, rfl, _, _, runs_deadEnd, ?_⟩
  · unfold Arena.IsTreeUnder
    decide
  · unfold Arena.NoFinalizerUnder
    decide
  · simp [Safe, Allowed, Store.after]

end

end SemCheck.Execution
