import SemCheck.Proofs.Flow.Backs
import SemCheck.Proofs.Flow.Construct

/-!
# Reads in finally clauses

In a scope in which the check of a declaration finds nothing wrong every execution reads the target when it has its
value, also if nodes throw and catch and finally clauses are entered (`checkAssignment_reads`), except where a jump out
of a block has led to its finally clause (`AfterJump`). There the check goes on from a state in which the paths that
have left count as assigned, and a finally clause is where they come to (`not_valued_earlyReturn`). With catch clauses
before it, a finally clause starts from what was known ahead of the block, and its reads are right.

The proof is an induction over the tree under the scope, with one lemma of `Backs` for each way of putting a node
together.
-/

namespace SemCheck.Execution

open Runs

/-- What has happened before a read of a finally clause in the tree, from the start of its block, if the block has been
left by a jump. -/
inductive AfterJump (target : DeclId) (throws : NodeId → Prop) (t : Tree) (m : NodeId) : List Event → Prop
  | mk {n : NodeId} {body : Option Tree} {final : Tree} {es inside rest : List Event} {e e' : Ending}
      (hmem : .node n (.tryCatch body [] (some final)) ∈ t.subtrees)
      (hbody : within (runsThrowing target throws) body es e) (hjump : e ≠ .normal)
      (hfinal : runsThrowing target throws final (inside ++ .read m :: rest) e') :
      AfterJump target throws t m (es ++ .finalized :: inside)

/-! ## The induction -/

section

variable {X : NodeId → List Event → Prop} {target : DeclId} {throws : NodeId → Prop} {n : NodeId} {k : NodeKind Tree}

/-- The pass of a part backs the reads of its executions. -/
def BacksPart (X : NodeId → List Event → Prop) (target : DeclId) (throws : NodeId → Prop) (o : Option Tree) : Prop :=
  Backs X (count target o) (partPass target o) (within (runsThrowing target throws) o)

/-- One step of the induction: the pass of a node backs the reads if those of the trees under it do, and reads after a
jump are excused. -/
theorem backs_node (hexcuse : ∀ m es, AfterJump target throws (.node n k) m es → X m es)
    (honce : count target (some (.node n k)) ≤ 1) (hparts : ∀ t ∈ k.children, BacksPart X target throws (some t)) :
    BacksPart X target throws (some (.node n k)) := by
  have hpart (o : Option Tree) (ho : IsPart k o) : BacksPart X target throws o := by
    cases o with
    | none => exact .skip
    | some t => exact hparts t ho.mem_children
  obtain ⟨m, hm, hconstruct⟩ := construct target (runsThrowing target throws) n k
  unfold BacksPart
  show Backs _ _ _ (runsThrowing target throws (.node n k))
  rw [runsThrowing_node]
  refine Backs.throwing (Backs.mono ?_ hm) _
  generalize partPass target (some (.node n k)) = p at hconstruct
  generalize step target n (k.map fun t => (t, runsThrowing target throws t)) = r at hconstruct
  cases hconstruct with
  | part h => exact hpart _ h
  | sequence h => exact Backs.all fun o ho => hpart o (h o ho)
  | nested => exact (Backs.all fun o ho => hpart o (Or.inr ho)).nested
  | declare hk =>
    have hall := Backs.all fun o ho => hpart o (Or.inr ho)
    have hzero : (k.slots.map (count target)).sum = 0 := by omega
    rw [hzero, ← slots_pass] at hall
    rw [hzero, ← (assigned_map (Assignment.subnode target) k).1, ← (assigned_map (Assignment.subnode target) k).2]
    exact hall.declare
  | read => exact Backs.read n
  | @specify left value hk hleft =>
    subst hk
    obtain ⟨m, hread⟩ := pass_of_specifies hleft
    exact Backs.specify ((specifies_eq left).trans hleft) hread (hpart value (Or.inr (by simp [NodeKind.slots])))
  | stop hending => exact Backs.exit hending
  | @jump value h =>
    have hleft : Ending.left ≠ .normal := by decide
    exact (hpart value h).andThen (.exit hleft)
  | @fork first os hk h =>
    have hfork := Backs.fork fun o ho => hpart o (h o (List.mem_cons_of_mem _ ho))
    exact (hpart first (h _ List.mem_cons_self)).andThen hfork
  | @loop os fail hk h =>
    exact Backs.loop (fun o ho => hpart o (h o (List.mem_cons_of_mem _ ho))) (hpart fail (h _ List.mem_cons_self))
  | @guarded body catches hk hne =>
    subst hk
    refine Backs.guarded (hpart body (Or.inr (by simp [NodeKind.slots]))) fun o ho => hpart o (Or.inr ?_)
    simp [NodeKind.slots, ho]
  | @attempt body final hk =>
    subst hk
    have hbody := hpart body (Or.inr (by simp [NodeKind.slots]))
    refine Backs.attemptFinally hbody (hpart (some final) (Or.inr (by simp [NodeKind.slots]))) (Or.inr ?_)
    intro es e inside m rest e' hr hne hr'
    exact hexcuse m _ (.mk (Tree.mem_subtrees_self _) hr hne hr')
  | @guardedAttempt body catches final hk hne =>
    subst hk
    have hcatches (o : Option Tree) (ho : o ∈ catches) := hpart o (Or.inr (by simp [NodeKind.slots, ho]))
    have htried := Backs.guarded (hpart body (Or.inr (by simp [NodeKind.slots]))) hcatches
    refine Backs.attemptFinally htried (hpart (some final) (Or.inr (by simp [NodeKind.slots]))) (Or.inl fun s => ?_)
    exact clauses_keep (body :: catches) (partPass target) s

theorem AfterJump.of_mem_children {t : Tree} {m : NodeId} {es : List Event} (h : AfterJump target throws t m es)
    (ht : t ∈ k.children) : AfterJump target throws (.node n k) m es := by
  obtain ⟨hmem, hbody, hjump, hfinal⟩ := h
  exact .mk (Tree.mem_subtrees_of_mem_children ht hmem) hbody hjump hfinal

theorem backs_tree {t : Tree} (hexcuse : ∀ m es, AfterJump target throws t m es → X m es)
    (honce : count target (some t) ≤ 1) : BacksPart X target throws (some t) := by
  induction t with
  | missing n =>
    unfold BacksPart
    show Backs _ _ _ (runsThrowing target throws (.missing n))
    rw [count_missing, runsThrowing_missing]
    exact .skip
  | node n k ih =>
    refine backs_node hexcuse honce fun t ht => ih t ht (fun m es h => ?_) ?_
    · exact hexcuse m es (h.of_mem_children ht)
    · exact Nat.le_trans (count_le_of_mem_children ht) honce

end

/-- **A scope without findings reads what has its value**, if it is a tree that declares the target once, except in a
finally clause that a jump out of its block has led to. -/
theorem checkAssignment_reads {a : Arena} {m : Model} {target : DeclId} {scope n : NodeId} {throws : NodeId → Prop}
    {before after : List Event} {e : Ending} (htree : a.IsTreeUnder scope) (honce : a.DeclaredOnceUnder scope target)
    (hcheck : checkAssignment a m target scope = [])
    (hrun : runsThrowing target throws (a.tree scope) (before ++ .read n :: after) e) :
    (({} : Store).afterAll before).valued = true ∨
      ∃ recent, recent <:+ before ∧ AfterJump target throws (a.tree scope) n recent := by
  have hcount : count target (some (a.tree scope)) ≤ 1 := Arena.length_declarers_le_one htree honce
  have hinitial : Knows 1 .initial {} := ⟨rfl, Nat.le_refl 1, fun _ => ⟨rfl, rfl⟩, nofun⟩
  have hbacks := backs_tree (X := AfterJump target throws (a.tree scope)) (fun _ _ h => h) hcount
  exact hbacks.reads hcount hinitial (findings_eq_nil hcheck) hrun before n after rfl

section

/-- `value x; try { if (1) { return; } x = 1; } finally { x }`. -/
def earlyReturn : Arena := arenaOf [.valueDecl ⟨2⟩ none none, .literal, .returnStmt none,
  .ifElse (some ⟨1⟩) (some ⟨2⟩) none, .literal, .reference ⟨2⟩ .unqualified, .specifier (some ⟨5⟩) (some ⟨4⟩),
  .block [some ⟨3⟩, some ⟨6⟩], .reference ⟨2⟩ .unqualified, .tryCatch (some ⟨7⟩) [] (some ⟨8⟩),
  .block [some ⟨0⟩, some ⟨9⟩]]

/-- `if (1) { return; }`. -/
def returning : Tree := .node ⟨3⟩ (.ifElse (some (.node ⟨1⟩ .literal)) (some (.node ⟨2⟩ (.returnStmt none))) none)

theorem tree_earlyReturn : earlyReturn.tree ⟨10⟩ = .node ⟨10⟩ (.block [
    some (.node ⟨0⟩ (.valueDecl ⟨2⟩ none none)),
    some (.node ⟨9⟩ (.tryCatch (some (.node ⟨7⟩ (.block [some returning, some (assignment ⟨2⟩ ⟨6⟩ ⟨5⟩ ⟨4⟩)]))) []
      (some (.node ⟨8⟩ (.reference ⟨2⟩ .unqualified)))))]) := rfl

theorem checked_earlyReturn : earlyReturn.IsTreeUnder ⟨10⟩ ∧ earlyReturn.DeclaredOnceUnder ⟨10⟩ ⟨2⟩ ∧
    checkAssignment earlyReturn oneLocal ⟨2⟩ ⟨10⟩ = [] := by
  have honly : ∀ n ∈ earlyReturn.postOrder ⟨10⟩, earlyReturn.declaredAt? n = some ⟨2⟩ → n = ⟨0⟩ := by decide
  refine ⟨?_, ⟨⟨0⟩, by decide, fun n hn => honly n hn.1 hn.2⟩, rfl⟩
  unfold Arena.IsTreeUnder
  decide

/-- An execution of the scope, from one of the block. -/
theorem runs_earlyReturn {es : List Event} {e : Ending}
    (h : partRuns ⟨2⟩ (some (.node ⟨7⟩ (.block [some returning, some (assignment ⟨2⟩ ⟨6⟩ ⟨5⟩ ⟨4⟩)]))) es e) :
    runs ⟨2⟩ (earlyReturn.tree ⟨10⟩) (.declare false :: (es ++ [.finalized, .read ⟨8⟩])) e := by
  rw [tree_earlyReturn, ← partRuns_some]
  have hread : partRuns ⟨2⟩ (some (.node ⟨8⟩ (.reference ⟨2⟩ .unqualified))) [.read ⟨8⟩] .normal := part_reference
  exact part_plain rfl (Seq.of part_forward (all_singleton (part_finally h hread)) rfl)

/-- Past the return the finally clause reads what the block has assigned. -/
theorem checkAssignment_reads_earlyReturn :
    earlyReturn.IsTreeUnder ⟨10⟩ ∧ earlyReturn.DeclaredOnceUnder ⟨10⟩ ⟨2⟩ ∧
      checkAssignment earlyReturn oneLocal ⟨2⟩ ⟨10⟩ = [] ∧
        runsThrowing ⟨2⟩ (fun _ => False) (earlyReturn.tree ⟨10⟩)
          ([.declare false, .specify ⟨6⟩, .assign, .finalized] ++ .read ⟨8⟩ :: []) .normal ∧
            ((({} : Store).afterAll [.declare false, .specify ⟨6⟩, .assign, .finalized]).valued = true ∨
              ∃ recent, recent <:+ [.declare false, .specify ⟨6⟩, .assign, .finalized] ∧
                AfterJump ⟨2⟩ (fun _ => False) (earlyReturn.tree ⟨10⟩) ⟨8⟩ recent) := by
  obtain ⟨htree, honce, hcheck⟩ := checked_earlyReturn
  have hskip : partRuns ⟨2⟩ (some returning) [] .normal := part_else part_literal ⟨rfl, rfl⟩ rfl
  have hrun : runs ⟨2⟩ (earlyReturn.tree ⟨10⟩)
      ([.declare false, .specify ⟨6⟩, .assign, .finalized] ++ .read ⟨8⟩ :: []) .normal :=
    runs_earlyReturn (part_plain rfl (Seq.of hskip (all_singleton part_assignment) rfl))
  rw [← runsThrowing_never] at hrun
  exact ⟨htree, honce, hcheck, hrun, checkAssignment_reads htree honce hcheck hrun⟩

/-- After the return it reads the target without any value. -/
theorem not_valued_earlyReturn :
    earlyReturn.IsTreeUnder ⟨10⟩ ∧ earlyReturn.DeclaredOnceUnder ⟨10⟩ ⟨2⟩ ∧
      checkAssignment earlyReturn oneLocal ⟨2⟩ ⟨10⟩ = [] ∧
        ∃ before n after e, runsThrowing ⟨2⟩ (fun _ => False) (earlyReturn.tree ⟨10⟩)
          (before ++ .read n :: after) e ∧ .finalized ∈ before ∧ .assign ∉ before ∧ .declare true ∉ before := by
  obtain ⟨htree, honce, hcheck⟩ := checked_earlyReturn
  have hreturn : partRuns ⟨2⟩ (some returning) [] .left := part_then part_literal part_return rfl
  have hrun := runs_earlyReturn (part_plain rfl (.stop hreturn nofun))
  rw [← runsThrowing_never] at hrun
  exact ⟨htree, honce, hcheck, [.declare false, .finalized], ⟨8⟩, [], .left, hrun, by decide, by decide, by decide⟩

end

end SemCheck.Execution
