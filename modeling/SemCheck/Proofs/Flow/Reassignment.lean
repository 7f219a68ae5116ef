import SemCheck.Proofs.Flow.Construct
import SemCheck.Proofs.Flow.Tracks

/-!
# One assignment after a declaration

In a scope in which the check of a declaration finds nothing wrong no execution assigns it twice after it has been
declared, also if nodes throw and catch and finally clauses are entered (`checkAssignment_single`), as long as the scope
has no blind spot (`BlindSpot`). The check does have blind spots: where no branch of a fork goes on, it forgets what the
branches assign, and a finally clause assigns once more (`not_single_forgottenFork`).

The proof is an induction over the tree under the scope, with one lemma of `Tracks` for each way of putting a node
together.
-/

namespace SemCheck

namespace NodeKind

/-- The parts of a try statement after which other parts of it may run. -/
def handled {γ : Type} : NodeKind γ → List (Option γ)
  | tryCatch body catches finalizer =>
    if finalizer.isSome then body :: catches else if catches.isEmpty then [] else [body]
  | _ => []

theorem mem_slots_of_mem_handled {γ : Type} {k : NodeKind γ} {o : Option γ} (h : o ∈ k.handled) : o ∈ k.slots := by
  cases k with
  | tryCatch body catches finalizer =>
    simp only [handled, slots] at h ⊢
    grind
  | _ => exact absurd h List.not_mem_nil

end NodeKind

namespace Execution

open Runs

/-! ## Blind spots -/

section

variable (target : DeclId) (throws : NodeId → Prop)

/-- A fork with a specifier of the target in it. -/
def AssigningFork (t : Tree) : Prop := (∃ k, t.kind? = some k ∧ k.isFork) ∧ Assigns target t

/-- A fork with a specifier of the target in it after which nothing runs. -/
def DeadFork (t : Tree) : Prop := AssigningFork target t ∧ ∀ es, ¬ runsThrowing target throws t es .normal

/-- A try statement that declares the target in its block, assigns it in its finally clause, and enters that by a jump
ahead of the declaration. -/
def Leak : Tree → Prop
  | .node _ (.tryCatch body [] (some final)) =>
    count target body ≠ 0 ∧
      (∃ es e, within (runsThrowing target throws) body es e ∧ e ≠ .normal ∧ ¬ Declares es) ∧ Assigns target final
  | _ => False

/-- A node at which the check does not see an assignment that has been made. -/
inductive BlindSpot : Tree → Prop
  /-- The value of a specifier is gone through after the specifier has been allowed. -/
  | value {n : NodeId} {left : Option Tree} {value : Tree} (hleft : specifies target left = true)
      (h : Assigns target value) : BlindSpot (.node n (.specifier left (some value)))
  /-- A fork with no way on forgets what its branches assign, and a clause runs after it. -/
  | fork {n : NodeId} {k : NodeKind Tree} {part u : Tree} (hpart : some part ∈ k.handled) (hu : u ∈ part.subtrees)
      (h : DeadFork target throws u) : BlindSpot (.node n k)
  /-- In a finally clause that is entered by jumps only, every fork forgets what its branches assign. -/
  | jump {n : NodeId} {body : Option Tree} {final u : Tree}
      (hbody : ∀ es, ¬ within (runsThrowing target throws) body es .normal) (hu : u ∈ final.subtrees)
      (h : AssigningFork target u) : BlindSpot (.node n (.tryCatch body [] (some final)))
  /-- In a loop a finally clause takes for declared in this round what has been declared in the one before. -/
  | leak {n : NodeId} {k : NodeKind Tree} {u : Tree} (hk : k.isLoop = true) (hu : u ∈ (Tree.node n k).subtrees)
      (h : Leak target throws u) : BlindSpot (.node n k)

end

/-- No tree in `t`, itself included, is as `P` says. -/
def Without (P : Tree → Prop) (t : Tree) : Prop := ∀ u ∈ t.subtrees, ¬ P u

variable {target : DeclId} {throws : NodeId → Prop} {n : NodeId} {k : NodeKind Tree}

theorem Without.of_mem_children {P : Tree → Prop} {t : Tree} (h : Without P (.node n k)) (ht : t ∈ k.children) :
    Without P t := fun u hu => h u (Tree.mem_subtrees_of_mem_children ht hu)

theorem Without.self {P : Tree → Prop} {t : Tree} (h : Without P t) : ¬ P t := h t t.mem_subtrees_self

/-! ## The induction -/

/-- The pass of a part keeps track of what its executions assign. -/
def TracksPart (target : DeclId) (throws : NodeId → Prop) (D F L : Prop) (o : Option Tree) : Prop :=
  Tracks D F L (count target o) (partPass target o) (within (runsThrowing target throws) o)

/-- The pass of a tree keeps track, as far as the tree is without dead forks, assigning forks and leaks. -/
abbrev TracksTree (target : DeclId) (throws : NodeId → Prop) (t : Tree) : Prop :=
  TracksPart target throws (Without (DeadFork target throws) t) (Without (AssigningFork target) t)
    (Without (Leak target throws) t) (some t)

/-- One step of the induction: the pass of a node keeps track if those of the trees under it do. -/
theorem tracks_node (hblind : ∀ u ∈ (Tree.node n k).subtrees, ¬ BlindSpot target throws u)
    (honce : count target (some (.node n k)) ≤ 1) (hparts : ∀ t ∈ k.children, TracksTree target throws t) :
    TracksTree target throws (.node n k) := by
  have hself : ¬ BlindSpot target throws (.node n k) := hblind _ (Tree.mem_subtrees_self _)
  have hpart (o : Option Tree) (ho : IsPart k o) :
      TracksPart target throws (Without (DeadFork target throws) (.node n k))
        (Without (AssigningFork target) (.node n k)) (Without (Leak target throws) (.node n k)) o := by
    cases o with
    | none => exact .skip
    | some t =>
      have ht := ho.mem_children
      exact (hparts t ht).imp (·.of_mem_children ht) (·.of_mem_children ht) (·.of_mem_children ht)
  -- Where another part may run after a part, that one has no dead fork.
  have hhandled (o : Option Tree) (ho : o ∈ k.handled) :
      TracksPart target throws True (Without (AssigningFork target) (.node n k))
        (Without (Leak target throws) (.node n k)) o := by
    cases o with
    | none => exact .skip
    | some t =>
      have ht := NodeKind.mem_children_iff.2 (NodeKind.mem_slots_of_mem_handled ho)
      exact (hparts t ht).imp (fun _ u hu hdead => hself (.fork ho hu hdead)) (·.of_mem_children ht)
        (·.of_mem_children ht)
  have hnormal (es : List Event) (h : runsThrowing target throws (.node n k) es .normal) :
      step target n (k.map fun t => (t, runsThrowing target throws t)) es .normal := by
    rw [runsThrowing_node] at h
    exact of_throwing_normal h
  obtain ⟨m, hm, hconstruct⟩ := construct target (runsThrowing target throws) n k
  unfold TracksTree TracksPart
  show Tracks _ _ _ _ _ (runsThrowing target throws (.node n k))
  rw [runsThrowing_node]
  refine Tracks.throwing (Tracks.mono ?_ hm) _
  generalize partPass target (some (.node n k)) = p at hconstruct
  generalize step target n (k.map fun t => (t, runsThrowing target throws t)) = r at hconstruct hnormal
  cases hconstruct with
  | part h => exact hpart _ h
  | sequence h => exact Tracks.all fun o ho => hpart o (h o ho)
  | nested => exact (Tracks.all fun o ho => hpart o (Or.inr ho)).nested
  | declare hk =>
    have hall := Tracks.all fun o ho => hpart o (Or.inr ho)
    have hzero : (k.slots.map (count target)).sum = 0 := by omega
    rw [hzero, ← slots_pass] at hall
    rw [hzero]
    exact Tracks.declare hall.toFramed _ _
  | read => exact Tracks.read n
  | @specify left value hk hleft =>
    subst hk
    obtain ⟨m, hread⟩ := pass_of_specifies hleft
    refine Tracks.specify ((specifies_eq left).trans hleft) hread (hpart value (Or.inr (by simp [NodeKind.slots]))) ?_
    refine Classical.byContradiction fun hassign => ?_
    obtain ⟨t, rfl, hassigns⟩ := exists_specifier hassign
    exact hself (.value hleft hassigns)
  | stop hending => exact Tracks.exit hending
  | @jump value h =>
    have hleft : Ending.left ≠ .normal := by decide
    exact (hpart value h).andThen (.exit hleft)
  | @fork first os hk h =>
    have hos (o : Option Tree) (ho : o ∈ os) := h o (List.mem_cons_of_mem _ ho)
    have hassigns (hassign : ¬ (oneOf (os.map (within (runsThrowing target throws)))).Only (· ≠ .assign)) :
        AssigningFork target (.node n k) := ⟨⟨k, rfl, hk⟩, assigns_of_fork hos hassign⟩
    refine (hpart first (h _ List.mem_cons_self)).andThen (.fork (fun o ho => hpart o (hos o ho)) ?_ ?_)
    · intro hdeadless hstop
      refine Classical.byContradiction fun hassign => hdeadless.self ⟨hassigns hassign, fun es hr => ?_⟩
      obtain ⟨es₁, es₂, -, -, hr⟩ := seq_normal (hnormal es hr)
      exact hstop es₂ hr
    · intro hforkless
      exact Classical.byContradiction fun hassign => hforkless.self (hassigns hassign)
  | @loop os fail hk h =>
    have hclosed : Without (Leak target throws) (.node n k) := fun u hu hleak => hself (.leak hk hu hleak)
    have hos (o : Option Tree) (ho : o ∈ os) :=
      (hpart o (h o (List.mem_cons_of_mem _ ho))).imp id id fun _ : True => hclosed
    exact Tracks.loop hos (hpart fail (h _ List.mem_cons_self))
  | @guarded body catches hk hne =>
    subst hk
    refine Tracks.guarded (hhandled body (by simp [NodeKind.handled, hne])) fun o ho => hpart o (Or.inr ?_)
    simp [NodeKind.slots, ho]
  | @attempt body final hk =>
    subst hk
    have hmem : some final ∈ (NodeKind.tryCatch body [] (some final)).slots := by simp [NodeKind.slots]
    have ht := NodeKind.mem_children_iff.2 hmem
    have hbody := hhandled body (by simp [NodeKind.handled])
    refine .attemptFinally hbody (hpart (some final) (Or.inr hmem)) (Or.inr ⟨fun hstop => ?_, fun hclosed hn => ?_⟩)
    · exact (hparts final ht).imp (·.of_mem_children ht) (fun _ u hu hfork => hself (.jump hstop hu hfork))
        (·.of_mem_children ht)
    · by_cases hassigns : Assigns target final
      · refine Or.inl fun es e hr hne => Classical.byContradiction fun hahead => hclosed.self ?_
        exact ⟨hn, ⟨es, e, hr, hne, hahead⟩, hassigns⟩
      · exact Or.inr (only_ne_assign hassigns)
  | @guardedAttempt body catches final hk hne =>
    subst hk
    have hcatches (o : Option Tree) (ho : o ∈ catches) := hhandled o (by simp [NodeKind.handled, ho])
    have htried := Tracks.guarded (hhandled body (by simp [NodeKind.handled])) hcatches
    refine Tracks.attemptFinally htried (hpart (some final) (Or.inr (by simp [NodeKind.slots]))) (Or.inl fun s => ?_)
    obtain ⟨hexited, hdeclared, -⟩ := clauses_keep (body :: catches) (partPass target) s
    exact ⟨hexited, hdeclared⟩

theorem tracks_tree {t : Tree} (hblind : ∀ u ∈ t.subtrees, ¬ BlindSpot target throws u)
    (honce : count target (some t) ≤ 1) : TracksTree target throws t := by
  induction t with
  | missing n =>
    unfold TracksTree TracksPart
    show Tracks _ _ _ _ _ (runsThrowing target throws (.missing n))
    rw [count_missing, runsThrowing_missing]
    exact .skip
  | node n k ih =>
    refine tracks_node hblind honce fun t ht => ih t ht (fun u hu => ?_) ?_
    · exact hblind u (Tree.mem_subtrees_of_mem_children ht hu)
    · exact Nat.le_trans (count_le_of_mem_children ht) honce

/-- **Between two assignments the target is declared anew**, if the scope is a tree that declares the target once, the
check finds nothing wrong, and the scope has no blind spot. -/
theorem checkAssignment_single {a : Arena} {m : Model} {target : DeclId} {scope : NodeId} {throws : NodeId → Prop}
    {before between after : List Event} {e : Ending} (htree : a.IsTreeUnder scope)
    (honce : a.DeclaredOnceUnder scope target) (hblind : ∀ u ∈ (a.tree scope).subtrees, ¬ BlindSpot target throws u)
    (hcheck : checkAssignment a m target scope = [])
    (hrun : runsThrowing target throws (a.tree scope) (before ++ .assign :: (between ++ .assign :: after)) e) :
    ∃ valued, .declare valued ∈ between := by
  have hcount : count target (some (a.tree scope)) ≤ 1 := Arena.length_declarers_le_one htree honce
  have hready : Ready (count target (some (a.tree scope))) .initial := ⟨hcount, nofun⟩
  have hsingle := (tracks_tree hblind hcount).single (Or.inl rfl) hready (findings_eq_nil hcheck) hrun
  exact Classical.byContradiction fun hdeclares => hsingle (twice_of_split hdeclares)

/-! ## Scopes without blind spots, and one with -/

/-- Without assigning forks, nested specifiers and assigning finally clauses there is no blind spot. -/
theorem not_blindSpot_of_mem {t : Tree} (hforkless : Without (AssigningFork target) t)
    (hvalue : ¬ NestedSpecifiers target t)
    (hfinal : ∀ n body catches final, .node n (.tryCatch body catches (some final)) ∈ t.subtrees →
      ¬ Assigns target final) :
    ∀ u ∈ t.subtrees, ¬ BlindSpot target throws u := by
  intro u hu hblind
  have hbelow {n k part v} (hu : Tree.node n k ∈ t.subtrees) (hpart : some part ∈ k.slots) (hv : v ∈ part.subtrees) :
      v ∈ t.subtrees :=
    Tree.mem_subtrees_trans hu (Tree.mem_subtrees_of_mem_children (NodeKind.mem_children_iff.2 hpart) hv)
  cases hblind with
  | value hleft h => exact hvalue ⟨_, _, _, hu, hleft, h⟩
  | fork hpart hv h => exact hforkless _ (hbelow hu (NodeKind.mem_slots_of_mem_handled hpart) hv) h.1
  | jump _ hv h => exact hforkless _ (hbelow hu (by simp [NodeKind.slots]) hv) h
  | leak _ hv h =>
    unfold Leak at h
    split at h
    · exact hfinal _ _ _ _ (Tree.mem_subtrees_trans hu hv) h.2.2
    · exact h

section

/-- `while (1) { value x; try { x = 1; continue; } finally { } }`. -/
def anewEachRound : Arena := arenaOf [.literal, .valueDecl ⟨2⟩ none none, .literal, .reference ⟨2⟩ .unqualified,
  .specifier (some ⟨3⟩) (some ⟨2⟩), .continueStmt, .block [some ⟨4⟩, some ⟨5⟩], .block [],
  .tryCatch (some ⟨6⟩) [] (some ⟨7⟩), .block [some ⟨1⟩, some ⟨8⟩], .whileLoop (some ⟨0⟩) (some ⟨9⟩)]

/-- `value x; try { x = 1; continue; } finally { }`. -/
def anewRound : Tree := .node ⟨9⟩ (.block [
  some (.node ⟨1⟩ (.valueDecl ⟨2⟩ none none)),
  some (.node ⟨8⟩ (.tryCatch
    (some (.node ⟨6⟩ (.block [some (assignment ⟨2⟩ ⟨4⟩ ⟨3⟩ ⟨2⟩), some (.node ⟨5⟩ .continueStmt)]))) []
    (some (.node ⟨7⟩ (.block [])))))])

theorem tree_anewEachRound :
    anewEachRound.tree ⟨10⟩ = .node ⟨10⟩ (.whileLoop (some (.node ⟨0⟩ .literal)) (some anewRound)) := rfl

theorem runs_anewEachRound : runs ⟨2⟩ (anewEachRound.tree ⟨10⟩) ([.declare false, .specify ⟨4⟩] ++ .assign ::
    ([.finalized, .declare false, .specify ⟨4⟩] ++ .assign :: [.finalized])) .normal := by
  have hassign : partRuns ⟨2⟩ (some (.node ⟨6⟩ (.block [some (assignment ⟨2⟩ ⟨4⟩ ⟨3⟩ ⟨2⟩),
      some (.node ⟨5⟩ .continueStmt)]))) [.specify ⟨4⟩, .assign] .continued :=
    part_plain rfl (Seq.of part_assignment (.stop part_continue nofun) rfl)
  have hfinal : partRuns ⟨2⟩ (some (.node ⟨7⟩ (.block []))) [] .normal := part_plain rfl ⟨rfl, rfl⟩
  have hround : partRuns ⟨2⟩ (some anewRound) [.declare false, .specify ⟨4⟩, .assign, .finalized] .continued :=
    part_plain rfl (Seq.of part_forward (.stop (part_finally hassign hfinal) nofun) rfl)
  have hparts : Runs.all [partRuns ⟨2⟩ (some (.node ⟨0⟩ .literal)), partRuns ⟨2⟩ (some anewRound)]
      [.declare false, .specify ⟨4⟩, .assign, .finalized] .continued := Seq.of part_literal (.stop hround nofun) rfl
  have hrounds := Rounds.again hparts (Or.inr rfl) (.again hparts (Or.inr rfl) (.last 0 ⟨rfl, rfl⟩))
  rw [tree_anewEachRound, ← partRuns_some]
  exact part_rounds hrounds

theorem not_blindSpot_anewEachRound :
    ∀ u ∈ (anewEachRound.tree ⟨10⟩).subtrees, ¬ BlindSpot ⟨2⟩ (fun _ => False) u := by
  have hforks : (anewEachRound.tree ⟨10⟩).subtrees.all (fun u => !u.kind?.any NodeKind.isFork) = true := rfl
  refine not_blindSpot_of_mem ?_ ?_ ?_
  · rintro u hu ⟨⟨k, hk, hfork⟩, -⟩
    have := List.all_eq_true.1 hforks u hu
    simp [hk, hfork] at this
  · rintro ⟨id, left, value, hmem, -, u, hu, hspec⟩
    have hvalue : value = .node ⟨2⟩ .literal := by
      simp [tree_anewEachRound, anewRound, assignment, Tree.subtrees_node, NodeKind.children, NodeKind.slots,
        Qualifier.slots] at hmem
      exact hmem.2.2
    subst hvalue
    obtain rfl := List.mem_singleton.1 hu
    exact hspec
  · rintro id body catches final hmem ⟨u, hu, hspec⟩
    have hfinal : final = .node ⟨7⟩ (.block []) := by
      simp [tree_anewEachRound, anewRound, assignment, Tree.subtrees_node, NodeKind.children, NodeKind.slots,
        Qualifier.slots] at hmem
      exact hmem.2.2.2
    subst hfinal
    obtain rfl := List.mem_singleton.1 hu
    exact hspec

/-- A target that is declared in every round of a loop is assigned in every round. -/
theorem checkAssignment_single_anewEachRound :
    anewEachRound.IsTreeUnder ⟨10⟩ ∧ anewEachRound.DeclaredOnceUnder ⟨10⟩ ⟨2⟩ ∧
      checkAssignment anewEachRound oneLocal ⟨2⟩ ⟨10⟩ = [] ∧
        runsThrowing ⟨2⟩ (fun _ => False) (anewEachRound.tree ⟨10⟩) ([.declare false, .specify ⟨4⟩] ++ .assign ::
          ([.finalized, .declare false, .specify ⟨4⟩] ++ .assign :: [.finalized])) .normal ∧
            ∃ valued, Event.declare valued ∈ [.finalized, .declare false, .specify ⟨4⟩] := by
  have honly : ∀ n ∈ anewEachRound.postOrder ⟨10⟩, anewEachRound.declaredAt? n = some ⟨2⟩ → n = ⟨1⟩ := by decide
  have htree : anewEachRound.IsTreeUnder ⟨10⟩ := by
    unfold Arena.IsTreeUnder
    decide
  have honce : anewEachRound.DeclaredOnceUnder ⟨10⟩ ⟨2⟩ := ⟨⟨1⟩, by decide, fun n hn => honly n hn.1 hn.2⟩
  have hcheck : checkAssignment anewEachRound oneLocal ⟨2⟩ ⟨10⟩ = [] := rfl
  have hrun := runs_anewEachRound
  rw [← runsThrowing_never] at hrun
  have hdeclared := checkAssignment_single htree honce not_blindSpot_anewEachRound hcheck hrun
  exact ⟨htree, honce, hcheck, hrun, hdeclared⟩

/-- `value x; try { if (1) { x = 1; return; } else { return; } } finally { x = 2; }`. -/
def forgottenFork : Arena := arenaOf [.valueDecl ⟨2⟩ none none, .literal, .literal, .reference ⟨2⟩ .unqualified,
  .specifier (some ⟨3⟩) (some ⟨2⟩), .returnStmt none, .block [some ⟨4⟩, some ⟨5⟩], .returnStmt none,
  .ifElse (some ⟨1⟩) (some ⟨6⟩) (some ⟨7⟩), .literal, .reference ⟨2⟩ .unqualified, .specifier (some ⟨10⟩) (some ⟨9⟩),
  .tryCatch (some ⟨8⟩) [] (some ⟨11⟩), .block [some ⟨0⟩, some ⟨12⟩]]

theorem runs_forgottenFork : runs ⟨2⟩ (forgottenFork.tree ⟨13⟩)
    [.declare false, .specify ⟨4⟩, .assign, .finalized, .specify ⟨11⟩, .assign] .left := by
  have htree : forgottenFork.tree ⟨13⟩ = .node ⟨13⟩ (.block [
      some (.node ⟨0⟩ (.valueDecl ⟨2⟩ none none)),
      some (.node ⟨12⟩ (.tryCatch
        (some (.node ⟨8⟩ (.ifElse (some (.node ⟨1⟩ .literal))
          (some (.node ⟨6⟩ (.block [some (assignment ⟨2⟩ ⟨4⟩ ⟨3⟩ ⟨2⟩), some (.node ⟨5⟩ (.returnStmt none))])))
          (some (.node ⟨7⟩ (.returnStmt none)))))) []
        (some (assignment ⟨2⟩ ⟨11⟩ ⟨10⟩ ⟨9⟩))))]) := rfl
  have hthen : partRuns ⟨2⟩ (some (.node ⟨6⟩ (.block [some (assignment ⟨2⟩ ⟨4⟩ ⟨3⟩ ⟨2⟩),
      some (.node ⟨5⟩ (.returnStmt none))]))) [.specify ⟨4⟩, .assign] .left :=
    part_plain rfl (Seq.of part_assignment (.stop part_return nofun) rfl)
  have hblock : partRuns ⟨2⟩ (some (.node ⟨8⟩ (.ifElse (some (.node ⟨1⟩ .literal)) _
      (some (.node ⟨7⟩ (.returnStmt none)))))) [.specify ⟨4⟩, .assign] .left :=
    part_then part_literal hthen rfl
  rw [htree, ← partRuns_some]
  exact part_plain rfl (Seq.of part_forward (.stop (part_finally hblock part_assignment) nofun) rfl)

/-- The finally clause does not see what the branch has assigned that led to it. -/
theorem not_single_forgottenFork :
    forgottenFork.IsTreeUnder ⟨13⟩ ∧ forgottenFork.DeclaredOnceUnder ⟨13⟩ ⟨2⟩ ∧
      checkAssignment forgottenFork oneLocal ⟨2⟩ ⟨13⟩ = [] ∧
        ∃ before between after e, runsThrowing ⟨2⟩ (fun _ => False) (forgottenFork.tree ⟨13⟩)
          (before ++ .assign :: (between ++ .assign :: after)) e ∧ .finalized ∈ between ∧
            ∀ valued, .declare valued ∉ between := by
  have honly : ∀ n ∈ forgottenFork.postOrder ⟨13⟩, forgottenFork.declaredAt? n = some ⟨2⟩ → n = ⟨0⟩ := by decide
  refine ⟨?_, ⟨⟨0⟩, by decide, fun n hn => honly n hn.1 hn.2⟩, rfl, [.declare false, .specify ⟨4⟩],
    [.finalized, .specify ⟨11⟩], [], .left, ?_, by decide, by decide⟩
  · unfold Arena.IsTreeUnder
    decide
  · rw [runsThrowing_never]
    exact runs_forgottenFork

end

end Execution

end SemCheck
