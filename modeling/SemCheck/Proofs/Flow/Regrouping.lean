import SemCheck.Proofs.Flow.Lattice

/-!
# Branches that meet in groups

Branches may meet all at once, as after a `switch`, or some of them first, as after one `if` in another. Where groups
of branches meet, what is known is what is known of the branches that count (`Meeting.state_fork_eq`): a group of which
every branch has left counts for nothing, although what its branches have assigned may still matter to a `catch` or
`finally` clause.

Main statement: groups leave the state that their branches would leave at once exactly if nothing is known of the
branches of such groups that is not known of the others (`regrouped_iff`). There are groups, and statements nested in
one another, where something is lost (`not_regrouped_leavingGroup`); in a check that can only be a possible assignment
(`Branches.keeps_iff`).
-/

namespace SemCheck

/-! ## Where branches meet -/

section

variable {α : Type} {b : Bool} {l l' : List α} {p q : α → Bool}

theorem or_all_congr (h : ∀ a ∈ l, (b || p a) = (b || q a)) : (b || l.all p) = (b || l.all q) := by
  induction l with
  | nil => rfl
  | cons a l ih =>
    obtain ⟨ha, hl⟩ := List.forall_mem_cons.1 h
    rw [List.all_cons, List.all_cons, Bool.or_and_distrib_left, ha, ih hl, ← Bool.or_and_distrib_left]

theorem or_any_congr (h : ∀ a ∈ l, (b || p a) = (b || q a)) : (b || l.any p) = (b || l.any q) := by
  induction l with
  | nil => rfl
  | cons a l ih =>
    obtain ⟨ha, hl⟩ := List.forall_mem_cons.1 h
    rw [List.any_cons, List.any_cons, Bool.or_left_comm, ih hl, Bool.or_left_comm, ← Bool.or_assoc, ha, Bool.or_assoc]

/-- Elements more make a difference only if one of them is the first with the property. -/
theorem or_any_eq_iff (hsub : l ⊆ l') :
    (b || l.any p) = (b || l'.any p) ↔ ∀ a ∈ l', p a = true → b = true ∨ ∃ a' ∈ l, p a' = true := by
  rw [Bool.eq_iff_iff, Bool.or_eq_true_iff, Bool.or_eq_true_iff, List.any_eq_true, List.any_eq_true]
  constructor
  · exact fun heq a ha hp => heq.2 (Or.inr ⟨a, ha, hp⟩)
  · intro h
    constructor
    · exact Or.imp_right fun ⟨a, ha, hp⟩ => ⟨a, hsub ha, hp⟩
    · rintro (hb | ⟨a, ha, hp⟩)
      · exact Or.inl hb
      · exact h a ha hp

theorem or_all_eq_iff (hsub : l ⊆ l') :
    (b || l.all p) = (b || l'.all p) ↔ ∀ a ∈ l', p a = false → b = true ∨ ∃ a' ∈ l, p a' = false := by
  rw [Bool.eq_iff_iff, Bool.or_eq_true_iff, Bool.or_eq_true_iff, List.all_eq_true, List.all_eq_true]
  constructor
  · intro heq a ha hp
    by_contra hnone
    obtain ⟨hb, hall⟩ := not_or.1 hnone
    have hl : ∀ a' ∈ l, p a' = true := fun a' ha' => Bool.eq_true_of_not_eq_false fun hp' => hall ⟨a', ha', hp'⟩
    exact absurd (((heq.1 (Or.inr hl)).resolve_left hb a ha).symm.trans hp) nofun
  · intro h
    constructor
    · rintro (hb | hall)
      · exact Or.inl hb
      · refine or_iff_not_imp_left.2 fun hb a ha => Bool.eq_true_of_not_eq_false fun hp => ?_
        obtain ⟨a', ha', hp'⟩ := (h a ha hp).resolve_left hb
        exact absurd ((hall a' ha').symm.trans hp') nofun
    · exact Or.imp_right fun hall a ha => hall a (hsub ha)

end

namespace FlowState

variable {s : FlowState} {arms arms' : List FlowState}

theorem join_of_all_exited (hne : arms ≠ []) (h : ∀ arm ∈ arms, arm.exited = true) : s.join arms = s.exit := by
  rw [join, if_neg (by simpa using hne), if_pos (List.all_eq_true.2 h)]

/-- Neither the order of branches nor their number matters. -/
theorem join_congr (h : ∀ arm, arm ∈ arms ↔ arm ∈ arms') : s.join arms = s.join arms' := by
  have hempty : arms.isEmpty = arms'.isEmpty := by
    rw [Bool.eq_iff_iff, List.isEmpty_iff, List.isEmpty_iff, List.eq_nil_iff_forall_not_mem,
      List.eq_nil_iff_forall_not_mem]
    exact forall_congr' fun arm => not_congr (h arm)
  have hall (p : FlowState → Bool) : arms.all p = arms'.all p := by
    rw [Bool.eq_iff_iff, List.all_eq_true, List.all_eq_true]
    exact forall_congr' fun arm => imp_congr_left (h arm)
  have hany (p : FlowState → Bool) : arms.any p = arms'.any p := by
    simp only [List.any_eq_not_all_not, hall]
  simp only [join, hempty, hall, hany]

end FlowState

open FlowState

/-- A point where branches meet: the state there, the states at the ends of the branches, and those of them that
count. -/
structure Meeting where
  state : FlowState
  ends : List FlowState
  counted : List FlowState

namespace Meeting

/-- A single branch. -/
def arm (s : FlowState) : Meeting := ⟨s, [s], [s]⟩

/-- Where groups meet that started at `entry`. No branch counts any more if all have left. -/
def fork (entry : FlowState) (groups : List Meeting) : Meeting where
  state := entry.join (groups.map state)
  ends := groups.flatMap ends
  counted := if (groups.flatMap ends).all exited then [] else groups.flatMap counted

/-- Made of single branches, all of which started at `entry`. -/
inductive From (entry : FlowState) : Meeting → Prop
  | arm (s : FlowState) : From entry (.arm s)
  | fork {groups : List Meeting} (hne : groups ≠ []) (h : ∀ m ∈ groups, From entry m) : From entry (.fork entry groups)

/-- All have left; or if something is possibly assigned at an end, or not definitely assigned, then it is so at an end
that counts, or this makes no difference to what is known on entry. -/
def Keeps (entry : FlowState) (ends counted : List FlowState) : Prop :=
  (∀ s ∈ ends, s.exited = true) ∨
    (∀ s ∈ ends, s.possible = true → entry.possible = true ∨ ∃ t ∈ counted, t.possible = true) ∧
      ∀ s ∈ ends, s.definite = false → entry.definite = true ∨ ∃ t ∈ counted, t.definite = false

variable {e s : FlowState} {m : Meeting} {groups : List Meeting}

theorem ends_fork : (fork e groups).ends = groups.flatMap ends := rfl

theorem counted_fork : (fork e groups).counted =
    if (groups.flatMap ends).all FlowState.exited then [] else groups.flatMap counted := rfl

theorem ends_ne_nil (h : m.From e) : m.ends ≠ [] := by
  induction h with
  | arm s => exact List.cons_ne_nil s []
  | @fork groups hne h ih =>
    obtain ⟨m, hm⟩ := List.exists_mem_of_ne_nil groups hne
    obtain ⟨s, hs⟩ := List.exists_mem_of_ne_nil m.ends (ih m hm)
    exact List.ne_nil_of_mem (List.mem_flatMap.2 ⟨m, hm, hs⟩)

theorem counted_subset (h : m.From e) : m.counted ⊆ m.ends := by
  induction h with
  | arm s => exact List.Subset.refl _
  | @fork groups hne h ih =>
    intro s hs
    rw [counted_fork] at hs
    split at hs
    · exact absurd hs List.not_mem_nil
    · obtain ⟨m, hm, hs⟩ := List.mem_flatMap.1 hs
      exact List.mem_flatMap.2 ⟨m, hm, ih m hm hs⟩

/-- A branch that is live counts. -/
theorem mem_counted (h : m.From e) (hs : s ∈ m.ends) (hlive : s.exited = false) : s ∈ m.counted := by
  induction h with
  | arm s => exact hs
  | @fork groups hne h ih =>
    have hsome : (groups.flatMap ends).all FlowState.exited = false := List.all_eq_false.2 ⟨s, hs, by simp [hlive]⟩
    obtain ⟨m, hm, hs⟩ := List.mem_flatMap.1 hs
    rw [counted_fork, hsome, if_neg Bool.false_ne_true]
    exact List.mem_flatMap.2 ⟨m, hm, ih m hm hs⟩

/-- Among coherent states it is only possible assignments that can be lost. -/
theorem keeps_iff_of_coherent (h : m.From e) (hcoherent : ∀ s ∈ m.ends, s.Coherent) :
    Keeps e m.ends m.counted ↔ (∀ s ∈ m.ends, s.exited = true) ∨
      ∀ s ∈ m.ends, s.possible = true → e.possible = true ∨ ∃ t ∈ m.counted, t.possible = true := by
  refine or_congr Iff.rfl (and_iff_left fun s hs hdefinite => Or.inr ⟨s, mem_counted h hs ?_, hdefinite⟩)
  exact Bool.eq_false_iff.2 fun hexited => absurd (((hcoherent s hs).definite hexited).symm.trans hdefinite) nofun

/-- What is known on entry, and of every end that counts. -/
def summary (e : FlowState) (m : Meeting) : FlowState := { e with
  definite := e.definite || m.counted.all FlowState.definite
  possible := e.possible || m.counted.any FlowState.possible
  exited := m.ends.all FlowState.exited }

/-- The state says what is known of the ends that count, apart from what is known on entry. -/
structure Agrees (e : FlowState) (m : Meeting) : Prop where
  exited : m.state.exited = m.ends.all FlowState.exited
  definite : (e.definite || m.state.definite) = (e.definite || m.counted.all FlowState.definite)
  possible : (e.possible || m.state.possible) = (e.possible || m.counted.any FlowState.possible)

/-- The state where groups meet. -/
theorem state_fork_of_agrees (hne : groups ≠ []) (hagrees : ∀ m ∈ groups, Agrees e m) :
    (fork e groups).state = (fork e groups).summary e := by
  by_cases hall : (groups.flatMap ends).all FlowState.exited = true
  · have hleft : ∀ s ∈ groups.map state, s.exited = true := List.forall_mem_map.2 fun m hm => by
      rw [(hagrees m hm).exited, List.all_eq_true]
      exact fun s hs => List.all_eq_true.1 hall s (List.mem_flatMap.2 ⟨m, hm, hs⟩)
    show e.join (groups.map state) = _
    rw [join_of_all_exited (mt List.map_eq_nil_iff.1 hne) hleft, summary, counted_fork, if_pos hall, ends_fork, hall]
    simp [FlowState.exit]
  · obtain ⟨s, hs, hlive⟩ := List.all_eq_false.1 (Bool.eq_false_iff.2 hall)
    obtain ⟨m, hm, hs⟩ := List.mem_flatMap.1 hs
    have hstate : m.state.exited = false := by
      rw [(hagrees m hm).exited, List.all_eq_false]
      exact ⟨s, hs, hlive⟩
    have hdefinite : (e.definite || (groups.map state).all FlowState.definite) =
        (e.definite || (groups.flatMap counted).all FlowState.definite) := by
      rw [List.all_map, List.all_flatMap]
      exact or_all_congr fun m hm => (hagrees m hm).definite
    have hpossible : (e.possible || (groups.map state).any FlowState.possible) =
        (e.possible || (groups.flatMap counted).any FlowState.possible) := by
      rw [List.any_map, List.any_flatMap]
      exact or_any_congr fun m hm => (hagrees m hm).possible
    show e.join (groups.map state) = _
    rw [e.join_of_live (List.mem_map_of_mem hm) hstate, hdefinite, hpossible, summary, counted_fork, if_neg hall,
      ends_fork, Bool.eq_false_iff.2 hall]

theorem agrees (h : m.From e) : Agrees e m := by
  induction h with
  | arm s => exact ⟨by simp [arm], by simp [arm], by simp [arm]⟩
  | @fork groups hne h ih =>
    have hstate := state_fork_of_agrees hne ih
    constructor
    case exited => rw [hstate, summary]
    case definite => rw [hstate, summary, Bool.or_self_left]
    case possible => rw [hstate, summary, Bool.or_self_left]

/-- **Where groups meet**, everything is known that is known of a branch that counts, and nothing else. -/
theorem state_fork_eq (hne : groups ≠ []) (h : ∀ m ∈ groups, m.From e) :
    (fork e groups).state = (fork e groups).summary e :=
  state_fork_of_agrees hne fun m hm => agrees (h m hm)

/-- Groups leave what their branches leave at once exactly if nothing is lost. -/
theorem state_fork_eq_join_iff (hne : groups ≠ []) (h : ∀ m ∈ groups, m.From e) :
    (fork e groups).state = e.join (fork e groups).ends ↔ Keeps e (fork e groups).ends (fork e groups).counted := by
  have hfork := From.fork hne h
  by_cases hall : ∀ s ∈ (fork e groups).ends, s.exited = true
  · have hcounted : (fork e groups).counted = [] := if_pos (List.all_eq_true.2 hall)
    have hkeeps : Keeps e (fork e groups).ends (fork e groups).counted := Or.inl hall
    rw [iff_true_right hkeeps, state_fork_eq hne h, summary, join_of_all_exited (ends_ne_nil hfork) hall, hcounted,
      List.all_eq_true.2 hall]
    simp [FlowState.exit]
  · obtain ⟨s, hs, hlive⟩ : ∃ s ∈ (fork e groups).ends, s.exited = false := by simpa using hall
    have hsome : (fork e groups).ends.all FlowState.exited = false := List.all_eq_false.2 ⟨s, hs, by simp [hlive]⟩
    rw [state_fork_eq hne h, summary, e.join_of_live hs hlive, hsome, Keeps, or_iff_right hall, FlowState.mk.injEq,
      ← or_any_eq_iff (counted_subset hfork), ← or_all_eq_iff (counted_subset hfork)]
    tauto

/-! ### Groups without groups in them -/

/-- A group of single branches. -/
def ofArms (e : FlowState) (arms : List FlowState) : Meeting := fork e (arms.map arm)

variable {arms : List FlowState}

theorem from_ofArms (hne : arms ≠ []) : (ofArms e arms).From e :=
  .fork (mt List.map_eq_nil_iff.1 hne) (List.forall_mem_map.2 fun s _ => .arm s)

theorem state_ofArms (e : FlowState) (arms : List FlowState) : (ofArms e arms).state = e.join arms := by
  rw [ofArms, fork, List.map_map]
  exact congrArg e.join (List.map_id arms)

theorem ends_ofArms (e : FlowState) (arms : List FlowState) : (ofArms e arms).ends = arms := by
  rw [ofArms, ends_fork, List.flatMap_map]
  exact List.flatMap_singleton' arms

theorem counted_ofArms (e : FlowState) (arms : List FlowState) :
    (ofArms e arms).counted = if arms.all FlowState.exited then [] else arms := by
  have hends := ends_ofArms e arms
  rw [ofArms, ends_fork] at hends
  rw [ofArms, counted_fork, hends, List.flatMap_map]
  exact congrArg (ite _ []) (List.flatMap_singleton' arms)

theorem ends_fork_ofArms (e : FlowState) (groups : List (List FlowState)) :
    (fork e (groups.map (ofArms e))).ends = groups.flatten := by
  rw [ends_fork, List.flatMap_map]
  simp only [ends_ofArms]
  exact List.flatMap_id

/-- Groups in which a branch is live count. -/
theorem keeps_ofArms (e : FlowState) (groups : List (List FlowState)) :
    Keeps e (fork e (groups.map (ofArms e))).ends (fork e (groups.map (ofArms e))).counted ↔
      Keeps e groups.flatten (groups.filter fun arms => !arms.all FlowState.exited).flatten := by
  have hflatten : (groups.map (ofArms e)).flatMap counted =
      (groups.filter fun arms => !arms.all FlowState.exited).flatten := by
    induction groups with
    | nil => rfl
    | cons arms groups ih =>
      rw [List.map_cons, List.flatMap_cons, ih, counted_ofArms]
      cases hall : arms.all FlowState.exited <;> simp [hall]
  have hends := ends_fork_ofArms e groups
  rw [ends_fork] at hends
  rw [ends_fork, counted_fork, hends, hflatten]
  by_cases hall : groups.flatten.all FlowState.exited = true
  · exact iff_of_true (Or.inl (List.all_eq_true.1 hall)) (Or.inl (List.all_eq_true.1 hall))
  · rw [if_neg hall]

end Meeting

/-! ## Statements in one another -/

namespace Execution

open Meeting

variable {target : DeclId} {s : FlowState} {m m' : Meeting} {o o' condition thenBranch elseBranch : Option Tree}

/-- A part that may be walked through without a change to the state. -/
def Quiet (target : DeclId) (s : FlowState) (o : Option Tree) : Prop := (partPass target o s).1 = s

/-- The branches of a part, through `if` statements in one another down to some depth. Conditions change nothing. -/
inductive Branches (target : DeclId) (s : FlowState) : Option Tree → Meeting → Prop
  | arm (o : Option Tree) : Branches target s o (.arm (partPass target o s).1)
  | block (n : NodeId) {o : Option Tree} {m : Meeting} (h : Branches target s o m) :
    Branches target s (some (.node n (.block [o]))) m
  | ifElse (n : NodeId) {condition thenBranch elseBranch : Option Tree} {m m' : Meeting}
    (hcondition : Quiet target s condition) (hthen : Branches target s thenBranch m)
    (helse : Branches target s elseBranch m') :
    Branches target s (some (.node n (.ifElse condition thenBranch elseBranch))) (.fork s [m, m'])

/-- The states at the ends of the branches of a `switch`; without a default branch, a value that no arm expects leads
past it. -/
def outcomes (target : DeclId) (s : FlowState) (arms : List (Option Tree)) (default : Option Tree) (exhaustive : Bool) :
    List FlowState :=
  (arms ++ if default.isSome || !exhaustive then [default] else []).map fun o => (partPass target o s).1

theorem pass_ifElse {n : NodeId} : partPass target (some (.node n (.ifElse condition thenBranch elseBranch))) =
    (partPass target condition).andThen (.fork ([thenBranch, elseBranch].map (partPass target))) := pass_node ..

theorem fst_fork {os : List (Option Tree)} (h : Quiet target s o) :
    ((partPass target o).andThen (.fork (os.map (partPass target))) s).1 =
      s.join (os.map fun o => (partPass target o s).1) := by
  show (Pass.fork (os.map (partPass target)) (partPass target o s).1).1 = _
  rw [h, Pass.fork, List.map_map, List.map_map]
  rfl

theorem Branches.meeting (h : Branches target s o m) : m.From s ∧ m.state = (partPass target o s).1 := by
  induction h with
  | arm o => exact ⟨.arm _, rfl⟩
  | block n h ih =>
    rw [pass_plain rfl]
    exact ih
  | ifElse n hcondition hthen helse ihthen ihelse =>
    refine ⟨.fork (List.cons_ne_nil _ _) ?_, ?_⟩
    · exact List.forall_mem_cons.2 ⟨ihthen.1, List.forall_mem_singleton.2 ihelse.1⟩
    · rw [pass_ifElse, fst_fork hcondition]
      show s.join [_, _] = s.join [_, _]
      rw [ihthen.2, ihelse.2]

/-- From a coherent state, as they all are in a check, it is only possible assignments that can be lost. -/
theorem Branches.keeps_iff (h : Branches target s o m) (hs : s.Coherent) :
    Keeps s m.ends m.counted ↔ (∀ t ∈ m.ends, t.exited = true) ∨
      ∀ t ∈ m.ends, t.possible = true → s.possible = true ∨ ∃ u ∈ m.counted, u.possible = true := by
  refine keeps_iff_of_coherent h.meeting.1 ?_
  induction h with
  | arm o => exact List.forall_mem_singleton.2 ((steady_partPass target o).coherent s hs)
  | block n h ih => exact ih
  | ifElse n hcondition hthen helse ihthen ihelse =>
    exact List.forall_mem_flatMap.2 (List.forall_mem_cons.2 ⟨ihthen, List.forall_mem_singleton.2 ihelse⟩)

/-- **Regrouping**: groups of branches leave the state that all branches leave at once, and statements in one another
the state that a `switch` with the same outcomes leaves, exactly if nothing is lost with the groups that have left. -/
theorem regrouped_iff (target : DeclId) (s : FlowState) :
    (∀ groups : List (List FlowState), groups ≠ [] → [] ∉ groups →
      (s.join (groups.map s.join) = s.join groups.flatten ↔
        Keeps s groups.flatten (groups.filter fun arms => !arms.all FlowState.exited).flatten)) ∧
      ∀ condition thenBranch elseBranch m m', Quiet target s condition → Branches target s thenBranch m →
        Branches target s elseBranch m' → ∀ subject arms default exhaustive, Quiet target s subject →
          (∀ t, t ∈ outcomes target s arms default exhaustive ↔ t ∈ m.ends ++ m'.ends) → ∀ n n',
            ((partPass target (some (.node n (.ifElse condition thenBranch elseBranch))) s).1 =
                (partPass target (some (.node n' (.switch subject arms default exhaustive))) s).1 ↔
              Keeps s (fork s [m, m']).ends (fork s [m, m']).counted) := by
  constructor
  · intro groups hne hnonempty
    have hfrom : ∀ m ∈ groups.map (ofArms s), m.From s := List.forall_mem_map.2 fun arms harms =>
      from_ofArms fun hnil => hnonempty (hnil ▸ harms)
    have hiff := state_fork_eq_join_iff (mt List.map_eq_nil_iff.1 hne) hfrom
    rw [keeps_ofArms, ends_fork_ofArms] at hiff
    rw [← hiff, fork, List.map_map]
    simp only [Function.comp_def, state_ofArms]
  · intro condition thenBranch elseBranch m m' hcondition hthen helse subject arms default exhaustive hsubject hends
      n n'
    have hgroups : ∀ x ∈ [m, m'], x.From s :=
      List.forall_mem_cons.2 ⟨hthen.meeting.1, List.forall_mem_singleton.2 helse.meeting.1⟩
    have hleft : (partPass target (some (.node n (.ifElse condition thenBranch elseBranch))) s).1 =
        (fork s [m, m']).state := (Branches.ifElse n hcondition hthen helse).meeting.2.symm
    have hright : (partPass target (some (.node n' (.switch subject arms default exhaustive))) s).1 =
        s.join (fork s [m, m']).ends := by
      rw [pass_switch, fst_fork hsubject]
      refine join_congr fun t => (hends t).trans ?_
      simp [fork]
    rw [hleft, hright, state_fork_eq_join_iff (List.cons_ne_nil _ _) hgroups]

/-- `return;`. -/
def leaving : Tree := .node ⟨7⟩ (.returnStmt none)

/-- `x = 1; return;`. -/
def assigningAndLeaving : Tree :=
  .node ⟨6⟩ (.block [some (assignment ⟨2⟩ ⟨4⟩ ⟨2⟩ ⟨3⟩), some (.node ⟨5⟩ (.returnStmt none))])

/-- `if (2) { … } else { return; }`. -/
def innerIf (t : Tree) : Tree := .node ⟨8⟩ (.ifElse (some (.node ⟨1⟩ .literal)) (some t) (some leaving))

/-- `if (1) { if (2) { … } else { return; } }`. -/
def outerIf (t : Tree) : Tree :=
  .node ⟨10⟩ (.ifElse (some (.node ⟨0⟩ .literal)) (some (.node ⟨9⟩ (.block [some (innerIf t)]))) none)

/-- A `switch` with the same branches. -/
def sameSwitch (t : Tree) : Tree :=
  .node ⟨12⟩ (.switch (some (.node ⟨11⟩ .literal)) [some t, some leaving] none false)

theorem branches_innerIf (t : Tree) : Branches target s (some (.node ⟨9⟩ (.block [some (innerIf t)])))
    (.fork s [.arm (partPass target (some t) s).1, .arm s.exit]) :=
  .block ⟨9⟩ (.ifElse ⟨8⟩ rfl (.arm (some t)) (.arm (some leaving)))

/-- A branch that assigns counts if it has not left, although the other one of its group has. -/
theorem regrouped_iff_sameSwitch :
    initial.passed.join ([[initial.passed.assigned, initial.passed.exit], [initial.passed]].map initial.passed.join) =
        initial.passed.join [initial.passed.assigned, initial.passed.exit, initial.passed] ∧
      (partPass ⟨2⟩ (some (outerIf (assignment ⟨2⟩ ⟨4⟩ ⟨2⟩ ⟨3⟩))) initial.passed).1 =
        (partPass ⟨2⟩ (some (sameSwitch (assignment ⟨2⟩ ⟨4⟩ ⟨2⟩ ⟨3⟩))) initial.passed).1 := by
  obtain ⟨hgroups, hstatements⟩ := regrouped_iff ⟨2⟩ initial.passed
  constructor
  · refine (hgroups _ (List.cons_ne_nil _ _) (by decide)).2 (Or.inr ?_)
    decide
  · have hiff := hstatements (some (.node ⟨0⟩ .literal)) _ none _ _ rfl (branches_innerIf _) (.arm none)
      (some (.node ⟨11⟩ .literal)) [some (assignment ⟨2⟩ ⟨4⟩ ⟨2⟩ ⟨3⟩), some leaving] none false rfl
      (fun t => Iff.rfl) ⟨10⟩ ⟨12⟩
    refine hiff.2 (Or.inr ?_)
    decide +kernel

/-- A branch that assigns and leaves counts in the `switch`, and is forgotten where the other branch of its group leaves
as well. -/
theorem not_regrouped_leavingGroup :
    initial.passed.join ([[initial.passed.assigned.exit, initial.passed.exit], [initial.passed]].map
        initial.passed.join) ≠
      initial.passed.join [initial.passed.assigned.exit, initial.passed.exit, initial.passed] ∧
    (∃ m, Branches ⟨2⟩ initial.passed (some (outerIf assigningAndLeaving)) m ∧
      m.ends = outcomes ⟨2⟩ initial.passed [some assigningAndLeaving, some leaving] none false) ∧
    (partPass ⟨2⟩ (some (outerIf assigningAndLeaving)) initial.passed).1 = initial.passed ∧
    (partPass ⟨2⟩ (some (sameSwitch assigningAndLeaving)) initial.passed).1 =
      { initial.passed with possible := true } :=
  ⟨by decide, ⟨_, .ifElse ⟨10⟩ rfl (branches_innerIf _) (.arm none), rfl⟩, rfl, rfl⟩

end Execution

end SemCheck
