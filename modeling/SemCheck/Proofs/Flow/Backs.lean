import SemCheck.Proofs.Flow.Framed

/-!
# Reads of a value

`Knows k s c` says what a live flow state knows of the store when at most `k` declaring nodes of the target are still
ahead: where the target is declared and definitely assigned, it has its value. A pass backs the reads of executions
(`Backs`) if without findings every read finds the target with its value, or has an excuse in what came before it, and
if after an execution that ends normally the state knows as much of the store as before.

There is one lemma for every way of putting passes together. A finally clause that a jump leads to is the only place
where an excuse is needed (`Backs.attemptFinally`).
-/

namespace SemCheck.Execution

open Runs

/-! ## Reads -/

/-- Every read finds the target with its value, or what has happened just before is an excuse. -/
def Backed (X : NodeId → List Event → Prop) (c : Store) (es : List Event) : Prop :=
  ∀ before m after, es = before ++ .read m :: after →
    (c.afterAll before).valued = true ∨ ∃ recent, recent <:+ before ∧ X m recent

section

variable {X : NodeId → List Event → Prop} {c : Store} {es es' : List Event}

theorem backed_nil (X : NodeId → List Event → Prop) (c : Store) : Backed X c [] := by
  intro before m after heq
  exact absurd heq.symm (List.append_ne_nil_of_right_ne_nil _ (List.cons_ne_nil _ _))

theorem backed_singleton {ev : Event} (hev : ∀ m, ev = .read m → c.valued = true) : Backed X c [ev] := by
  intro before m after heq
  cases before with
  | nil => exact Or.inl (hev m (List.cons.inj heq).1)
  | cons ev' before =>
    exact absurd (List.cons.inj heq).2.symm (List.append_ne_nil_of_right_ne_nil _ (List.cons_ne_nil _ _))

/-- Reads in the later events may find their excuse in the earlier ones. -/
theorem backed_append (h : Backed X c es) (h' : ∀ before m after, es' = before ++ .read m :: after →
    ((c.afterAll es).afterAll before).valued = true ∨ ∃ recent, recent <:+ es ++ before ∧ X m recent) :
    Backed X c (es ++ es') := by
  intro before m after heq
  rcases List.append_eq_append_iff.1 heq with ⟨mid, rfl, hrest⟩ | ⟨mid, rfl, hrest⟩
  · rw [Store.afterAll_append]
    exact h' mid m after hrest
  · cases mid with
    | nil => simpa using h' [] m after hrest.symm
    | cons ev mid =>
      obtain ⟨rfl, -⟩ := List.cons.inj hrest
      exact h before m mid rfl

theorem Backed.append (h : Backed X c es) (h' : Backed X (c.afterAll es) es') : Backed X c (es ++ es') := by
  refine backed_append h fun before m after heq => ?_
  exact (h' before m after heq).imp_right fun ⟨recent, hrecent, hx⟩ =>
    ⟨recent, hrecent.trans (List.suffix_append ..), hx⟩

theorem Backed.of_append (h : Backed X c (es ++ es')) : Backed X c es := by
  intro before m after heq
  exact h before m (after ++ es') (by rw [heq, List.append_assoc, List.cons_append])

/-- An event that is no read. -/
theorem Backed.cons {ev : Event} (hev : ∀ m, ev ≠ .read m) (h : Backed X (c.after ev) es) : Backed X c (ev :: es) :=
  (backed_singleton fun m heq => absurd heq (hev m)).append h

end

/-! ## What a state knows -/

/-- What a flow state knows of the store. -/
structure Knows (k : Nat) (s : FlowState) (c : Store) : Prop where
  live : s.exited = false
  once : k ≤ 1
  ahead : 0 < k → s.declared = false ∧ s.definite = false
  definite : s.declared = true → s.definite = true → c.valued = true

namespace Knows

variable {k k' : Nat} {s s' : FlowState} {c : Store}

/-- Where the declaration has been passed, none is ahead. -/
theorem eq_zero (h : Knows k s c) (hs : s.declared = true) : k = 0 := by
  rcases Nat.eq_zero_or_pos k with hk | hk
  · exact hk
  · simp [(h.ahead hk).1] at hs

/-- Another state that knows as much. -/
theorem congr (h : Knows k s c) (hk : k' ≤ k) (hexited : s'.exited = s.exited) (hdeclared : s'.declared = s.declared)
    (hdefinite : s'.definite = s.definite) : Knows k' s' c where
  live := hexited.trans h.live
  once := Nat.le_trans hk h.once
  ahead hpos := by
    rw [hdeclared, hdefinite]
    exact h.ahead (Nat.lt_of_lt_of_le hpos hk)
  definite hs hd := h.definite (hdeclared ▸ hs) (hdefinite ▸ hd)

/-- Where the declaration has been passed, events that do not declare take nothing back. -/
theorem afterAll (h : Knows k s c) {es : List Event}
    (hes : s.declared = true → ∀ ev ∈ es, ∀ valued, ev ≠ .declare valued) : Knows k s (c.afterAll es) where
  live := h.live
  once := h.once
  ahead := h.ahead
  definite hs hd := Store.valued_afterAll (hes hs) (h.definite hs hd)

theorem of_valued (hlive : s.exited = false) (hvalued : c.valued = true) : Knows 0 s c :=
  ⟨hlive, Nat.zero_le 1, nofun, fun _ _ => hvalued⟩

end Knows

/-- However an execution ends, the state before it still knows what it knew. -/
theorem Framed.keeps {n k : Nat} {p : Pass} {r : Runs} {s : FlowState} {c : Store} {es : List Event} {e : Ending}
    (h : Framed n p r) (hk : n ≤ k) (hs : Knows k s c) (hr : r es e) : Knows k s (c.afterAll es) := by
  refine hs.afterAll fun hd => h.silent ?_ es e hr
  have := hs.eq_zero hd
  omega

/-! ## Passes that back reads -/

/-- A pass with `n` declaring nodes inside backs the reads of the executions. -/
structure Backs (X : NodeId → List Event → Prop) (n : Nat) (p : Pass) (r : Runs) : Prop extends Framed n p r where
  reads : ∀ {k s c es e}, n ≤ k → Knows k s c → (p s).2 = [] → r es e → Backed X c es
  knows : ∀ {k s c es}, n ≤ k → Knows k s c → (p s).2 = [] → r es .normal → Knows (k - n) (p s).1 (c.afterAll es)

namespace Backs

section

variable {X : NodeId → List Event → Prop} {n n' : Nat} {p p' : Pass} {r r' : Runs}

theorem mono (h : Backs X n p r) (hn : n ≤ n') : Backs X n' p r where
  toFramed := h.toFramed.mono hn
  reads hk := h.reads (by omega)
  knows hk hs hf hr := (h.knows (by omega) hs hf hr).congr (by omega) rfl rfl rfl

theorem skip : Backs X 0 .skip skip where
  toFramed := .skip
  reads := by
    rintro k s c es e - - - ⟨rfl, -⟩
    exact backed_nil X c
  knows := by
    rintro k s c es - hs - ⟨rfl, -⟩
    exact hs

theorem exit {ending : Ending} (hending : ending ≠ .normal) : Backs X 0 (.change .exit) (jump ending) where
  toFramed := .exit ending
  reads := by
    rintro k s c es e - - - ⟨rfl, -⟩
    exact backed_nil X c
  knows := by
    rintro k s c es - - - ⟨-, he⟩
    exact absurd he.symm hending

theorem throwing (h : Backs X n p r) (may : Prop) : Backs X n p (throwing may r) where
  toFramed := h.toFramed.throwing may
  reads := by
    intro k s c es e hk hs hf hr
    rcases of_throwing hr with rfl | ⟨e', hr⟩
    · exact backed_nil X c
    · exact h.reads hk hs hf hr
  knows hk hs hf hr := h.knows hk hs hf (of_throwing_normal hr)

theorem andThen (h : Backs X n p r) (h' : Backs X n' p' r') : Backs X (n + n') (p.andThen p') (Seq r r') where
  toFramed := h.toFramed.andThen h'.toFramed
  reads := by
    intro k s c es e hk hs hf hr
    obtain ⟨hf, hf'⟩ := List.append_eq_nil_iff.1 hf
    cases hr with
    | stop hr _ => exact h.reads (by omega) hs hf hr
    | go hr hr' =>
      have hs' := h.knows (by omega) hs hf hr
      exact (h.reads (by omega) hs hf hr).append (h'.reads (by omega) hs' hf' hr')
  knows := by
    intro k s c es hk hs hf hr
    obtain ⟨hf, hf'⟩ := List.append_eq_nil_iff.1 hf
    obtain ⟨es₁, es₂, rfl, hr, hr'⟩ := seq_normal hr
    have hs' := h.knows (by omega) hs hf hr
    rw [Store.afterAll_append, ← Nat.sub_sub]
    exact h'.knows (by omega) hs' hf' hr'

/-- A body of its own. -/
theorem nested (h : Backs X n p r) : Backs X n p.nested (contained r) where
  toFramed := h.toFramed.nested
  reads := by
    rintro k s c es e hk hs hf ⟨-, e', hr⟩
    have hb : Knows k s.withBarrier c := hs.congr (Nat.le_refl k) rfl rfl rfl
    exact h.reads hk hb hf hr
  knows := by
    rintro k s c es hk hs - ⟨-, e', hr⟩
    exact (h.keeps hk hs hr).congr (Nat.sub_le ..) rfl rfl rfl

end

section

variable {X : NodeId → List Event → Prop} {ι : Type} {l : List ι} {n : ι → Nat} {p : ι → Pass} {r : ι → Runs} {n' : Nat}
  {p' : Pass} {r' : Runs}

theorem all (h : ∀ i ∈ l, Backs X (n i) (p i) (r i)) : Backs X (l.map n).sum (.all (l.map p)) (all (l.map r)) := by
  induction l with
  | nil => exact skip
  | cons i l ih =>
    obtain ⟨hi, hl⟩ := List.forall_mem_cons.1 h
    exact andThen hi (ih hl)

/-- Alternatives. -/
theorem fork (h : ∀ i ∈ l, Backs X (n i) (p i) (r i)) : Backs X (l.map n).sum (.fork (l.map p)) (oneOf (l.map r)) where
  toFramed := Framed.fork fun i hi => (h i hi).toFramed
  reads := by
    intro k s c es e hk hs hf hr
    rw [fork_eq] at hf
    rcases hr with ⟨-, rfl, -⟩ | ⟨r', hr', hr⟩
    · exact backed_nil X c
    · obtain ⟨i, hi, rfl⟩ := List.mem_map.1 hr'
      exact (h i hi).reads (Nat.le_trans (le_sum hi) hk) hs (List.flatMap_eq_nil_iff.1 hf i hi) hr
  knows := by
    intro k s c es hk hs hf hr
    rcases hr with ⟨hl, rfl, -⟩ | ⟨r', hr', hr⟩
    · rw [List.map_eq_nil_iff] at hl
      subst hl
      exact hs
    · obtain ⟨i, hi, rfl⟩ := List.mem_map.1 hr'
      have hle := le_sum (n := n) hi
      rw [fork_eq] at hf ⊢
      have hki := Nat.le_trans hle hk
      have hs' := (h i hi).knows hki hs (List.flatMap_eq_nil_iff.1 hf i hi) hr
      have hmem : (p i s).1 ∈ l.map fun j => (p j s).1 := List.mem_map_of_mem hi
      rw [s.join_of_live hmem hs'.live]
      constructor
      case live => rfl
      case once => exact Nat.le_trans (Nat.sub_le ..) hs.once
      case ahead =>
        intro hpos
        have hdefinite := (hs'.ahead (by omega)).2
        refine ⟨(hs.ahead (by omega)).1, ?_⟩
        rw [(hs.ahead (by omega)).2, Bool.false_or]
        exact List.all_eq_false.2 ⟨_, hmem, by simp [hdefinite]⟩
      case definite =>
        intro hd hdefinite
        rcases Bool.or_eq_true_iff.1 hdefinite with hdefinite | hall
        · exact ((h i hi).keeps hki hs hr).definite hd hdefinite
        · have hzero : n i = 0 := by
            have := hs.eq_zero hd
            omega
          exact hs'.definite (((h i hi).declared hzero s).trans hd) (List.all_eq_true.1 hall _ hmem)

/-! ### Loops -/

section

variable {k : Nat} {s : FlowState} {c : Store} {es : List Event} {e : Ending}

/-- The rounds of a loop declare nothing where the target has been passed, so every round starts in a store of which the
state before the loop knows as much. -/
theorem rounds (h : ∀ i ∈ l, Backs X (n i) (p i) (r i)) (hk : (l.map n).sum ≤ k) (hs : Knows k s.withBarrier c)
    (hf : (Pass.all (l.map p) s.withBarrier).2 = []) (hr : Rounds (l.map r) es e) :
    Backed X c es ∧ Knows k s.withBarrier (c.afterAll es) := by
  induction hr generalizing c with
  | last i hr =>
    have htake := all fun j (hj : j ∈ l.take i) => h j (List.mem_of_mem_take hj)
    have hle := sum_take_le l n i
    have hf' : (Pass.all ((l.take i).map p) s.withBarrier).2 = [] := by
      rw [List.map_take]
      exact findings_take hf i
    rw [← List.map_take] at hr
    exact ⟨htake.reads (Nat.le_trans hle hk) hs hf' hr, htake.keeps (Nat.le_trans hle hk) hs hr⟩
  | again hr _ _ ih =>
    obtain ⟨hreads, hs'⟩ := ih ((all h).keeps hk hs hr)
    rw [Store.afterAll_append]
    exact ⟨((all h).reads hk hs hf hr).append hreads, hs'⟩
  | stop hr _ => exact ⟨(all h).reads hk hs hf hr, (all h).keeps hk hs hr⟩

end

/-- A loop with what follows it. -/
theorem loop (h : ∀ i ∈ l, Backs X (n i) (p i) (r i)) (h' : Backs X n' p' r') :
    Backs X ((l.map n).sum + n') ((Pass.loop (.all (l.map p))).andThen p'.interruptible) (Loop (l.map r) r') := by
  have hrounds {k s c es e} (hk : (l.map n).sum + n' ≤ k) (hs : Knows k s c)
      (hf : (Pass.all (l.map p) s.withBarrier).2 = []) (hr : Rounds (l.map r) es e) :
      Backed X c es ∧ Knows k (Pass.loop (.all (l.map p)) s).1 (c.afterAll es) := by
    have hb : Knows k s.withBarrier c := hs.congr (Nat.le_refl k) rfl rfl rfl
    exact (rounds h (by omega) hb hf hr).imp_right fun hs' => hs'.congr (Nat.le_refl k) rfl rfl rfl
  constructor
  case toFramed => exact Framed.loop (fun i hi => (h i hi).toFramed) h'.toFramed
  case reads =>
    intro k s c es e hk hs hf hr
    obtain ⟨hf, hf'⟩ := List.append_eq_nil_iff.1 hf
    cases hr with
    | done hr hr' =>
      obtain ⟨hreads, hs'⟩ := hrounds hk hs hf hr
      exact hreads.append (h'.reads (by omega) hs' hf' hr')
    | broke hr | left hr => exact (hrounds hk hs hf hr).1
  case knows =>
    intro k s c es hk hs hf hr
    obtain ⟨hf, hf'⟩ := List.append_eq_nil_iff.1 hf
    rcases loop_normal hr with ⟨es₁, es₂, rfl, hr, hr'⟩ | hr
    · have hs' := (hrounds hk hs hf hr).2
      rw [Store.afterAll_append]
      exact (h'.keeps (by omega) hs' hr').congr (Nat.sub_le ..) rfl rfl rfl
    · exact (hrounds hk hs hf hr).2.congr (Nat.sub_le ..) rfl rfl rfl

/-! ### Try statements -/

theorem clauses (h : ∀ i ∈ l, Backs X (n i) (p i) (r i)) :
    Backs X (l.map n).sum (.all (l.map fun i => (p i).interruptible)) (oneOf (l.map r)) where
  toFramed := Framed.clauses fun i hi => (h i hi).toFramed
  reads := by
    intro k s c es e hk hs hf hr
    induction l generalizing s with
    | nil =>
      rw [List.map_nil, oneOf_nil] at hr
      exact skip.reads (Nat.zero_le k) hs rfl hr
    | cons i l ih =>
      obtain ⟨hi, hl⟩ := List.forall_mem_cons.1 h
      obtain ⟨hf, hf'⟩ := List.append_eq_nil_iff.1 hf
      rw [List.map_cons, List.sum_cons] at hk
      rcases oneOf_cons hr with hr | hr
      · exact hi.reads (by omega) hs hf hr
      · have hs' : Knows k ((p i).interruptible s).1 c := hs.congr (Nat.le_refl k) rfl rfl rfl
        exact ih hl (by omega) hs' hf' hr
  knows := by
    intro k s c es hk hs _ hr
    have hkeeps := (Framed.clauses fun i hi => (h i hi).toFramed).keeps hk hs hr
    obtain ⟨hexited, hdeclared, hdefinite⟩ := clauses_keep l p s
    exact hkeeps.congr (Nat.sub_le ..) hexited hdeclared hdefinite

/-- A block that may be abandoned for one of several clauses. -/
theorem guarded (h' : Backs X n' p' r') (h : ∀ i ∈ l, Backs X (n i) (p i) (r i)) :
    Backs X (n' + (l.map n).sum) (p'.interruptible.andThen (.all (l.map fun i => (p i).interruptible)))
      (Guarded r' (l.map r)) := by
  have hframed := (clauses h).toFramed.guarded h'.toFramed
  constructor
  case toFramed => exact hframed
  case reads =>
    intro k s c es e hk hs hf hr
    obtain ⟨hf, hf'⟩ := List.append_eq_nil_iff.1 hf
    cases hr with
    | through hr => exact h'.reads (by omega) hs hf hr
    | @caught es rest es' e e' r hr hmem hr' =>
      have hdeclares (hd : s.declared = true) : ∀ ev ∈ es, ∀ valued, ev ≠ .declare valued := by
        have := hs.eq_zero hd
        exact (List.forall_mem_append.1 (h'.silent (by omega) _ _ hr)).1
      have hs' := hs.afterAll hdeclares
      have hstart : Knows k (p'.interruptible s).1 ((c.afterAll es).after .caught) :=
        ⟨hs'.live, hs'.once, hs'.ahead, hs'.definite⟩
      have hclause := (clauses h).reads (by omega) hstart hf' (Or.inr ⟨r, hmem, hr'⟩)
      exact (h'.reads (by omega) hs hf hr).of_append.append (hclause.cons nofun)
  case knows =>
    intro k s c es hk hs _ hr
    obtain ⟨hexited, hdeclared, hdefinite⟩ := clauses_keep l p (p'.interruptible s).1
    exact (hframed.keeps hk hs hr).congr (Nat.sub_le ..) hexited hdeclared hdefinite

end

section

variable {X : NodeId → List Event → Prop} {n n' : Nat} {p p' : Pass} {r r' : Runs}

/-- A finally clause. What is before it may take back all that it has found out, so that the finally clause starts from
what was known before. Otherwise an excuse is needed for the reads in it after a jump. -/
theorem attemptFinally (h : Backs X n p r) (h' : Backs X n' p' r')
    (hblock : (∀ s, (p s).1.exited = s.exited ∧ (p s).1.declared = s.declared ∧ (p s).1.definite = s.definite) ∨
      ∀ es e inside m rest e', r es e → e ≠ .normal → r' (inside ++ .read m :: rest) e' →
        X m (es ++ .finalized :: inside)) :
    Backs X (n + n') (p.andThen p'.keepDeclared) (Finally r r') where
  toFramed := h.toFramed.attemptFinally h'.toFramed
  reads := by
    rintro k s c _ _ hk hs hf @⟨es, es', e, e', hr, hr'⟩
    obtain ⟨hf, hf'⟩ := List.append_eq_nil_iff.1 hf
    have hbefore := h.reads (by omega) hs hf hr
    by_cases he : e = .normal
    · subst he
      exact hbefore.append ((h'.reads (by omega) (h.knows (by omega) hs hf hr) hf' hr').cons nofun)
    · rcases hblock with hkeep | hexcuse
      · obtain ⟨hexited, hdeclared, hdefinite⟩ := hkeep s
        have hs' := (h.keeps (by omega) hs hr).congr (Nat.le_refl k) hexited hdeclared hdefinite
        exact hbefore.append ((h'.reads (by omega) hs' hf' hr').cons nofun)
      · refine backed_append hbefore fun before m after heq => Or.inr ⟨_, List.suffix_refl _, ?_⟩
        cases before with
        | nil => exact absurd (List.cons.inj heq).1 nofun
        | cons ev inside =>
          obtain ⟨rfl, rfl⟩ := List.cons.inj heq
          exact hexcuse es e inside m after e' hr he hr'
  knows := by
    intro k s c es hk hs hf hr
    obtain ⟨hf, hf'⟩ := List.append_eq_nil_iff.1 hf
    obtain ⟨es₁, es₂, rfl, hr, hr'⟩ := finally_normal hr
    have hs' := h.knows (by omega) hs hf hr
    have hs'' := h'.knows (by omega) hs' hf' hr'
    rw [Store.afterAll_append, ← Nat.sub_sub]
    constructor
    case live => exact hs''.live
    case once => exact hs''.once
    case ahead => exact fun hpos => ⟨(hs'.ahead (by omega)).1, (hs''.ahead hpos).2⟩
    case definite =>
      intro hd hdefinite
      have := hs'.eq_zero hd
      exact hs''.definite ((h'.declared (by omega) _).trans hd) hdefinite

/-! ## Where the target is named -/

theorem read (id : NodeId) : Backs X 0 (Assignment.read id) (event (.read id)) where
  toFramed := .read id
  reads := by
    rintro k s c es e - hs hf ⟨rfl, -⟩
    obtain ⟨hd, hdefinite⟩ := of_findings_read hf
    exact backed_singleton fun _ _ => hs.definite hd hdefinite
  knows := by
    rintro k s c es - hs - ⟨rfl, -⟩
    rw [Assignment.fst_read]
    exact hs

/-- A specifier of the target. -/
theorem specify {target : DeclId} {id m : NodeId} {left value : Option Subnode}
    (hleft : Assignment.specifies target left = true) (hread : Subnode.slot left = Assignment.read m)
    (h : Backs X n (Subnode.slot value) r) :
    Backs X n (Assignment.specify target id left value) (Runs.all [event (.specify id), r, event .assign]) := by
  have hallowed {s : FlowState} (hf : (Assignment.specify target id left value s).2 = []) :=
    (specify_cases hleft hread id value s).resolve_left fun hs => hs.2 hf
  constructor
  case toFramed => exact Framed.specify hleft hread h.toFramed
  case reads =>
    intro k s c es e hk hs hf hr
    obtain ⟨-, -, -, -, hvalue⟩ := hallowed hf
    have hf := hvalue hf
    rcases specify_runs hr with ⟨es', rfl, hr, -⟩ | ⟨es', rfl, hr, -⟩
    · exact (h.reads hk hs hf hr).cons nofun
    · have hassign : Backed X (c.afterAll es') [.assign] := backed_singleton fun _ => nofun
      exact ((h.reads hk hs hf hr).append hassign).cons nofun
  case knows =>
    intro k s c es hk hs hf hr
    obtain ⟨hd, -, -, hpass, hvalue⟩ := hallowed hf
    have hf := hvalue hf
    have hzero := hs.eq_zero hd
    rcases specify_runs hr with ⟨es', -, -, hne⟩ | ⟨es', rfl, hr, -⟩
    · exact absurd rfl hne
    · rw [hpass, hzero, Nat.zero_sub, Store.afterAll_cons, Store.afterAll_append]
      exact .of_valued (h.knows hk hs hf hr).live rfl

/-- A declaration that has its value inside already, as a function has. -/
theorem knows_inside {k : NodeKind Subnode} (hinside : Assignment.assignedInside k = true) {s : FlowState}
    (hlive : s.exited = false) (c : Store) : Knows 0 (inside k s).withBarrier (c.after (.declare true)) := by
  rw [inside, if_pos hinside]
  exact .of_valued hlive rfl

/-- The declaring node of the target, whose parts are a body of their own. -/
theorem declare {k : NodeKind Subnode} (h : Backs X 0 (Subnode.slots k.slots) r) :
    Backs X 1 (Assignment.declare k)
      (if Assignment.assignedInside k then Seq (event (.declare true)) (contained r)
        else Seq (contained r) (event (.declare (Assignment.assignedAfter k)))) where
  toFramed := Framed.declare k _
  reads := by
    intro m s c es e _ hs hf hr
    obtain ⟨es', e', hrun, -, rfl⟩ := declare_runs hr
    cases hinside : Assignment.assignedInside k with
    | true => exact (h.reads (Nat.le_refl 0) (knows_inside hinside hs.live c) hf hrun).cons nofun
    | false =>
      rw [declare_eq, inside_of_not hinside] at hf
      have hbody : Knows m s.withBarrier c := hs.congr (Nat.le_refl m) rfl rfl rfl
      have hdeclare : Backed X (c.afterAll es') [.declare (Assignment.assignedAfter k)] :=
        backed_singleton fun _ => nofun
      exact (h.reads (Nat.zero_le m) hbody hf hrun).append hdeclare
  knows := by
    intro m s c es hm hs hf hr
    have hm' : m - 1 = 0 := by
      have := hs.once
      omega
    obtain ⟨es', e', hrun, -, rfl⟩ := declare_runs hr
    rw [hm', declare_eq]
    cases hinside : Assignment.assignedInside k with
    | true =>
      have hvalued := Store.valued_afterAll (c := c.after (.declare true)) (h.silent rfl _ _ hrun) rfl
      have hlive := (knows_inside hinside hs.live c).live
      cases Assignment.assignedAfter k with
      | true | false => exact .of_valued hlive hvalued
    | false =>
      rw [inside_of_not hinside, if_neg Bool.false_ne_true, Store.afterAll_append]
      cases Assignment.assignedAfter k with
      | true => exact .of_valued hs.live rfl
      | false =>
        refine ⟨hs.live, Nat.zero_le 1, nofun, fun _ hd => ?_⟩
        exact absurd (hd.symm.trans (hs.ahead hm).2) nofun

end

end Backs

end SemCheck.Execution
