import SemCheck.Proofs.Flow.Framed

/-!
# Assignments that are kept track of

Two assignments with no declaration between them (`Twice`) have to be ruled out for every way in which executions are
put together. What one part assigns the next one may assign again, unless the state between them says that an assignment
is possible. `Tracks deadless forkless closed n p r` says that the pass `p` sees to that for the executions `r`:

* an execution that assigns the target leaves it possibly assigned (`held`). A jump may hide that, unless the part is
  `deadless`; and past a jump, where the state has left, everything may be hidden, unless the part is `forkless`;
* an execution assigns ahead of every declaration only where no assignment is possible (`early`), and in a part that is
  `closed` only where the declaration has been passed;
* no execution assigns twice (`single`).

There is one lemma for every way of putting passes together.
-/

namespace SemCheck.Execution

open Runs

/-! ## Assignments in a row -/

/-- The target is declared by one of the events. -/
def Declares (es : List Event) : Prop := ∃ valued, .declare valued ∈ es

/-- Whether an assignment comes ahead of every declaration. -/
def Early : List Event → Prop
  | [] | .declare _ :: _ => False
  | .assign :: _ => True
  | .read _ :: es | .specify _ :: es | .caught :: es | .finalized :: es => Early es

/-- Whether two assignments come with no declaration between them. -/
def Twice : List Event → Prop
  | [] => False
  | .assign :: es => Early es ∨ Twice es
  | .declare _ :: es | .read _ :: es | .specify _ :: es | .caught :: es | .finalized :: es => Twice es

section

variable {es es' : List Event}

theorem Declares.append_left (h : Declares es') (es : List Event) : Declares (es ++ es') :=
  h.imp fun _ => List.mem_append_right es

theorem Declares.append_right (h : Declares es) (es' : List Event) : Declares (es ++ es') :=
  h.imp fun _ => List.mem_append_left es'

theorem declares_cons {ev : Event} : Declares (ev :: es) ↔ (∃ valued, ev = .declare valued) ∨ Declares es := by
  simp only [Declares, List.mem_cons, exists_or, eq_comm]

theorem Early.assign_mem (h : Early es) : .assign ∈ es := by
  induction es with
  | nil => exact absurd h id
  | cons ev es ih =>
    cases ev with
    | assign => exact List.mem_cons_self
    | declare => exact absurd h id
    | _ => exact List.mem_cons_of_mem _ (ih h)

theorem Twice.assign_mem (h : Twice es) : .assign ∈ es := by
  induction es with
  | nil => exact absurd h id
  | cons ev es ih =>
    cases ev with
    | assign => exact List.mem_cons_self
    | _ => exact List.mem_cons_of_mem _ (ih h)

theorem early_append : Early (es ++ es') ↔ Early es ∨ ¬ Declares es ∧ Early es' := by
  induction es with
  | nil => simp [Early, Declares]
  | cons ev es ih =>
    rw [declares_cons]
    cases ev with
    | declare | assign => simp [Early]
    | _ => simpa [Early] using ih

theorem twice_append (h : Twice (es ++ es')) : Twice es ∨ Twice es' ∨ .assign ∈ es ∧ Early es' := by
  induction es with
  | nil => exact Or.inr (Or.inl h)
  | cons ev es ih =>
    have hmem (h : .assign ∈ es ∧ Early es') : .assign ∈ ev :: es ∧ Early es' := h.imp_left (List.mem_cons_of_mem ev)
    cases ev with
    | assign =>
      rcases h with h | h
      · rcases early_append.1 h with h | ⟨-, h⟩
        · exact Or.inl (Or.inl h)
        · exact Or.inr (Or.inr ⟨List.mem_cons_self, h⟩)
      · exact (ih h).imp Or.inr (Or.imp_right hmem)
    | _ => exact (ih h).imp_right (Or.imp_right hmem)

theorem Twice.append (h : Twice es) (es' : List Event) : Twice (es ++ es') := by
  induction es with
  | nil => exact absurd h id
  | cons ev es ih =>
    cases ev with
    | assign => exact h.imp (fun h => early_append.2 (Or.inl h)) ih
    | _ => exact ih h

/-- Two assignments that are not declared apart. -/
theorem twice_of_split {before between after : List Event} (h : ¬ Declares between) :
    Twice (before ++ .assign :: (between ++ .assign :: after)) := by
  induction before with
  | nil => exact Or.inl (early_append.2 (Or.inr ⟨h, trivial⟩))
  | cons ev before ih =>
    cases ev with
    | assign => exact Or.inr ih
    | _ => exact ih

end

/-! ## Where a part may stand -/

/-- At most one declaring node stands in a part, and none where the declaration has been passed. -/
structure Ready (n : Nat) (s : FlowState) : Prop where
  once : n ≤ 1
  fresh : s.declared = true → n = 0

section

variable {n n' : Nat} {s s' : FlowState} {p : Pass} {r : Runs} {es : List Event} {e : Ending}

theorem Ready.mono (h : Ready n s) (hn : n' ≤ n) : Ready n' s where
  once := Nat.le_trans hn h.once
  fresh hs := Nat.le_zero.1 (h.fresh hs ▸ hn)

theorem Ready.congr (h : Ready n s) (hs : s'.declared = s.declared) : Ready n s' :=
  ⟨h.once, fun hs' => h.fresh (hs ▸ hs')⟩

/-- Where one part may stand before another, the other may stand after it. -/
theorem Framed.ready (h : Framed n p r) (hs : Ready (n + n') s) : Ready n' (p s).1 where
  once := Nat.le_trans (Nat.le_add_left n' n) hs.once
  fresh hs' := by
    have honce := hs.once
    rcases Nat.eq_zero_or_pos n with hn | hn
    · rw [h.declared hn] at hs'
      exact (Nat.add_eq_zero_iff.1 (hs.fresh hs')).2
    · omega

/-- Only past the declaration is the target assigned, so none is left for a part after one that assigns. -/
theorem Framed.eq_zero_of_assign (h : Framed n p r) (hs : Ready (n + n') s) (hf : (p s).2 = []) (hr : r es e)
    (hassign : .assign ∈ es) : n' = 0 := by
  have honce := hs.once
  rcases Nat.eq_zero_or_pos n with hn | hn
  · cases hd : s.declared with
    | false => exact absurd rfl (h.quiet hn s (Or.inr hd) hf es e hr _ hassign)
    | true => exact (Nat.add_eq_zero_iff.1 (hs.fresh hd)).2
  · omega

end

/-! ## Passes that keep track -/

/-- A pass with `n` declaring nodes inside keeps track of what executions assign. -/
structure Tracks (deadless forkless closed : Prop) (n : Nat) (p : Pass) (r : Runs) : Prop extends Framed n p r where
  live : ∀ {s es}, s.exited = false → r es .normal → (p s).1.exited = false
  passed : ∀ {s es}, s.declared = false → (p s).1.declared = true → r es .normal → Declares es
  held : ∀ {s es e}, s.exited = false ∧ (e = .normal ∨ deadless) ∨ forkless → Ready n s → (p s).2 = [] → r es e →
    .assign ∈ es → (p s).1.declared = true → (p s).1.possible = true
  early : ∀ {s es e}, Ready n s → (p s).2 = [] → r es e → Early es →
    s.possible = false ∧ (closed ∨ n = 0 → s.declared = true)
  single : ∀ {s es e}, s.exited = false ∨ forkless → Ready n s → (p s).2 = [] → r es e → ¬ Twice es

namespace Tracks

section

variable {D F L : Prop} {n n' : Nat} {p p' : Pass} {r r' : Runs}

theorem mono (h : Tracks D F L n p r) (hn : n ≤ n') : Tracks D F L n' p r where
  toFramed := h.toFramed.mono hn
  live := h.live
  passed := h.passed
  held hs hready := h.held hs (hready.mono hn)
  early hready hf hr hes := (h.early (hready.mono hn) hf hr hes).imp_right fun hd hn' => hd (hn'.imp_right (by omega))
  single hs hready := h.single hs (hready.mono hn)

theorem imp {D' F' L' : Prop} (h : Tracks D F L n p r) (hD : D' → D) (hF : F' → F) (hL : L' → L) :
    Tracks D' F' L' n p r where
  toFramed := h.toFramed
  live := h.live
  passed := h.passed
  held hs := h.held (hs.imp (And.imp_right (Or.imp_right hD)) hF)
  early hready hf hr hes := (h.early hready hf hr hes).imp_right fun hd hn => hd (hn.imp_left hL)
  single hs := h.single (hs.imp_right hF)

/-- What a part without hidden assignments assigns is possible after it, however it ends. -/
theorem held_of_live (h : Tracks True F L n p r) {s : FlowState} {es : List Event} {e : Ending}
    (hs : s.exited = false ∨ F) (hready : Ready n s) (hf : (p s).2 = []) (hr : r es e) (hassign : .assign ∈ es)
    (hd : (p s).1.declared = true) : (p s).1.possible = true :=
  h.held (hs.imp_left fun hs => ⟨hs, Or.inr trivial⟩) hready hf hr hassign hd

/-- Parts that do not assign have nothing to keep track of. -/
theorem of_not_assign (h : Framed n p r) (live : ∀ {s es}, s.exited = false → r es .normal → (p s).1.exited = false)
    (passed : ∀ {s es}, s.declared = false → (p s).1.declared = true → r es .normal → Declares es)
    (hassign : ∀ {s es e}, Ready n s → (p s).2 = [] → r es e → .assign ∉ es) : Tracks D F L n p r where
  toFramed := h
  live := live
  passed := passed
  held _ hready hf hr hmem _ := absurd hmem (hassign hready hf hr)
  early hready hf hr hes := absurd hes.assign_mem (hassign hready hf hr)
  single _ hready hf hr hes := absurd hes.assign_mem (hassign hready hf hr)

theorem skip : Tracks D F L 0 .skip skip := by
  refine of_not_assign .skip (fun hs _ => hs) (fun hs hs' _ => absurd (hs.symm.trans hs') nofun) ?_
  rintro s es e - - ⟨rfl, -⟩
  exact List.not_mem_nil

theorem exit {ending : Ending} (hending : ending ≠ .normal) : Tracks D F L 0 (.change .exit) (jump ending) := by
  refine of_not_assign (.exit ending) (fun _ hr => absurd hr.2.symm hending)
    (fun _ _ hr => absurd hr.2.symm hending) ?_
  rintro s es e - - ⟨rfl, -⟩
  exact List.not_mem_nil

theorem throwing (h : Tracks D F L n p r) (may : Prop) : Tracks D F L n p (throwing may r) where
  toFramed := h.toFramed.throwing may
  live hs hr := h.live hs (of_throwing_normal hr)
  passed hs hs' hr := h.passed hs hs' (of_throwing_normal hr)
  held := by
    rintro s es e hs hready hf (hr | ⟨-, -, rfl | hr⟩) hassign hd
    · exact h.held hs hready hf hr hassign hd
    · exact absurd hassign List.not_mem_nil
    · exact h.held (hs.imp_left (And.imp_right fun _ => Or.inl rfl)) hready hf hr hassign hd
  early := by
    intro s es e hready hf hr hes
    rcases of_throwing hr with rfl | ⟨e', hr⟩
    · exact absurd hes id
    · exact h.early hready hf hr hes
  single := by
    intro s es e hs hready hf hr
    rcases of_throwing hr with rfl | ⟨e', hr⟩
    · exact id
    · exact h.single hs hready hf hr

theorem andThen (h : Tracks D F L n p r) (h' : Tracks D F L n' p' r') :
    Tracks D F L (n + n') (p.andThen p') (Seq r r') where
  toFramed := h.toFramed.andThen h'.toFramed
  live := by
    intro s es hs hr
    obtain ⟨es₁, es₂, -, hr, hr'⟩ := seq_normal hr
    exact h'.live (h.live hs hr) hr'
  passed := by
    intro s es hs hs' hr
    obtain ⟨es₁, es₂, rfl, hr, hr'⟩ := seq_normal hr
    cases hd : (p s).1.declared with
    | true => exact (h.passed hs hd hr).append_right _
    | false => exact (h'.passed hd hs' hr').append_left _
  held := by
    intro s es e hs hready hf hr hassign hd
    obtain ⟨hf, hf'⟩ := List.append_eq_nil_iff.1 hf
    -- What the first part assigns stays possible; it is past the declaration then, and the second part is too.
    have hfirst {es e} (hs : s.exited = false ∧ (e = .normal ∨ D) ∨ F) (hr : r es e) (hassign : .assign ∈ es) :
        (p' (p s).1).1.possible = true := by
      have hn' := h.eq_zero_of_assign hready hf hr hassign
      have hd' : (p s).1.declared = true := (h'.declared hn' _).symm.trans hd
      exact h'.possible _ (h.held hs (hready.mono (Nat.le_add_right _ _)) hf hr hassign hd')
    cases hr with
    | stop hr _ => exact hfirst hs hr hassign
    | go hr hr' =>
      rcases List.mem_append.1 hassign with hassign | hassign
      · exact hfirst (hs.imp_left (And.imp_right fun _ => Or.inl rfl)) hr hassign
      · exact h'.held (hs.imp_left (And.imp_left fun hlive => h.live hlive hr)) (h.ready hready) hf' hr' hassign hd
  early := by
    intro s es e hready hf hr hes
    obtain ⟨hf, hf'⟩ := List.append_eq_nil_iff.1 hf
    have hfirst {es e} (hr : r es e) (hes : Early es) :
        s.possible = false ∧ (L ∨ n + n' = 0 → s.declared = true) :=
      (h.early (hready.mono (Nat.le_add_right _ _)) hf hr hes).imp_right fun hd hn => hd (hn.imp_right (by omega))
    cases hr with
    | stop hr _ => exact hfirst hr hes
    | go hr hr' =>
      rcases early_append.1 hes with hes | ⟨hdeclares, hes⟩
      · exact hfirst hr hes
      · obtain ⟨hpossible, hd⟩ := h'.early (h.ready hready) hf' hr' hes
        refine ⟨Bool.eq_false_iff.2 fun hs => Bool.eq_false_iff.1 hpossible (h.possible s hs), fun hn => ?_⟩
        have hd := hd (hn.imp_right (by omega))
        exact Bool.of_not_eq_false fun hs => hdeclares (h.passed hs hd hr)
  single := by
    intro s es e hs hready hf hr
    obtain ⟨hf, hf'⟩ := List.append_eq_nil_iff.1 hf
    have hready' := hready.mono (Nat.le_add_right n n')
    cases hr with
    | stop hr _ => exact h.single hs hready' hf hr
    | go hr hr' =>
      intro hes
      rcases twice_append hes with hes | hes | ⟨hassign, hes⟩
      · exact h.single hs hready' hf hr hes
      · exact h'.single (hs.imp_left fun hlive => h.live hlive hr) (h.ready hready) hf' hr' hes
      · obtain ⟨hpossible, hd⟩ := h'.early (h.ready hready) hf' hr' hes
        have hd := hd (Or.inr (h.eq_zero_of_assign hready hf hr hassign))
        have hheld := h.held (hs.imp_left fun hlive => ⟨hlive, Or.inl rfl⟩) hready' hf hr hassign hd
        exact absurd (hpossible.symm.trans hheld) nofun

/-- A body of its own. -/
theorem nested (h : Tracks D F L n p r) : Tracks D F L n p.nested (contained r) where
  toFramed := h.toFramed.nested
  live hs _ := hs
  passed hs hs' _ := absurd (hs.symm.trans hs') nofun
  held := by
    rintro s es e - hready hf ⟨-, e', hr⟩ hassign hd
    exact absurd rfl (h.quiet (hready.fresh hd) s.withBarrier (Or.inl rfl) hf es e' hr _ hassign)
  early := by
    rintro s es e hready hf ⟨-, e', hr⟩ hes
    have hstart : Ready n s.withBarrier := hready.congr rfl
    have hearly := h.early hstart hf hr hes
    exact hearly
  single := by
    rintro s es e hs hready hf ⟨-, e', hr⟩
    have hstart : Ready n s.withBarrier := hready.congr rfl
    have hlive : s.withBarrier.exited = false ∨ F := hs
    exact h.single hlive hstart hf hr

end

section

variable {D F L : Prop} {ι : Type} {l : List ι} {n : ι → Nat} {p : ι → Pass} {r : ι → Runs} {n' : Nat} {p' : Pass}
  {r' : Runs}

theorem all (h : ∀ i ∈ l, Tracks D F L (n i) (p i) (r i)) :
    Tracks D F L (l.map n).sum (.all (l.map p)) (all (l.map r)) := by
  induction l with
  | nil => exact skip
  | cons i l ih =>
    obtain ⟨hi, hl⟩ := List.forall_mem_cons.1 h
    exact andThen hi (ih hl)

/-! ### Forks -/

/-- Alternatives. A fork with no way on forgets what its branches assign, and so does every fork past a jump. -/
theorem fork (h : ∀ i ∈ l, Tracks D F L (n i) (p i) (r i))
    (hdead : D → (∀ es, ¬ oneOf (l.map r) es .normal) → (oneOf (l.map r)).Only (· ≠ .assign))
    (hfork : F → (oneOf (l.map r)).Only (· ≠ .assign)) :
    Tracks D F L (l.map n).sum (.fork (l.map p)) (oneOf (l.map r)) := by
  have hframed : Framed (l.map n).sum (.fork (l.map p)) (oneOf (l.map r)) := .fork fun i hi => (h i hi).toFramed
  -- A fork runs one of its branches or, without any, nothing.
  have hcases {es e} (hr : oneOf (l.map r) es e) : es = [] ∧ l = [] ∨ ∃ i ∈ l, r i es e := by
    rcases hr with ⟨hl, rfl, -⟩ | ⟨r', hr', hr⟩
    · exact Or.inl ⟨rfl, List.map_eq_nil_iff.1 hl⟩
    · obtain ⟨i, hi, rfl⟩ := List.mem_map.1 hr'
      exact Or.inr ⟨i, hi, hr⟩
  have hready {s} (hready : Ready (l.map n).sum s) {i} (hi : i ∈ l) : Ready (n i) s := hready.mono (le_sum hi)
  have hfindings {s} (hf : (Pass.fork (l.map p) s).2 = []) {i} (hi : i ∈ l) : (p i s).2 = [] := by
    rw [fork_eq] at hf
    exact List.flatMap_eq_nil_iff.1 hf i hi
  have hlive {s es i} (hs : s.exited = false) (hi : i ∈ l) (hr : r i es .normal) :
      (Pass.fork (l.map p) s).1.exited = false := by
    rw [fork_eq]
    exact congrArg FlowState.exited (s.join_of_live (List.mem_map_of_mem hi) ((h i hi).live hs hr))
  constructor
  case toFramed => exact hframed
  case live =>
    intro s es hs hr
    rcases hcases hr with ⟨-, rfl⟩ | ⟨i, hi, hr⟩
    · exact hs
    · exact hlive hs hi hr
  case passed =>
    intro s es hs hs' _
    rw [fork_eq, FlowState.declared_join] at hs'
    exact absurd (hs.symm.trans hs') nofun
  case held =>
    intro s es e hs hready' hf hr hassign hd
    rw [fork_eq, FlowState.declared_join] at hd
    have hzero := hready'.fresh hd
    rcases hcases hr with ⟨rfl, -⟩ | ⟨i, hi, hri⟩
    · exact absurd hassign List.not_mem_nil
    have hsome {j} (hj : j ∈ l) (hlive : (p j s).1.exited = false) : (Pass.fork (l.map p) s).1.possible = true := by
      have hd' := ((h i hi).declared (eq_zero_of_sum hzero hi) s).trans hd
      have hheld := (h i hi).held hs (hready hready' hi) (hfindings hf hi) hri hassign hd'
      rw [fork_eq, s.join_of_live (List.mem_map_of_mem hj) hlive]
      exact Bool.or_eq_true_iff.2 (Or.inr (List.any_eq_true.2 ⟨_, List.mem_map_of_mem hi, hheld⟩))
    rcases hs with ⟨hs, hend⟩ | hF
    · by_cases hany : ∃ j ∈ l, (p j s).1.exited = false
      · obtain ⟨j, hj, hany⟩ := hany
        exact hsome hj hany
      · have hstop : ∀ es, ¬ oneOf (l.map r) es .normal := by
          intro es' hr'
          rcases hcases hr' with ⟨-, rfl⟩ | ⟨j, hj, hr'⟩
          · exact List.not_mem_nil hi
          · exact hany ⟨j, hj, (h j hj).live hs hr'⟩
        have hD : D := hend.resolve_left fun he => hstop es (he ▸ hr)
        exact absurd rfl (hdead hD hstop es e hr _ hassign)
    · exact absurd rfl (hfork hF es e hr _ hassign)
  case early =>
    intro s es e hready' hf hr hes
    rcases hcases hr with ⟨rfl, -⟩ | ⟨i, hi, hr⟩
    · exact absurd hes id
    · refine ((h i hi).early (hready hready' hi) (hfindings hf hi) hr hes).imp_right fun hd hn => hd ?_
      exact hn.imp_right fun hzero => eq_zero_of_sum hzero hi
  case single =>
    intro s es e hs hready' hf hr
    rcases hcases hr with ⟨rfl, -⟩ | ⟨i, hi, hr⟩
    · exact id
    · exact (h i hi).single hs (hready hready' hi) (hfindings hf hi) hr

/-! ### Loops -/

section

variable {s : FlowState} {es : List Event} {e : Ending}

/-- The parts of a loop do not assign where the declaration stands outside of it. -/
theorem not_assign_rounds (h : ∀ i ∈ l, Tracks D F True (n i) (p i) (r i)) (hn : (l.map n).sum = 0)
    (hf : (Pass.all (l.map p) s.withBarrier).2 = []) (hr : Rounds (l.map r) es e) : .assign ∉ es := by
  have hquiet := Framed.quiet_of_mem (fun i hi => (h i hi).toFramed) hn (Or.inl rfl) hf
  exact fun hassign => only_rounds (List.forall_mem_map.2 hquiet) es e hr _ hassign rfl

/-- A round through the first parts of a loop assigns only past a declaration in that round, and not twice. -/
theorem round (h : ∀ i ∈ l, Tracks D F True (n i) (p i) (r i)) (hready : Ready (l.map n).sum s)
    (hf : (Pass.all (l.map p) s.withBarrier).2 = []) (i : Nat) (hr : Runs.all ((l.map r).take i) es e) :
    ¬ Early es ∧ (s.exited = false ∨ F → ¬ Twice es) := by
  have htake := all fun j (hj : j ∈ l.take i) => h j (List.mem_of_mem_take hj)
  have hle := sum_take_le l n i
  have hstart : Ready ((l.take i).map n).sum s.withBarrier := (hready.mono hle).congr rfl
  have hf' : (Pass.all ((l.take i).map p) s.withBarrier).2 = [] := by
    rw [List.map_take]
    exact findings_take hf i
  rw [← List.map_take] at hr
  constructor
  · intro hes
    have hd := (htake.early hstart hf' hr hes).2 (Or.inl trivial)
    exact htake.quiet (hstart.fresh hd) s.withBarrier (Or.inl rfl) hf' es e hr _ hes.assign_mem rfl
  · intro hs
    have hs' : s.withBarrier.exited = false ∨ F := hs
    exact htake.single hs' hstart hf' hr

theorem rounds (h : ∀ i ∈ l, Tracks D F True (n i) (p i) (r i)) (hready : Ready (l.map n).sum s)
    (hf : (Pass.all (l.map p) s.withBarrier).2 = []) (hr : Rounds (l.map r) es e) :
    ¬ Early es ∧ (s.exited = false ∨ F → ¬ Twice es) := by
  have hall {es e} (hr : Runs.all (l.map r) es e) : ¬ Early es ∧ (s.exited = false ∨ F → ¬ Twice es) := by
    rw [← List.take_length (l := l.map r)] at hr
    exact round h hready hf _ hr
  induction hr with
  | last i hr => exact round h hready hf i hr
  | again hr _ _ ih =>
    obtain ⟨hearly, htwice⟩ := hall hr
    constructor
    · intro hes
      rcases early_append.1 hes with hes | ⟨-, hes⟩
      · exact hearly hes
      · exact ih.1 hes
    · intro hs hes
      rcases twice_append hes with hes | hes | ⟨-, hes⟩
      · exact htwice hs hes
      · exact ih.2 hs hes
      · exact ih.1 hes
  | stop hr _ => exact hall hr

end

/-- A loop with what follows it. -/
theorem loop (h : ∀ i ∈ l, Tracks D F True (n i) (p i) (r i)) (h' : Tracks D F L n' p' r') :
    Tracks D F L ((l.map n).sum + n') ((Pass.loop (.all (l.map p))).andThen p'.interruptible)
      (Loop (l.map r) r') where
  toFramed := Framed.loop (fun i hi => (h i hi).toFramed) h'.toFramed
  live hs _ := hs
  passed hs hs' _ := absurd (hs.symm.trans hs') nofun
  held := by
    intro s es e hs hready hf hr hassign hd
    obtain ⟨hf, hf'⟩ := List.append_eq_nil_iff.1 hf
    obtain ⟨hn, hn'⟩ := Nat.add_eq_zero_iff.1 (hready.fresh hd)
    cases hr with
    | done hr hr' =>
      have hassign := (List.mem_append.1 hassign).resolve_left (not_assign_rounds h hn hf hr)
      have hstart : Ready n' (Pass.loop (.all (l.map p)) s).1 := (hready.mono (Nat.le_add_left _ _)).congr rfl
      have hd' := (h'.declared hn' (Pass.loop (.all (l.map p)) s).1).trans hd
      have hs' : (Pass.loop (.all (l.map p)) s).1.exited = false ∧ (e = .normal ∨ D) ∨ F := hs
      exact h'.held hs' hstart hf' hr' hassign hd'
    | broke hr | left hr => exact absurd hassign (not_assign_rounds h hn hf hr)
  early := by
    intro s es e hready hf hr hes
    obtain ⟨hf, hf'⟩ := List.append_eq_nil_iff.1 hf
    have hrounds {es e} (hr : Rounds (l.map r) es e) := (rounds h (hready.mono (Nat.le_add_right _ _)) hf hr).1
    cases hr with
    | done hr hr' =>
      obtain ⟨-, hes⟩ := (early_append.1 hes).resolve_left (hrounds hr)
      have hstart : Ready n' (Pass.loop (.all (l.map p)) s).1 := (hready.mono (Nat.le_add_left _ _)).congr rfl
      obtain ⟨hpossible, hd⟩ := h'.early hstart hf' hr' hes
      exact ⟨(Bool.or_eq_false_iff.1 hpossible).1, fun hn => hd (hn.imp_right fun hn => (Nat.add_eq_zero_iff.1 hn).2)⟩
    | broke hr | left hr => exact absurd hes (hrounds hr)
  single := by
    intro s es e hs hready hf hr
    obtain ⟨hf, hf'⟩ := List.append_eq_nil_iff.1 hf
    have hrounds {es e} (hr : Rounds (l.map r) es e) := (rounds h (hready.mono (Nat.le_add_right _ _)) hf hr).2 hs
    cases hr with
    | done hr hr' =>
      have hstart : Ready n' (Pass.loop (.all (l.map p)) s).1 := (hready.mono (Nat.le_add_left _ _)).congr rfl
      have hs' : (Pass.loop (.all (l.map p)) s).1.exited = false ∨ F := hs
      intro hes
      rcases twice_append hes with hes | hes | ⟨hassign, hes⟩
      · exact hrounds hr hes
      · exact h'.single hs' hstart hf' hr' hes
      · -- The rounds assign past a declaration of their own, and the clause after them past one before the loop.
        have hn : (l.map n).sum ≠ 0 := fun hn => not_assign_rounds h hn hf hr hassign
        have honce := hready.once
        have hd : s.declared = true := (h'.early hstart hf' hr' hes).2 (Or.inr (by omega))
        exact hn (Nat.add_eq_zero_iff.1 (hready.fresh hd)).1
    | broke hr | left hr => exact hrounds hr

/-! ### Try statements -/

/-- Clauses of which one runs, the pass going through all of them. -/
theorem clauses (h : ∀ i ∈ l, Tracks D F L (n i) (p i) (r i)) :
    Tracks D F L (l.map n).sum (.all (l.map fun i => (p i).interruptible)) (oneOf (l.map r)) := by
  induction l with
  | nil =>
    rw [List.map_nil, List.map_nil, List.map_nil, oneOf_nil]
    exact skip
  | cons i l ih =>
    have hframed := Framed.clauses fun j hj => (h j hj).toFramed
    obtain ⟨hi, hl⟩ := List.forall_mem_cons.1 h
    have hrest := ih hl
    -- The later clauses start where the first one, which does not run, has been gone through.
    have hpast {s} (hready : Ready ((i :: l).map n).sum s) : Ready (l.map n).sum ((p i).interruptible s).1 :=
      (hready.mono (Nat.le_add_left _ _)).congr rfl
    have hfirst {s} (hready : Ready ((i :: l).map n).sum s) : Ready (n i) s := hready.mono (Nat.le_add_right _ _)
    constructor
    case toFramed => exact hframed
    case live =>
      intro s es hs _
      exact (clauses_keep (i :: l) p s).1.trans hs
    case passed =>
      intro s es hs hs' _
      rw [(clauses_keep (i :: l) p s).2.1] at hs'
      exact absurd (hs.symm.trans hs') nofun
    case held =>
      intro s es e hs hready hf hr hassign hd
      obtain ⟨hf, hf'⟩ := List.append_eq_nil_iff.1 hf
      rcases oneOf_cons hr with hr | hr
      · have hds : s.declared = true := (clauses_keep (i :: l) p s).2.1.symm.trans hd
        have hd' := (hi.declared ((hfirst hready).fresh hds) s).trans hds
        exact hrest.possible _ (hi.held hs (hfirst hready) hf hr hassign hd')
      · have hs' : ((p i).interruptible s).1.exited = false ∧ (e = .normal ∨ D) ∨ F := hs
        exact hrest.held hs' (hpast hready) hf' hr hassign hd
    case early =>
      intro s es e hready hf hr hes
      obtain ⟨hf, hf'⟩ := List.append_eq_nil_iff.1 hf
      rcases oneOf_cons hr with hr | hr
      · refine (hi.early (hfirst hready) hf hr hes).imp_right fun hd hn => hd ?_
        exact hn.imp_right fun hn => (Nat.add_eq_zero_iff.1 hn).1
      · obtain ⟨hpossible, hd⟩ := hrest.early (hpast hready) hf' hr hes
        refine ⟨Bool.eq_false_iff.2 fun hs => Bool.eq_false_iff.1 hpossible (hi.possible s hs), fun hn => hd ?_⟩
        exact hn.imp_right fun hn => (Nat.add_eq_zero_iff.1 hn).2
    case single =>
      intro s es e hs hready hf hr
      obtain ⟨hf, hf'⟩ := List.append_eq_nil_iff.1 hf
      rcases oneOf_cons hr with hr | hr
      · exact hi.single hs (hfirst hready) hf hr
      · have hs' : ((p i).interruptible s).1.exited = false ∨ F := hs
        exact hrest.single hs' (hpast hready) hf' hr

/-- A block that may be abandoned for one of several clauses. Nothing may be hidden in it, for the clauses come after
whatever it has assigned. -/
theorem guarded (h' : Tracks True F L n' p' r') (h : ∀ i ∈ l, Tracks D F L (n i) (p i) (r i)) :
    Tracks D F L (n' + (l.map n).sum) (p'.interruptible.andThen (.all (l.map fun i => (p i).interruptible)))
      (Guarded r' (l.map r)) := by
  have hclauses := clauses h
  have hkeep (s : FlowState) := clauses_keep l p (p'.interruptible s).1
  have hblock {s} (hready : Ready (n' + (l.map n).sum) s) : Ready n' s := hready.mono (Nat.le_add_right _ _)
  have hstart {s} (hready : Ready (n' + (l.map n).sum) s) : Ready (l.map n).sum (p'.interruptible s).1 :=
    (hready.mono (Nat.le_add_left _ _)).congr rfl
  have hone {c es e} (hmem : c ∈ l.map r) (hc : c es e) : oneOf (l.map r) es e := Or.inr ⟨c, hmem, hc⟩
  -- What the block has assigned before it ends or is abandoned is possible in the clauses.
  have hassigned {s es rest e} (hs : s.exited = false ∨ F) (hready : Ready (n' + (l.map n).sum) s)
      (hf : (p' s).2 = []) (hr : r' (es ++ rest) e) (hassign : .assign ∈ es) (hd : s.declared = true) :
      (p'.interruptible s).1.possible = true := by
    have hd' := (h'.declared ((hblock hready).fresh hd) s).trans hd
    exact h'.held_of_live hs (hblock hready) hf hr (List.mem_append_left _ hassign) hd'
  constructor
  case toFramed => exact Framed.guarded hclauses.toFramed h'.toFramed
  case live =>
    intro s es hs _
    exact (hkeep s).1.trans hs
  case passed =>
    intro s es hs hs' _
    exact absurd (hs.symm.trans ((hkeep s).2.1.symm.trans hs')) nofun
  case held =>
    intro s es e hs hready hf hr hassign hd
    obtain ⟨hf, hf'⟩ := List.append_eq_nil_iff.1 hf
    have hds : s.declared = true := (hkeep s).2.1.symm.trans hd
    cases hr with
    | through hr =>
      rw [← List.append_nil es] at hr
      exact hclauses.possible _ (hassigned (hs.imp_left And.left) hready hf hr hassign hds)
    | caught hr hmem hr' =>
      rcases List.mem_append.1 hassign with hassign | hassign
      · exact hclauses.possible _ (hassigned (hs.imp_left And.left) hready hf hr hassign hds)
      · have hassign := (List.mem_cons.1 hassign).resolve_left nofun
        exact hclauses.held hs (hstart hready) hf' (hone hmem hr') hassign hd
  case early =>
    intro s es e hready hf hr hes
    obtain ⟨hf, hf'⟩ := List.append_eq_nil_iff.1 hf
    have hfirst {es e} (hr : r' es e) (hes : Early es) :
        s.possible = false ∧ (L ∨ n' + (l.map n).sum = 0 → s.declared = true) := by
      refine (h'.early (hblock hready) hf hr hes).imp_right fun hd hn => hd ?_
      exact hn.imp_right fun hn => (Nat.add_eq_zero_iff.1 hn).1
    cases hr with
    | through hr => exact hfirst hr hes
    | caught hr hmem hr' =>
      rcases early_append.1 hes with hes | ⟨-, hes⟩
      · exact hfirst hr (early_append.2 (Or.inl hes))
      · obtain ⟨hpossible, hd⟩ := hclauses.early (hstart hready) hf' (hone hmem hr') hes
        refine ⟨Bool.eq_false_iff.2 fun hs => Bool.eq_false_iff.1 hpossible (h'.possible s hs), fun hn => hd ?_⟩
        exact hn.imp_right fun hn => (Nat.add_eq_zero_iff.1 hn).2
  case single =>
    intro s es e hs hready hf hr
    obtain ⟨hf, hf'⟩ := List.append_eq_nil_iff.1 hf
    cases hr with
    | through hr => exact h'.single hs (hblock hready) hf hr
    | caught hr hmem hr' =>
      intro hes
      rcases twice_append hes with hes | hes | ⟨hassign, hes⟩
      · exact h'.single hs (hblock hready) hf hr (hes.append _)
      · have hs' : (p'.interruptible s).1.exited = false ∨ F := hs
        exact hclauses.single hs' (hstart hready) hf' (hone hmem hr') hes
      · obtain ⟨hpossible, hd⟩ := hclauses.early (hstart hready) hf' (hone hmem hr') hes
        have hn := h'.eq_zero_of_assign hready hf hr (List.mem_append_left _ hassign)
        have hheld := hassigned hs hready hf hr hassign (hd (Or.inr hn))
        exact absurd (hpossible.symm.trans hheld) nofun

end

section

variable {D F L : Prop} {n n' : Nat} {p p' : Pass} {r r' : Runs}

/-- A finally clause. What is before it may take back that it has left and what it has declared. Otherwise, if it never
ends normally, the finally clause starts past a jump and may not fork; and if a jump out of it may go past a declaration
that its state has passed, then, in a part that is closed, the finally clause may not assign. -/
theorem attemptFinally (h : Tracks True F L n p r) (h' : Tracks D F L n' p' r')
    (hblock : (∀ s, (p s).1.exited = s.exited ∧ (p s).1.declared = s.declared) ∨
      ((∀ es, ¬ r es .normal) → Tracks D True L n' p' r') ∧
        (L → n ≠ 0 → (∀ es e, r es e → e ≠ .normal → Declares es) ∨ r'.Only (· ≠ .assign))) :
    Tracks D F L (n + n') (p.andThen p'.keepDeclared) (Finally r r') := by
  have hfirst {s} (hready : Ready (n + n') s) : Ready n s := hready.mono (Nat.le_add_right _ _)
  -- The finally clause starts in a live state, or it may be without forks.
  have hstart {s : FlowState} {e : Ending} (hs : s.exited = false ∧ (e = .normal ∨ D) ∨ F) :
      ∃ F', ((p s).1.exited = false ∧ (e = .normal ∨ D) ∨ F') ∧ Tracks D F' L n' p' r' := by
    rcases hs with ⟨hs, hend⟩ | hF
    · by_cases hlive : (p s).1.exited = false
      · exact ⟨F, Or.inl ⟨hlive, hend⟩, h'⟩
      · rcases hblock with hkeep | ⟨hjump, -⟩
        · exact absurd ((hkeep s).1.trans hs) hlive
        · exact ⟨True, Or.inr trivial, hjump fun es hr => hlive (h.live hs hr)⟩
    · exact ⟨F, Or.inr hF, h'⟩
  constructor
  case toFramed => exact h.toFramed.attemptFinally h'.toFramed
  case live =>
    intro s es hs hr
    obtain ⟨es₁, es₂, -, hr, hr'⟩ := finally_normal hr
    exact h'.live (h.live hs hr) hr'
  case passed =>
    intro s es hs hs' hr
    obtain ⟨es₁, es₂, rfl, hr, -⟩ := finally_normal hr
    exact (h.passed hs hs' hr).append_right _
  case held =>
    rintro s _ _ hs hready hf @⟨es, es', e, e', hr, hr'⟩ hassign hd
    obtain ⟨hf, hf'⟩ := List.append_eq_nil_iff.1 hf
    rcases List.mem_append.1 hassign with hassign | hassign
    · exact h'.possible _ (h.held_of_live (hs.imp_left And.left) (hfirst hready) hf hr hassign hd)
    · have hassign := (List.mem_cons.1 hassign).resolve_left nofun
      have hd' := (h'.declared ((h.ready hready).fresh hd) (p s).1).trans hd
      have hend (h : (if e' = .normal then e else e') = .normal) : e' = .normal := by
        split at h
        · assumption
        · exact h
      obtain ⟨F', hs', h''⟩ := hstart (hs.imp_left (And.imp_right (Or.imp_left hend)))
      exact h''.held hs' (h.ready hready) hf' hr' hassign hd'
  case early =>
    rintro s _ _ hready hf @⟨es, es', e, e', hr, hr'⟩ hes
    obtain ⟨hf, hf'⟩ := List.append_eq_nil_iff.1 hf
    rcases early_append.1 hes with hes | ⟨hdeclares, hes⟩
    · refine (h.early (hfirst hready) hf hr hes).imp_right fun hd hn => hd ?_
      exact hn.imp_right fun hn => (Nat.add_eq_zero_iff.1 hn).1
    · have hes : Early es' := hes
      obtain ⟨hpossible, hd⟩ := h'.early (h.ready hready) hf' hr' hes
      refine ⟨Bool.eq_false_iff.2 fun hs => Bool.eq_false_iff.1 hpossible (h.possible s hs), fun hn => ?_⟩
      have hd := hd (hn.imp_right fun hn => (Nat.add_eq_zero_iff.1 hn).2)
      rcases Nat.eq_zero_or_pos n with hzero | hpos
      · exact (h.declared hzero s).symm.trans hd
      · rcases hblock with hkeep | ⟨-, hleak⟩
        · exact (hkeep s).2.symm.trans hd
        have hL := hn.resolve_right fun hn => absurd (Nat.add_eq_zero_iff.1 hn).1 (Nat.ne_of_gt hpos)
        rcases hleak hL (Nat.ne_of_gt hpos) with hdeclares' | hassign
        · refine Bool.of_not_eq_false fun hs => hdeclares ?_
          by_cases he : e = .normal
          · exact h.passed hs hd (he ▸ hr)
          · exact hdeclares' es e hr he
        · exact absurd rfl (hassign es' e' hr' _ hes.assign_mem)
  case single =>
    rintro s _ _ hs hready hf @⟨es, es', e, e', hr, hr'⟩ hes
    obtain ⟨hf, hf'⟩ := List.append_eq_nil_iff.1 hf
    rcases twice_append hes with hes | hes | ⟨hassign, hes⟩
    · exact h.single hs (hfirst hready) hf hr hes
    · obtain ⟨F', hs', h''⟩ := hstart (e := .normal) (hs.imp_left fun hs => ⟨hs, Or.inl rfl⟩)
      exact h''.single (hs'.imp_left And.left) (h.ready hready) hf' hr' hes
    · obtain ⟨hpossible, hd⟩ := h'.early (h.ready hready) hf' hr' hes
      have hd := hd (Or.inr (h.eq_zero_of_assign hready hf hr hassign))
      have hheld := h.held_of_live hs (hfirst hready) hf hr hassign hd
      exact absurd (hpossible.symm.trans hheld) nofun

/-! ## Where the target is named -/

theorem read (id : NodeId) : Tracks D F L 0 (Assignment.read id) (event (.read id)) := by
  refine of_not_assign (.read id) (fun {s _} hs _ => ?_) (fun {s _} hs hs' _ => ?_) ?_
  · rwa [Assignment.fst_read]
  · rw [Assignment.fst_read] at hs'
    exact absurd (hs.symm.trans hs') nofun
  · rintro s es e - - ⟨rfl, -⟩
    exact nofun

/-- A specifier of the target whose value assigns nothing. -/
theorem specify {target : DeclId} {id m : NodeId} {left value : Option Subnode}
    (hleft : Assignment.specifies target left = true) (hread : Subnode.slot left = Assignment.read m)
    (h : Tracks D F L n (Subnode.slot value) r) (hvalue : r.Only (· ≠ .assign)) :
    Tracks D F L n (Assignment.specify target id left value) (Runs.all [event (.specify id), r, event .assign]) := by
  have hcases (s : FlowState) := specify_cases hleft hread id value s
  constructor
  case toFramed => exact Framed.specify hleft hread h.toFramed
  case live =>
    intro s es hs hr
    rcases hcases s with ⟨heq, -⟩ | ⟨-, -, -, heq, -⟩
    · rwa [heq]
    · rw [heq]
      rcases specify_runs hr with ⟨es', -, -, hne⟩ | ⟨es', -, hr, -⟩
      · exact absurd rfl hne
      · exact h.live hs hr
  case passed =>
    intro s es hs hs' _
    rcases hcases s with ⟨heq, -⟩ | ⟨hd, -⟩
    · rw [heq] at hs'
      exact absurd (hs.symm.trans hs') nofun
    · exact absurd (hs.symm.trans hd) nofun
  case held =>
    intro s es e _ _ hf _ _ _
    obtain ⟨-, -, -, heq, -⟩ := (hcases s).resolve_left fun h => h.2 hf
    rw [heq]
    rfl
  case early =>
    intro s es e _ hf _ _
    obtain ⟨hd, -, hpossible, -⟩ := (hcases s).resolve_left fun h => h.2 hf
    exact ⟨hpossible, fun _ => hd⟩
  case single =>
    intro s es e _ _ _ hr hes
    have honly {es e} (hr : r es e) : ¬ Twice (.specify id :: es) := fun hes =>
      hvalue es e hr _ (Twice.assign_mem hes) rfl
    rcases specify_runs hr with ⟨es', rfl, hr, -⟩ | ⟨es', rfl, hr, -⟩
    · exact honly hr hes
    · have hes : Twice ((.specify id :: es') ++ [.assign]) := hes
      rcases twice_append hes with hes | hes | ⟨hassign, -⟩
      · exact honly hr hes
      · exact hes.elim (fun h => h) fun h => h
      · exact hvalue es' _ hr _ ((List.mem_cons.1 hassign).resolve_left nofun) rfl

/-- The declaring node of the target, whose parts are a body of their own. -/
theorem declare {k : NodeKind Subnode} (h : Framed 0 (Subnode.slots k.slots) r) (before valued : Bool) :
    Tracks D F L 1 (Assignment.declare k)
      (if before then Seq (event (.declare true)) (contained r) else Seq (contained r) (event (.declare valued))) := by
  refine of_not_assign (.declare k _) (fun {s es} hs _ => ?_) (fun {s es} _ _ hr => ?_)
    fun {s es e} _ hf hr hassign => ?_
  · rw [declare_eq]
    unfold inside
    split <;> split <;> exact hs
  · obtain ⟨es', -, -, -, rfl⟩ := declare_runs hr
    cases before with
    | true => exact ⟨true, List.mem_cons_self⟩
    | false => exact ⟨valued, List.mem_append_right _ List.mem_cons_self⟩
  · obtain ⟨es', e', hbody, -, rfl⟩ := declare_runs hr
    have hquiet := h.quiet rfl (inside k s).withBarrier (Or.inl rfl) hf es' e' hbody
    cases before with
    | true => exact hquiet _ ((List.mem_cons.1 hassign).resolve_left nofun) rfl
    | false => exact hquiet _ ((List.mem_append.1 hassign).resolve_right (by simp)) rfl

end

end Tracks

end SemCheck.Execution
