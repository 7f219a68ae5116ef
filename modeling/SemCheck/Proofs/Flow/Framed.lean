import SemCheck.Proofs.Flow.Events
import SemCheck.Proofs.Flow.Lattice

/-!
# What a pass and its executions have in common

`Agrees x k s c` says what a live flow state promises of the store when at most `k` declaring nodes of the target are
still ahead. Between states that agree there are three side conditions, collected in `Framed`: the parts without the
declaration keep what is known of it, possibility only grows, and where assigning is reported nothing is assigned.
There is one lemma for every way of putting passes together.
-/

namespace SemCheck.Execution

open Runs

/-- What a flow state promises of the store. -/
structure Agrees (x : Excuses) (k : Nat) (s : FlowState) (c : Store) : Prop where
  live : s.exited = false
  once : k ≤ 1
  ahead : 0 < k → s.declared = false ∧ s.definite = false
  declared : s.declared = true → c.declared = true
  definite : s.declared = true → s.definite = true → c.valued = true
  possible : s.declared = true → c.valued = true → s.possible = true ∨ x.catches ∧ c.caught = true

namespace Agrees

variable {x : Excuses} {k k' : Nat} {s s' : FlowState} {c : Store}

/-- Where the declaration has been passed, none is ahead. -/
theorem eq_zero (h : Agrees x k s c) (hs : s.declared = true) : k = 0 := by
  rcases Nat.eq_zero_or_pos k with hk | hk
  · exact hk
  · simp [(h.ahead hk).1] at hs

/-- Another state that knows as much, and takes at least as much for possible. -/
theorem congr (h : Agrees x k s c) (hk : k' ≤ k) (hexited : s'.exited = s.exited) (hdeclared : s'.declared = s.declared)
    (hdefinite : s'.definite = s.definite) (hpossible : s.possible = true → s'.possible = true) :
    Agrees x k' s' c where
  live := hexited.trans h.live
  once := Nat.le_trans hk h.once
  ahead hpos := by
    rw [hdeclared, hdefinite]
    exact h.ahead (Nat.lt_of_lt_of_le hpos hk)
  declared hs := h.declared (hdeclared ▸ hs)
  definite hs hd := h.definite (hdeclared ▸ hs) (hdefinite ▸ hd)
  possible hs hv := (h.possible (hdeclared ▸ hs) hv).imp_left hpossible

/-- A state that has not passed the declaration promises nothing. -/
theorem of_not_declared (h : Agrees x k s c) (hs : s.declared = false) (c' : Store) : Agrees x k s c' where
  live := h.live
  once := h.once
  ahead := h.ahead
  declared hd := by simp [hs] at hd
  definite hd := by simp [hs] at hd
  possible hd := by simp [hs] at hd

/-- Past a target that has its value there is little to promise. -/
theorem of_valued (hlive : s.exited = false) (hpossible : s.possible = true) (hdeclared : c.declared = true)
    (hvalued : c.valued = true) : Agrees x 0 s c :=
  ⟨hlive, Nat.zero_le 1, nofun, fun _ => hdeclared, fun _ _ => hvalued, fun _ _ => Or.inl hpossible⟩

/-- Events that neither declare nor assign the target. -/
theorem afterAll (h : Agrees x k s c) {es : List Event}
    (hes : s.declared = true → (∀ ev ∈ es, ∀ valued, ev ≠ .declare valued) ∧ ∀ ev ∈ es, ev ≠ .assign) :
    Agrees x k s (c.afterAll es) := by
  cases hs : s.declared with
  | false => exact h.of_not_declared hs _
  | true =>
    obtain ⟨hdeclare, hassign⟩ := hes hs
    constructor
    case live => exact h.live
    case once => exact h.once
    case ahead => exact h.ahead
    case declared => exact fun _ => Store.declared_afterAll es (h.declared hs)
    case definite => exact fun _ hd => Store.valued_afterAll hdeclare (h.definite hs hd)
    case possible =>
      intro _ hv
      rcases h.possible hs (Store.valued_of_afterAll hdeclare hassign hv) with hp | ⟨hx, hc⟩
      · exact Or.inl hp
      · exact Or.inr ⟨hx, Store.caught_afterAll hdeclare hc⟩

end Agrees

/-! ## Side conditions -/

/-- What a pass with `n` declaring nodes inside leaves as it is, and where it lets nothing be assigned. -/
structure Framed (n : Nat) (p : Pass) (r : Runs) : Prop where
  declared : n = 0 → ∀ s, (p s).1.declared = s.declared
  barrier : n = 0 → ∀ s, (p s).1.barrier = s.barrier
  possible : ∀ s, s.possible = true → (p s).1.possible = true
  silent : n = 0 → r.Only fun ev => ∀ valued, ev ≠ .declare valued
  quiet : n = 0 → ∀ s, s.barrier = true ∨ s.declared = false → (p s).2 = [] → r.Only (· ≠ .assign)

/-! ### Forks and sequences -/

theorem fork_eq {ι : Type} {l : List ι} {p : ι → Pass} (s : FlowState) :
    Pass.fork (l.map p) s = (s.join (l.map fun i => (p i s).1), l.flatMap fun i => (p i s).2) := by
  simp only [Pass.fork, List.map_map, List.flatMap_map]
  rfl

theorem findings_take {ps : List Pass} {s : FlowState} (hf : (Pass.all ps s).2 = []) (i : Nat) :
    (Pass.all (ps.take i) s).2 = [] := by
  induction ps generalizing s i with
  | nil => simpa using hf
  | cons p ps ih =>
    obtain ⟨hf, hf'⟩ := List.append_eq_nil_iff.1 hf
    cases i with
    | zero => rfl
    | succ i => exact List.append_eq_nil_iff.2 ⟨hf, ih hf' i⟩

/-- Going through clauses changes what is possible, and nothing else that is promised of the store. -/
theorem clauses_keep {ι : Type} (l : List ι) (p : ι → Pass) (s : FlowState) :
    (Pass.all (l.map fun i => (p i).interruptible) s).1.exited = s.exited ∧
      (Pass.all (l.map fun i => (p i).interruptible) s).1.declared = s.declared ∧
        (Pass.all (l.map fun i => (p i).interruptible) s).1.definite = s.definite := by
  induction l generalizing s with
  | nil => exact ⟨rfl, rfl, rfl⟩
  | cons i l ih => exact ih ((p i).interruptible s).1

namespace Framed

section

variable {n n' : Nat} {p p' : Pass} {r r' : Runs}

theorem skip : Framed 0 .skip skip where
  declared _ _ := rfl
  barrier _ _ := rfl
  possible _ hs := hs
  silent _ := only_skip
  quiet _ _ _ _ := only_skip

theorem exit (ending : Ending) : Framed 0 (.change .exit) (jump ending) where
  declared _ _ := rfl
  barrier _ _ := rfl
  possible _ hs := hs
  silent _ := only_jump _
  quiet _ _ _ _ := only_jump _

theorem mono (h : Framed n p r) (hn : n ≤ n') : Framed n' p r where
  declared hn' := h.declared (by omega)
  barrier hn' := h.barrier (by omega)
  possible := h.possible
  silent hn' := h.silent (by omega)
  quiet hn' := h.quiet (by omega)

theorem throwing (h : Framed n p r) (may : Prop) : Framed n p (throwing may r) where
  declared := h.declared
  barrier := h.barrier
  possible := h.possible
  silent hn := only_throwing (h.silent hn)
  quiet hn s hs hf := only_throwing (h.quiet hn s hs hf)

theorem interruptible (h : Framed n p r) : Framed n p.interruptible r where
  declared _ _ := rfl
  barrier := h.barrier
  possible := h.possible
  silent := h.silent
  quiet := h.quiet

/-- A body of its own: nothing leaks, and assigning is reported. -/
theorem nested (h : Framed n p r) : Framed n p.nested (contained r) where
  declared _ _ := rfl
  barrier _ _ := rfl
  possible _ hs := hs
  silent hn := only_contained (h.silent hn)
  quiet hn s _ hf := only_contained (h.quiet hn s.withBarrier (Or.inl rfl) hf)

theorem andThen (h : Framed n p r) (h' : Framed n' p' r') : Framed (n + n') (p.andThen p') (Seq r r') where
  declared hn s := by
    obtain ⟨hn, hn'⟩ := Nat.add_eq_zero_iff.1 hn
    exact (h'.declared hn' _).trans (h.declared hn s)
  barrier hn s := by
    obtain ⟨hn, hn'⟩ := Nat.add_eq_zero_iff.1 hn
    exact (h'.barrier hn' _).trans (h.barrier hn s)
  possible s hs := h'.possible _ (h.possible s hs)
  silent hn := by
    obtain ⟨hn, hn'⟩ := Nat.add_eq_zero_iff.1 hn
    exact only_seq (h.silent hn) (h'.silent hn')
  quiet hn s hs hf := by
    obtain ⟨hn, hn'⟩ := Nat.add_eq_zero_iff.1 hn
    obtain ⟨hf, hf'⟩ := List.append_eq_nil_iff.1 hf
    refine only_seq (h.quiet hn s hs hf) (h'.quiet hn' _ ?_ hf')
    rwa [h.declared hn, h.barrier hn]

/-- A finally clause, whose declarations are not kept. -/
theorem attemptFinally (h : Framed n p r) (h' : Framed n' p' r') :
    Framed (n + n') (p.andThen p'.keepDeclared) (Finally r r') where
  declared hn s := h.declared (Nat.add_eq_zero_iff.1 hn).1 s
  barrier := (h.andThen h').barrier
  possible := (h.andThen h').possible
  silent hn := by
    obtain ⟨hn, hn'⟩ := Nat.add_eq_zero_iff.1 hn
    exact only_finally (fun _ => nofun) (h.silent hn) (h'.silent hn')
  quiet hn s hs hf := by
    obtain ⟨hn, hn'⟩ := Nat.add_eq_zero_iff.1 hn
    obtain ⟨hf, hf'⟩ := List.append_eq_nil_iff.1 hf
    refine only_finally nofun (h.quiet hn s hs hf) (h'.quiet hn' _ ?_ hf')
    rwa [h.declared hn, h.barrier hn]

end

section

variable {ι : Type} {l : List ι} {n : ι → Nat} {p : ι → Pass} {r : ι → Runs} {n' : Nat} {p' : Pass} {r' : Runs}

theorem all (h : ∀ i ∈ l, Framed (n i) (p i) (r i)) : Framed (l.map n).sum (.all (l.map p)) (all (l.map r)) := by
  induction l with
  | nil => exact skip
  | cons i l ih =>
    obtain ⟨hi, hl⟩ := List.forall_mem_cons.1 h
    exact andThen hi (ih hl)

theorem fork (h : ∀ i ∈ l, Framed (n i) (p i) (r i)) : Framed (l.map n).sum (.fork (l.map p)) (oneOf (l.map r)) where
  declared _ s := s.declared_join
  barrier _ s := s.barrier_join
  possible s hs := s.possible_join hs
  silent hn := only_oneOf (List.forall_mem_map.2 fun i hi => (h i hi).silent (eq_zero_of_sum hn hi))
  quiet hn s hs hf := by
    rw [fork_eq] at hf
    refine only_oneOf (List.forall_mem_map.2 fun i hi => ?_)
    exact (h i hi).quiet (eq_zero_of_sum hn hi) s hs (List.flatMap_eq_nil_iff.1 hf i hi)

/-- Where assigning is reported before several parts, none of them assigns. -/
theorem quiet_of_mem (h : ∀ i ∈ l, Framed (n i) (p i) (r i)) (hn : (l.map n).sum = 0) {s : FlowState}
    (hs : s.barrier = true ∨ s.declared = false) (hf : (Pass.all (l.map p) s).2 = []) :
    ∀ i ∈ l, (r i).Only (· ≠ .assign) := by
  induction l generalizing s with
  | nil => exact fun i hi => absurd hi List.not_mem_nil
  | cons i l ih =>
    obtain ⟨hi, hl⟩ := List.forall_mem_cons.1 h
    obtain ⟨hn, hn'⟩ := Nat.add_eq_zero_iff.1 hn
    obtain ⟨hf, hf'⟩ := List.append_eq_nil_iff.1 hf
    refine List.forall_mem_cons.2 ⟨hi.quiet hn s hs hf, ih hl hn' ?_ hf'⟩
    rwa [hi.declared hn, hi.barrier hn]

/-- A loop with what follows it; what follows may be left out. -/
theorem loop (h : ∀ i ∈ l, Framed (n i) (p i) (r i)) (h' : Framed n' p' r') :
    Framed ((l.map n).sum + n') ((Pass.loop (.all (l.map p))).andThen p'.interruptible)
      (Loop (l.map r) r') where
  declared _ _ := rfl
  barrier hn s := h'.barrier (by omega) _
  possible s hs := h'.possible _ (by simp [FlowState.afterLoop, hs])
  silent hn := by
    obtain ⟨hn, hn'⟩ := Nat.add_eq_zero_iff.1 hn
    exact only_loop (List.forall_mem_map.2 fun i hi => (h i hi).silent (eq_zero_of_sum hn hi)) (h'.silent hn')
  quiet hn s hs hf := by
    obtain ⟨hn, hn'⟩ := Nat.add_eq_zero_iff.1 hn
    obtain ⟨hf, hf'⟩ := List.append_eq_nil_iff.1 hf
    exact only_loop (List.forall_mem_map.2 (quiet_of_mem h hn (Or.inl rfl) hf)) (h'.quiet hn' (s.afterLoop _) hs hf')

/-- Clauses of which one runs, the pass going through all of them. -/
theorem clauses (h : ∀ i ∈ l, Framed (n i) (p i) (r i)) :
    Framed (l.map n).sum (.all (l.map fun i => (p i).interruptible)) (oneOf (l.map r)) := by
  have hall := all fun i hi => (h i hi).interruptible
  constructor
  case declared => exact hall.declared
  case barrier => exact hall.barrier
  case possible => exact hall.possible
  case silent =>
    intro hn
    exact only_oneOf (List.forall_mem_map.2 fun i hi => (h i hi).silent (eq_zero_of_sum hn hi))
  case quiet =>
    intro hn s hs hf
    exact only_oneOf (List.forall_mem_map.2 (quiet_of_mem (fun i hi => (h i hi).interruptible) hn hs hf))

/-- A block that may be abandoned for one of several clauses. -/
theorem guarded {rs : List Runs} (h : Framed n' p' (oneOf rs)) {m : Nat} {q : Pass} (hblock : Framed m q r') :
    Framed (m + n') (q.interruptible.andThen p') (Guarded r' rs) := by
  have hseq := hblock.interruptible.andThen h
  constructor
  case declared => exact hseq.declared
  case barrier => exact hseq.barrier
  case possible => exact hseq.possible
  case silent =>
    intro hn
    obtain ⟨hm, hn⟩ := Nat.add_eq_zero_iff.1 hn
    apply only_guarded (fun _ => nofun) (hblock.silent hm)
    intro r hr es e hrun
    exact h.silent hn es e (Or.inr ⟨r, hr, hrun⟩)
  case quiet =>
    intro hn s hs hf
    obtain ⟨hm, hn⟩ := Nat.add_eq_zero_iff.1 hn
    obtain ⟨hf, hf'⟩ := List.append_eq_nil_iff.1 hf
    have hs' := hs.imp_left (hblock.barrier hm s).trans
    refine only_guarded nofun (hblock.quiet hm s hs hf) fun r hr es e hrun => ?_
    exact h.quiet hn _ hs' hf' es e (Or.inr ⟨r, hr, hrun⟩)

end

end Framed

/-! ## Where the target is named -/

section

variable {target : DeclId} {n : Nat} {r : Runs}

theorem of_findings_read {id : NodeId} {s : FlowState} (hf : (Assignment.read id s).2 = []) :
    s.declared = true ∧ s.definite = true := by
  unfold Assignment.read at hf
  split at hf
  · exact absurd hf (List.cons_ne_nil _ _)
  · split at hf
    · exact absurd hf (List.cons_ne_nil _ _)
    · simp_all

/-- A specifier of the target is passed over with a finding, or is allowed and assigns after its right side. -/
theorem specify_cases {m : NodeId} {left : Option Subnode} (hleft : Assignment.specifies target left = true)
    (hread : Subnode.slot left = Assignment.read m) (id : NodeId) (value : Option Subnode) (s : FlowState) :
    ((Assignment.specify target id left value s).1 = s ∧ (Assignment.specify target id left value s).2 ≠ []) ∨
      s.declared = true ∧ s.barrier = false ∧ s.possible = false ∧
        (Assignment.specify target id left value s).1 = (Subnode.slot value s).1.assigned ∧
          ((Assignment.specify target id left value s).2 = [] → (Subnode.slot value s).2 = []) := by
  rw [Assignment.specify, if_pos hleft, hread]
  cases hfault : Assignment.specifierFault? s with
  | some message => exact Or.inl ⟨rfl, List.cons_ne_nil _ _⟩
  | none =>
    have hs : s.declared = true ∧ s.barrier = false ∧ s.possible = false := by
      unfold Assignment.specifierFault? at hfault
      cases hd : s.declared <;> cases hb : s.barrier <;> cases hp : s.possible <;> simp_all
    exact Or.inr ⟨hs.1, hs.2.1, hs.2.2, Assignment.fst_read m _, fun hf => (List.append_eq_nil_iff.1 hf).1⟩

/-- The executions of a specifier: its value jumps, or the target is assigned after it. -/
theorem specify_runs {id : NodeId} {es : List Event} {e : Ending}
    (hr : Runs.all [event (.specify id), r, event .assign] es e) :
    (∃ es', es = .specify id :: es' ∧ r es' e ∧ e ≠ .normal) ∨
      ∃ es', es = .specify id :: (es' ++ [.assign]) ∧ r es' .normal ∧ e = .normal := by
  rcases hr with ⟨⟨-, he⟩, hne⟩ | ⟨⟨rfl, -⟩, hr⟩
  · exact absurd he hne
  rcases hr with ⟨hr, hne⟩ | ⟨hr, hr'⟩
  · exact Or.inl ⟨_, rfl, hr, hne⟩
  rcases hr' with ⟨⟨-, he⟩, hne⟩ | ⟨⟨rfl, -⟩, rfl, rfl⟩
  · exact absurd he hne
  · exact Or.inr ⟨_, rfl, hr, rfl⟩

/-- The executions of a declaration: those of a body of its own, before or after which the target is declared. -/
theorem declare_runs {before valued : Bool} {es : List Event} {e : Ending}
    (hr : (if before then Seq (event (.declare true)) (contained r)
      else Seq (contained r) (event (.declare valued))) es e) :
    ∃ es' e', r es' e' ∧ e = .normal ∧ es = if before then .declare true :: es' else es' ++ [.declare valued] := by
  cases before with
  | true =>
    rcases hr with ⟨⟨-, he⟩, hne⟩ | @⟨_, es', _, ⟨rfl, -⟩, rfl, e', hr⟩
    · exact absurd he hne
    · exact ⟨es', e', hr, rfl, rfl⟩
  | false =>
    rcases hr with ⟨⟨he, -⟩, hne⟩ | @⟨es', _, _, ⟨-, e', hr⟩, rfl, rfl⟩
    · exact absurd he hne
    · exact ⟨es', e', hr, rfl, rfl⟩

namespace Framed

theorem read (id : NodeId) : Framed 0 (Assignment.read id) (event (.read id)) where
  declared _ s := by rw [Assignment.fst_read]
  barrier _ s := by rw [Assignment.fst_read]
  possible s hs := by rwa [Assignment.fst_read]
  silent _ := only_event fun _ => nofun
  quiet _ _ _ _ := only_event nofun

theorem specify {id m : NodeId} {left value : Option Subnode} (hleft : Assignment.specifies target left = true)
    (hread : Subnode.slot left = Assignment.read m) (h : Framed n (Subnode.slot value) r) :
    Framed n (Assignment.specify target id left value) (Runs.all [event (.specify id), r, event .assign]) where
  declared hn s := by
    rcases specify_cases hleft hread id value s with ⟨hs, -⟩ | ⟨-, -, -, hs, -⟩
    · rw [hs]
    · rw [hs]
      exact h.declared hn s
  barrier hn s := by
    rcases specify_cases hleft hread id value s with ⟨hs, -⟩ | ⟨-, -, -, hs, -⟩
    · rw [hs]
    · rw [hs]
      exact h.barrier hn s
  possible s hs := by
    rcases specify_cases hleft hread id value s with ⟨hs', -⟩ | ⟨-, -, -, hs', -⟩
    · rwa [hs']
    · rw [hs']
      rfl
  silent hn := by
    have hassign : Only (fun ev => ∀ valued, ev ≠ .declare valued) (event .assign) := only_event fun _ => nofun
    exact only_seq (only_event fun _ => nofun) (only_seq (h.silent hn) (only_seq hassign only_skip))
  quiet hn s hs hf := by
    obtain ⟨hd, hb, -⟩ := (specify_cases hleft hread id value s).resolve_left fun hs => hs.2 hf
    simp [hd, hb] at hs

theorem declare (k : NodeKind Subnode) (r' : Runs) : Framed 1 (Assignment.declare k) r' where
  declared := nofun
  barrier := nofun
  possible s hs := by
    rw [declare_eq]
    unfold inside
    cases Assignment.assignedInside k <;> cases Assignment.assignedAfter k <;> first | exact hs | rfl
  silent := nofun
  quiet := nofun

end Framed

end

end SemCheck.Execution
