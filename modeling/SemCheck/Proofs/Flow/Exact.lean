import Mathlib.Data.List.Nodup
import SemCheck.Proofs.Flow.Framed
import SemCheck.Proofs.Flow.Lattice

/-!
# Passes that see every way through

What a flow state says of a point is compared with the ways that lead there. On a way some specifiers of the target are
run to their end (`executed`), of which the check may have rejected a few; a way is *bare* if it has rejected all of
them (`Bare`).

A pass is *exact* (`Exact`) for the executions of its node if, from a state that does not forbid assignments (`Open`),
it ends definitely assigned exactly if no bare way leads through the node, and reports a read as not definitely assigned
exactly if a bare way leads to it. There is one lemma for every way of putting passes together that has no loop, no try
statement and no body of its own in it. The specifiers of a part are told from those of the other parts by the node that
they are reported at, so the parts must not share nodes.
-/

namespace SemCheck

/-- A state past the declaration in which assigning is not forbidden. -/
structure FlowState.Open (s : FlowState) : Prop where
  coherent : s.Coherent
  declared : s.declared = true
  barrier : s.barrier = false

theorem FlowState.Open.after {s : FlowState} {p : Pass} (h : s.Open) (hp : p.Steady) : (p s).1.Open where
  coherent := hp.coherent s h.coherent
  declared := (hp.advances s).declared h.declared
  barrier := (hp.advances s).barrier h.barrier

namespace Execution

open Runs

/-! ## Specifiers run to their end -/

/-- The specifiers that have been reached and not yet run to their end, the last one first. -/
def reached (pending : List NodeId) : Event → List NodeId
  | .specify n => n :: pending
  | .assign => pending.tail
  | _ => pending

/-- The specifier that an event is the end of. -/
def ended (pending : List NodeId) : Event → List NodeId
  | .assign => pending.head?.toList
  | _ => []

/-- The specifiers that are run to their end by some events, where some have been reached before. -/
def executed : (pending : List NodeId) → List Event → List NodeId
  | _, [] => []
  | pending, ev :: es => ended pending ev ++ executed (reached pending ev) es

section

variable {pending : List NodeId} {es es' : List Event}

theorem executed_append (pending : List NodeId) (es es' : List Event) :
    executed pending (es ++ es') = executed pending es ++ executed (es.foldl reached pending) es' := by
  induction es generalizing pending with
  | nil => rfl
  | cons ev es ih => rw [List.cons_append, executed, ih, executed, List.append_assoc, List.foldl_cons]

/-- Reads run no specifier to its end, and reach none. -/
theorem executed_reads (h : ∀ ev ∈ es, ∃ n, ev = .read n) :
    executed pending es = [] ∧ es.foldl reached pending = pending := by
  induction es with
  | nil => exact ⟨rfl, rfl⟩
  | cons ev es ih =>
    obtain ⟨⟨n, rfl⟩, hes⟩ := List.forall_mem_cons.1 h
    exact ih hes

end

/-- Only rejected specifiers are run to their end. -/
def Bare (rejected : NodeId → Prop) (es : List Event) : Prop := ∀ n ∈ executed [] es, rejected n

theorem bare_append {rejected : NodeId → Prop} {es es' : List Event} (hclosed : es.foldl reached [] = []) :
    Bare rejected (es ++ es') ↔ Bare rejected es ∧ Bare rejected es' := by
  rw [Bare, executed_append, hclosed, List.forall_mem_append]
  rfl

theorem bare_reads {rejected : NodeId → Prop} {es : List Event} (h : ∀ ev ∈ es, ∃ n, ev = .read n) :
    Bare rejected es := by
  intro n hn
  rw [(executed_reads h).1] at hn
  exact absurd hn List.not_mem_nil

/-- A specifier whose right side only reads is run to its end. -/
theorem bare_specifier {rejected : NodeId → Prop} {es : List Event} {id : NodeId} (h : ∀ ev ∈ es, ∃ n, ev = .read n) :
    Bare rejected (.specify id :: (es ++ [.assign])) ↔ rejected id := by
  rw [Bare, executed, reached, executed_append, (executed_reads h).1, (executed_reads h).2]
  exact List.forall_mem_singleton

/-- In its right side it is not at its end yet. -/
theorem bare_reached {rejected : NodeId → Prop} {es : List Event} (h : ∀ ev ∈ es, ∃ n, ev = .read n) (id : NodeId) :
    Bare rejected (.specify id :: es) := by
  intro n hn
  rw [executed, reached, (executed_reads h).1] at hn
  exact absurd hn List.not_mem_nil

/-! ## Ways to a read -/

/-- Some execution comes to read the target at `n`, after these events. -/
def Comes (r : Runs) (n : NodeId) (before : List Event) : Prop := ∃ after e, r (before ++ .read n :: after) e

section

variable {r r' : Runs} {rs : List Runs} {n : NodeId} {before : List Event}

theorem not_comes_nil {e : Ending} : ¬ Comes (fun es e' => es = [] ∧ e' = e) n before := by
  rintro ⟨after, e', heq, -⟩
  exact absurd heq (List.append_ne_nil_of_right_ne_nil _ (List.cons_ne_nil _ _))

theorem comes_event {ev : Event} : Comes (event ev) n before ↔ ev = .read n ∧ before = [] := by
  constructor
  · rintro ⟨after, e, heq, -⟩
    cases before with
    | nil => exact ⟨(List.cons.inj heq).1.symm, rfl⟩
    | cons ev' before =>
      exact absurd (List.cons.inj heq).2 (List.append_ne_nil_of_right_ne_nil _ (List.cons_ne_nil _ _))
  · rintro ⟨rfl, rfl⟩
    exact ⟨[], .normal, rfl, rfl⟩

/-- A read that two steps come to is in the first of them, or in the second one. -/
theorem comes_seq (hr' : ∃ es e, r' es e) : Comes (Seq r r') n before ↔
    Comes r n before ∨ ∃ es before', before = es ++ before' ∧ r es .normal ∧ Comes r' n before' := by
  constructor
  · rintro ⟨after, e, hrun⟩
    generalize hes : before ++ .read n :: after = es at hrun
    cases hrun with
    | stop h _ =>
      rw [← hes] at h
      exact Or.inl ⟨after, e, h⟩
    | @go es₁ es₂ _ h h' =>
      rcases List.append_eq_append_iff.1 hes with ⟨mid, rfl, hmid⟩ | ⟨mid, rfl, rfl⟩
      · cases mid with
        | nil =>
          rw [List.nil_append] at hmid
          subst hmid
          exact Or.inr ⟨before ++ [], [], by simp, h, after, e, h'⟩
        | cons ev mid =>
          obtain ⟨rfl, rfl⟩ := List.cons.inj hmid
          exact Or.inl ⟨mid, .normal, h⟩
      · exact Or.inr ⟨es₁, mid, rfl, h, after, e, h'⟩
  · rintro (⟨after, e, h⟩ | ⟨es, before', rfl, h, after, e, h'⟩)
    · by_cases he : e = .normal
      · subst he
        obtain ⟨es, e, h'⟩ := hr'
        exact ⟨after ++ es, e, .of h h' (by simp)⟩
      · exact ⟨after, e, .stop h he⟩
    · exact ⟨after, e, .of h h' (by simp)⟩

theorem comes_oneOf : Comes (oneOf rs) n before ↔ ∃ r ∈ rs, Comes r n before := by
  constructor
  · rintro ⟨after, e, ⟨-, heq, -⟩ | ⟨r, hr, h⟩⟩
    · exact absurd heq (List.append_ne_nil_of_right_ne_nil _ (List.cons_ne_nil _ _))
    · exact ⟨r, hr, after, e, h⟩
  · rintro ⟨r, hr, after, e, h⟩
    exact ⟨after, e, Or.inr ⟨r, hr, h⟩⟩

end

/-! ## Where findings are -/

/-- Among the nodes `ids`, the findings are at the rejected ones. -/
def Locates (rejected : NodeId → Prop) (ids : List NodeId) (fs : List Finding) : Prop :=
  ∀ n ∈ ids, rejected n ↔ ∃ f ∈ fs, f.node = n

section

variable {rejected : NodeId → Prop} {ids ids' : List NodeId} {fs fs' : List Finding}

theorem Locates.mono (h : Locates rejected ids' fs) (hids : ids ⊆ ids') : Locates rejected ids fs :=
  fun n hn => h n (hids hn)

/-- Findings elsewhere do not count. -/
theorem Locates.of_subset (h : Locates rejected ids fs) (hsub : fs' ⊆ fs) (hothers : ∀ f ∈ fs, f ∉ fs' → f.node ∉ ids) :
    Locates rejected ids fs' := by
  intro n hn
  rw [h n hn]
  constructor
  · rintro ⟨f, hf, rfl⟩
    exact ⟨f, Classical.byContradiction fun hno => hothers f hf hno hn, rfl⟩
  · rintro ⟨f, hf, rfl⟩
    exact ⟨f, hsub hf, rfl⟩

/-- The findings of two parts without a common node are told apart. -/
theorem Locates.of_append (hf : Locates rejected (ids ++ ids') (fs ++ fs')) (h : ∀ f ∈ fs, f.node ∈ ids)
    (h' : ∀ f ∈ fs', f.node ∈ ids') (hids : ids.Disjoint ids') :
    Locates rejected ids fs ∧ Locates rejected ids' fs' := by
  constructor
  · refine (hf.mono (List.subset_append_left ..)).of_subset (List.subset_append_left ..) fun f hmem hno hnode => ?_
    exact hids hnode (h' f ((List.mem_append.1 hmem).resolve_left hno))
  · refine (hf.mono (List.subset_append_right ..)).of_subset (List.subset_append_right ..) fun f hmem hno => ?_
    exact hids (h f ((List.mem_append.1 hmem).resolve_right hno))

/-- The findings of one of several parts without common nodes are told from those of the others. -/
theorem Locates.of_flatMap {ι : Type} {l : List ι} {ids : ι → List NodeId} {fs : ι → List Finding}
    (hf : Locates rejected (l.flatMap ids) (l.flatMap fs)) (h : ∀ i ∈ l, ∀ f ∈ fs i, f.node ∈ ids i)
    (hids : (l.flatMap ids).Nodup) {i : ι} (hi : i ∈ l) : Locates rejected (ids i) (fs i) := by
  induction l with
  | nil => exact absurd hi List.not_mem_nil
  | cons j l ih =>
    rw [List.flatMap_cons] at hids
    obtain ⟨hj, hl⟩ := List.forall_mem_cons.1 h
    obtain ⟨-, hids, hdisjoint⟩ := List.nodup_append'.1 hids
    have hothers : ∀ f ∈ l.flatMap fs, f.node ∈ l.flatMap ids := by
      intro f hf
      obtain ⟨k, hk, hf⟩ := List.mem_flatMap.1 hf
      exact List.mem_flatMap.2 ⟨k, hk, hl k hk f hf⟩
    obtain ⟨hfirst, hrest⟩ := Locates.of_append hf hj hothers hdisjoint
    rcases List.mem_cons.1 hi with rfl | hi
    · exact hfirst
    · exact ih hrest hl hids hi

end

/-! ## Passes that name the target -/

theorem findings_read (id : NodeId) (s : FlowState) : (Assignment.read id s).2 =
    if !s.declared then [⟨id, .notYetDeclared⟩] else if !s.definite then [⟨id, .notDefinitelyAssigned⟩] else [] := by
  unfold Assignment.read
  split
  · rfl
  · split <;> rfl

section

variable {target : DeclId} {id m : NodeId} {left value : Option Subnode} {s : FlowState}

/-- A rejected specifier is reported and passed over. -/
theorem specify_rejected {message : Message} (hleft : Assignment.specifies target left = true)
    (h : Assignment.specifierFault? s = some message) :
    Assignment.specify target id left value s = (s, [⟨id, message⟩]) := by
  rw [Assignment.specify, if_pos hleft]
  simp only [h]
  rfl

/-- Past an accepted specifier the target is assigned; what there is to find is in its right side. -/
theorem specify_accepted (hleft : Assignment.specifies target left = true)
    (hread : Subnode.slot left = Assignment.read m) (hvalue : (Subnode.slot value).Steady)
    (h : Assignment.specifierFault? s = none) : Assignment.specify target id left value s =
      ((Subnode.slot value s).1.assigned, (Subnode.slot value s).2) := by
  have hdeclared : s.declared = true := by
    cases hs : s.declared with
    | true => rfl
    | false => simp [Assignment.specifierFault?, hs] at h
  have hafter := (hvalue.advances s).declared hdeclared
  have hfind : (Assignment.read m (Subnode.slot value s).1.assigned).2 = [] := by
    rw [findings_read]
    simp [FlowState.assigned, hafter]
  have hstate := Assignment.fst_read m (Subnode.slot value s).1.assigned
  rw [Assignment.specify, if_pos hleft]
  simp only [h, hread, Pass.all, Pass.andThen, Pass.change, Pass.skip, hstate, hfind, List.append_nil]
  rfl

/-- Where assigning is not forbidden, a specifier is rejected if the target may have been assigned before. -/
theorem fault_of_possible (hs : s.Open) (hpossible : s.possible = true) :
    Assignment.specifierFault? s = some .notDefinitelyUnassigned := by
  simp [Assignment.specifierFault?, hs.declared, hs.barrier, hpossible]

theorem fault_of_not_possible (hs : s.Open) (hpossible : s.possible = false) : Assignment.specifierFault? s = none := by
  simp [Assignment.specifierFault?, hs.declared, hs.barrier, hpossible]

end

/-! ## Expressions -/

/-- Executions that always end normally and do nothing but to read the target at some of the nodes `ids`. -/
structure Evaluates (ids : List NodeId) (r : Runs) : Prop where
  runs : ∃ es, r es .normal
  normal : ∀ {es e}, r es e → e = .normal
  reads : ∀ {es e}, r es e → ∀ ev ∈ es, ∃ n ∈ ids, ev = .read n

namespace Evaluates

variable {ids ids' : List NodeId} {r r' : Runs}

theorem mono (h : Evaluates ids r) (hids : ids ⊆ ids') : Evaluates ids' r where
  runs := h.runs
  normal := h.normal
  reads hr ev hev := (h.reads hr ev hev).imp fun _ => And.imp_left (@hids _)

theorem skip : Evaluates [] skip where
  runs := ⟨[], rfl, rfl⟩
  normal hr := hr.2
  reads hr := by
    rw [hr.1]
    exact List.forall_mem_nil _

theorem read (n : NodeId) : Evaluates [n] (event (.read n)) where
  runs := ⟨[.read n], rfl, rfl⟩
  normal hr := hr.2
  reads hr := by
    rw [hr.1]
    exact List.forall_mem_singleton.2 ⟨n, List.mem_singleton_self n, rfl⟩

theorem seq (h : Evaluates ids r) (h' : Evaluates ids r') : Evaluates ids (Seq r r') where
  runs := by
    obtain ⟨es, hr⟩ := h.runs
    obtain ⟨es', hr'⟩ := h'.runs
    exact ⟨es ++ es', .go hr hr'⟩
  normal hr := by
    cases hr with
    | stop hr _ => exact h.normal hr
    | go _ hr' => exact h'.normal hr'
  reads hr := by
    cases hr with
    | stop hr _ => exact h.reads hr
    | go hr hr' => exact List.forall_mem_append.2 ⟨h.reads hr, h'.reads hr'⟩

theorem all {rs : List Runs} (h : ∀ r ∈ rs, Evaluates ids r) : Evaluates ids (all rs) := by
  induction rs with
  | nil => exact skip.mono (List.nil_subset _)
  | cons r rs ih =>
    obtain ⟨hr, hrs⟩ := List.forall_mem_cons.1 h
    exact hr.seq (ih hrs)

/-- Nothing but reads, wherever they are. -/
theorem only_reads (h : Evaluates ids r) {es : List Event} {e : Ending} (hr : r es e) : ∀ ev ∈ es, ∃ n, ev = .read n :=
  fun ev hev => (h.reads hr ev hev).imp fun _ => And.right

theorem only_reads_before (h : Evaluates ids r) {n : NodeId} {before : List Event} (hcomes : Comes r n before) :
    ∀ ev ∈ before, ∃ m, ev = .read m := by
  obtain ⟨after, e, hr⟩ := hcomes
  exact fun ev hev => h.only_reads hr ev (List.mem_append_left _ hev)

theorem mem_of_comes (h : Evaluates ids r) {n : NodeId} {before : List Event} (hcomes : Comes r n before) : n ∈ ids := by
  obtain ⟨after, e, hr⟩ := hcomes
  obtain ⟨m, hm, heq⟩ := h.reads hr (.read n) (List.mem_append_right _ List.mem_cons_self)
  exact Event.read.inj heq ▸ hm

/-- A specifier whose right side is evaluated: it is reached, and run to its end. -/
theorem specify_iff (h : Evaluates ids r) {id : NodeId} {es : List Event} {e : Ending} :
    Runs.all [event (.specify id), r, event .assign] es e ↔
      e = .normal ∧ ∃ es', r es' .normal ∧ es = .specify id :: (es' ++ [.assign]) := by
  constructor
  · intro hr
    rcases specify_runs hr with ⟨es', -, hvalue, hne⟩ | ⟨es', rfl, hvalue, rfl⟩
    · exact absurd (h.normal hvalue) hne
    · exact ⟨rfl, es', hvalue, rfl⟩
  · rintro ⟨rfl, es', hr, rfl⟩
    exact .of ⟨rfl, rfl⟩ (.of hr (all_singleton ⟨rfl, rfl⟩) rfl) rfl

theorem comes_specify (h : Evaluates ids r) {id n : NodeId} {before : List Event} :
    Comes (Runs.all [event (.specify id), r, event .assign]) n before ↔
      ∃ before', before = .specify id :: before' ∧ Comes r n before' := by
  have hassign : ∃ es e, Runs.all [event .assign] es e := ⟨[.assign], .normal, all_singleton ⟨rfl, rfl⟩⟩
  have hvalue : ∃ es e, Runs.all [r, event .assign] es e := by
    obtain ⟨es, hr⟩ := h.runs
    exact ⟨es ++ [.assign], .normal, .go hr (all_singleton ⟨rfl, rfl⟩)⟩
  have hnot (before' : List Event) : ¬ Comes (Runs.all [event .assign]) n before' := by
    rw [Runs.all, comes_seq ⟨[], .normal, rfl, rfl⟩, comes_event]
    rintro (⟨heq, -⟩ | ⟨es, before', -, -, hcomes⟩)
    · cases heq
    · exact not_comes_nil hcomes
  rw [Runs.all, comes_seq hvalue, comes_event]
  simp only [reduceCtorEq, false_and, false_or, Runs.all.eq_2 r, comes_seq hassign, hnot, and_false, exists_false,
    or_false]
  constructor
  · rintro ⟨es, before', rfl, ⟨rfl, -⟩, hcomes⟩
    exact ⟨before', rfl, hcomes⟩
  · rintro ⟨before', rfl, hcomes⟩
    exact ⟨[.specify id], before', rfl, ⟨rfl, rfl⟩, hcomes⟩

/-- A way past a specifier has the specifier on it. -/
theorem exists_bare_specify {rejected : NodeId → Prop} (h : Evaluates ids r) {id : NodeId} :
    (∃ es, Runs.all [event (.specify id), r, event .assign] es .normal ∧ Bare rejected es) ↔ rejected id := by
  simp only [h.specify_iff, true_and]
  constructor
  · rintro ⟨-, ⟨es, hr, rfl⟩, hbare⟩
    exact (bare_specifier (h.only_reads hr)).1 hbare
  · intro hrejected
    obtain ⟨es, hr⟩ := h.runs
    exact ⟨_, ⟨es, hr, rfl⟩, (bare_specifier (h.only_reads hr)).2 hrejected⟩

/-- A way to a read in the right side of a specifier has no end of a specifier on it, be it from the specifier or from
the right side. -/
theorem exists_comes_specify {rejected : NodeId → Prop} (h : Evaluates ids r) {id n : NodeId} :
    (∃ before, Comes (Runs.all [event (.specify id), r, event .assign]) n before ∧ Bare rejected before) ↔
      ∃ before, Comes r n before ∧ Bare rejected before := by
  simp only [h.comes_specify]
  constructor
  · rintro ⟨-, ⟨before, -, hcomes⟩, -⟩
    exact ⟨before, hcomes, bare_reads (h.only_reads_before hcomes)⟩
  · rintro ⟨before, hcomes, -⟩
    exact ⟨_, ⟨before, rfl, hcomes⟩, bare_reached (h.only_reads_before hcomes) id⟩

end Evaluates

/-! ## Exact passes -/

/-- A pass over the nodes `ids` sees every way through the executions and every way to the read `n`. -/
structure Exact (rejected : NodeId → Prop) (n : NodeId) (ids : List NodeId) (p : Pass) (r : Runs) : Prop where
  steady : p.Steady
  nodes : ∀ s, ∀ f ∈ (p s).2, f.node ∈ ids
  runs : ∃ es e, r es e
  closed : ∀ es, r es .normal → es.foldl reached [] = []
  live : ∀ s, s.exited = false → ((p s).1.exited = false ↔ ∃ es, r es .normal)
  definite : ∀ s, s.Open → Locates rejected ids (p s).2 →
    ((p s).1.definite = false ↔ s.definite = false ∧ ∃ es, r es .normal ∧ Bare rejected es)
  reads : ∀ s, s.Open → Locates rejected ids (p s).2 →
    (⟨n, .notDefinitelyAssigned⟩ ∈ (p s).2 ↔ s.definite = false ∧ ∃ before, Comes r n before ∧ Bare rejected before)

namespace Exact

section

variable {rejected : NodeId → Prop} {n : NodeId} {ids ids' : List NodeId} {p p' : Pass} {r r' : Runs}

theorem mono (h : Exact rejected n ids p r) (hids : ids ⊆ ids') : Exact rejected n ids' p r where
  steady := h.steady
  nodes s f hf := hids (h.nodes s f hf)
  runs := h.runs
  closed := h.closed
  live := h.live
  definite s hs hf := h.definite s hs (hf.mono hids)
  reads s hs hf := h.reads s hs (hf.mono hids)

theorem skip : Exact rejected n [] .skip skip where
  steady := Pass.steady_skip
  nodes _ _ hf := absurd hf List.not_mem_nil
  runs := ⟨[], .normal, rfl, rfl⟩
  closed := by
    rintro es ⟨rfl, -⟩
    rfl
  live s hs := ⟨fun _ => ⟨[], rfl, rfl⟩, fun _ => hs⟩
  definite s _ _ := ⟨fun hs => ⟨hs, [], ⟨rfl, rfl⟩, bare_reads (List.forall_mem_nil _)⟩, And.left⟩
  reads s _ _ := by
    constructor
    · exact fun hf => absurd hf List.not_mem_nil
    · rintro ⟨-, before, hcomes, -⟩
      exact absurd hcomes not_comes_nil

/-- A jump: no way leads on. -/
theorem exit {ending : Ending} (hending : ending ≠ .normal) :
    Exact rejected n [] (.change .exit) (jump ending) where
  steady := Pass.steady_exit
  nodes _ _ hf := absurd hf List.not_mem_nil
  runs := ⟨[], ending, rfl, rfl⟩
  closed := by
    rintro es ⟨-, he⟩
    exact absurd he.symm hending
  live s _ := by
    constructor
    · exact nofun
    · rintro ⟨es, -, he⟩
      exact absurd he.symm hending
  definite s _ _ := by
    constructor
    · exact nofun
    · rintro ⟨-, es, ⟨-, he⟩, -⟩
      exact absurd he.symm hending
  reads s _ _ := by
    constructor
    · exact fun hf => absurd hf List.not_mem_nil
    · rintro ⟨-, before, hcomes, -⟩
      exact absurd hcomes not_comes_nil

theorem andThen (h : Exact rejected n ids p r) (h' : Exact rejected n ids' p' r') (hids : ids.Disjoint ids') :
    Exact rejected n (ids ++ ids') (p.andThen p') (Seq r r') where
  steady := h.steady.andThen h'.steady
  nodes s f hf := by
    rcases List.mem_append.1 hf with hf | hf
    · exact List.mem_append_left _ (h.nodes s f hf)
    · exact List.mem_append_right _ (h'.nodes _ f hf)
  runs := by
    obtain ⟨es, e, hrun⟩ := h.runs
    obtain ⟨es', e', hrun'⟩ := h'.runs
    by_cases he : e = .normal
    · exact ⟨es ++ es', e', .go (he ▸ hrun) hrun'⟩
    · exact ⟨es, e, .stop hrun he⟩
  closed es hrun := by
    obtain ⟨es₁, es₂, rfl, hrun, hrun'⟩ := seq_normal hrun
    rw [List.foldl_append, h.closed _ hrun, h'.closed _ hrun']
  live s hs := by
    constructor
    · intro hlive
      have hfirst := (h'.steady.advances (p s).1).live hlive
      obtain ⟨es, hrun⟩ := (h.live s hs).1 hfirst
      obtain ⟨es', hrun'⟩ := (h'.live _ hfirst).1 hlive
      exact ⟨es ++ es', .go hrun hrun'⟩
    · rintro ⟨es, hrun⟩
      obtain ⟨es₁, es₂, -, hrun, hrun'⟩ := seq_normal hrun
      exact (h'.live _ ((h.live s hs).2 ⟨es₁, hrun⟩)).2 ⟨es₂, hrun'⟩
  definite s hs hf := by
    obtain ⟨hf, hf'⟩ := hf.of_append (h.nodes s) (h'.nodes _) hids
    show (p' (p s).1).1.definite = false ↔ _
    rw [h'.definite _ (hs.after h.steady) hf', h.definite s hs hf]
    constructor
    · rintro ⟨⟨hdefinite, es, hrun, hbare⟩, es', hrun', hbare'⟩
      exact ⟨hdefinite, es ++ es', .go hrun hrun', (bare_append (h.closed _ hrun)).2 ⟨hbare, hbare'⟩⟩
    · rintro ⟨hdefinite, es, hrun, hbare⟩
      obtain ⟨es₁, es₂, rfl, hrun, hrun'⟩ := seq_normal hrun
      obtain ⟨hbare, hbare'⟩ := (bare_append (h.closed _ hrun)).1 hbare
      exact ⟨⟨hdefinite, es₁, hrun, hbare⟩, es₂, hrun', hbare'⟩
  reads s hs hf := by
    obtain ⟨hf, hf'⟩ := hf.of_append (h.nodes s) (h'.nodes _) hids
    show _ ∈ (p s).2 ++ (p' (p s).1).2 ↔ _
    rw [List.mem_append, h.reads s hs hf, h'.reads _ (hs.after h.steady) hf', h.definite s hs hf]
    simp only [comes_seq h'.runs]
    constructor
    · rintro (⟨hdefinite, before, hcomes, hbare⟩ | ⟨⟨hdefinite, es, hrun, hbare⟩, before, hcomes, hbare'⟩)
      · exact ⟨hdefinite, before, Or.inl hcomes, hbare⟩
      · exact ⟨hdefinite, es ++ before, Or.inr ⟨es, before, rfl, hrun, hcomes⟩,
          (bare_append (h.closed _ hrun)).2 ⟨hbare, hbare'⟩⟩
    · rintro ⟨hdefinite, before, hcomes | ⟨es, before, rfl, hrun, hcomes⟩, hbare⟩
      · exact Or.inl ⟨hdefinite, before, hcomes, hbare⟩
      · obtain ⟨hbare, hbare'⟩ := (bare_append (h.closed _ hrun)).1 hbare
        exact Or.inr ⟨⟨hdefinite, es, hrun, hbare⟩, before, hcomes, hbare'⟩

end

section

variable {rejected : NodeId → Prop} {n : NodeId} {ι : Type} {l : List ι} {ids : ι → List NodeId} {p : ι → Pass}
  {r : ι → Runs}

theorem all (h : ∀ i ∈ l, Exact rejected n (ids i) (p i) (r i)) (hids : (l.flatMap ids).Nodup) :
    Exact rejected n (l.flatMap ids) (.all (l.map p)) (all (l.map r)) := by
  induction l with
  | nil => exact skip
  | cons i l ih =>
    obtain ⟨hi, hl⟩ := List.forall_mem_cons.1 h
    rw [List.flatMap_cons] at hids ⊢
    obtain ⟨-, hids, hdisjoint⟩ := List.nodup_append'.1 hids
    exact andThen hi (ih hl hids) hdisjoint

/-- Alternatives: a way leads through them if one leads through an alternative. -/
theorem fork (h : ∀ i ∈ l, Exact rejected n (ids i) (p i) (r i)) (hids : (l.flatMap ids).Nodup) :
    Exact rejected n (l.flatMap ids) (.fork (l.map p)) (oneOf (l.map r)) where
  steady := Pass.steady_fork (List.forall_mem_map.2 fun i hi => (h i hi).steady)
  nodes s f hf := by
    rw [fork_eq] at hf
    obtain ⟨i, hi, hf⟩ := List.mem_flatMap.1 hf
    exact List.mem_flatMap.2 ⟨i, hi, (h i hi).nodes s f hf⟩
  runs := by
    cases l with
    | nil => exact ⟨[], .normal, Or.inl ⟨rfl, rfl, rfl⟩⟩
    | cons i l =>
      obtain ⟨es, e, hrun⟩ := (h i List.mem_cons_self).runs
      exact ⟨es, e, Or.inr ⟨_, List.mem_cons_self, hrun⟩⟩
  closed es hrun := by
    rcases oneOf_map_iff.1 hrun with ⟨-, rfl, -⟩ | ⟨i, hi, hrun⟩
    · rfl
    · exact (h i hi).closed es hrun
  live s hs := by
    rw [fork_eq, FlowState.exited_join_eq_false_iff hs]
    simp only [oneOf_map_iff, List.map_eq_nil_iff, List.mem_map, exists_exists_and_eq_and]
    constructor
    · rintro (hnil | ⟨i, hi, hlive⟩)
      · exact ⟨[], Or.inl ⟨hnil, rfl, rfl⟩⟩
      · obtain ⟨es, hrun⟩ := ((h i hi).live s hs).1 hlive
        exact ⟨es, Or.inr ⟨i, hi, hrun⟩⟩
    · rintro ⟨es, ⟨hnil, -⟩ | ⟨i, hi, hrun⟩⟩
      · exact Or.inl hnil
      · exact Or.inr ⟨i, hi, ((h i hi).live s hs).2 ⟨es, hrun⟩⟩
  definite s hs hf := by
    rw [fork_eq] at hf ⊢
    have harms : ∀ arm ∈ l.map fun i => (p i s).1, arm.Coherent :=
      List.forall_mem_map.2 fun i hi => (h i hi).steady.coherent s hs.coherent
    have hbranch {i : ι} (hi : i ∈ l) := (h i hi).definite s hs (hf.of_flatMap (fun i hi => (h i hi).nodes s) hids hi)
    rw [FlowState.definite_join_eq_false_iff harms]
    simp only [oneOf_map_iff, List.map_eq_nil_iff, List.mem_map, exists_exists_and_eq_and]
    constructor
    · rintro ⟨hdefinite, hnil | ⟨i, hi, hbare⟩⟩
      · exact ⟨hdefinite, [], Or.inl ⟨hnil, rfl, rfl⟩, bare_reads (List.forall_mem_nil _)⟩
      · obtain ⟨-, es, hrun, hbare⟩ := (hbranch hi).1 hbare
        exact ⟨hdefinite, es, Or.inr ⟨i, hi, hrun⟩, hbare⟩
    · rintro ⟨hdefinite, es, ⟨hnil, -⟩ | ⟨i, hi, hrun⟩, hbare⟩
      · exact ⟨hdefinite, Or.inl hnil⟩
      · exact ⟨hdefinite, Or.inr ⟨i, hi, (hbranch hi).2 ⟨hdefinite, es, hrun, hbare⟩⟩⟩
  reads s hs hf := by
    rw [fork_eq] at hf ⊢
    have hbranch {i : ι} (hi : i ∈ l) := (h i hi).reads s hs (hf.of_flatMap (fun i hi => (h i hi).nodes s) hids hi)
    simp only [comes_oneOf, List.mem_map, exists_exists_and_eq_and]
    constructor
    · intro hmem
      obtain ⟨i, hi, hmem⟩ := List.mem_flatMap.1 hmem
      obtain ⟨hdefinite, before, hcomes, hbare⟩ := (hbranch hi).1 hmem
      exact ⟨hdefinite, before, ⟨i, hi, hcomes⟩, hbare⟩
    · rintro ⟨hdefinite, before, ⟨i, hi, hcomes⟩, hbare⟩
      exact List.mem_flatMap.2 ⟨i, hi, (hbranch hi).2 ⟨hdefinite, before, hcomes, hbare⟩⟩

end

/-! ### Where the target is named -/

section

variable {rejected : NodeId → Prop} {target : DeclId} {n id : NodeId} {ids : List NodeId} {r : Runs}

theorem read (id : NodeId) : Exact rejected n [id] (Assignment.read id) (event (.read id)) where
  steady := Assignment.steady_read id
  nodes s f hf := by
    rw [findings_read] at hf
    split at hf
    · simp_all
    · split at hf
      · simp_all
      · exact absurd hf List.not_mem_nil
  runs := ⟨[.read id], .normal, rfl, rfl⟩
  closed := by
    rintro es ⟨rfl, -⟩
    rfl
  live s hs := by
    rw [Assignment.fst_read]
    exact ⟨fun _ => ⟨[.read id], rfl, rfl⟩, fun _ => hs⟩
  definite s _ _ := by
    have hbare : Bare rejected [.read id] := bare_reads (List.forall_mem_singleton.2 ⟨id, rfl⟩)
    rw [Assignment.fst_read]
    exact ⟨fun hs => ⟨hs, [.read id], ⟨rfl, rfl⟩, hbare⟩, And.left⟩
  reads s hs _ := by
    simp only [comes_event, Event.read.injEq]
    rw [findings_read, if_neg (by simp [hs.declared])]
    constructor
    · intro hf
      split at hf
      · next hdefinite =>
        simp only [List.mem_singleton, Finding.mk.injEq, and_true] at hf
        exact ⟨by simpa using hdefinite, [], ⟨hf.symm, rfl⟩, bare_reads (List.forall_mem_nil _)⟩
      · exact absurd hf List.not_mem_nil
    · rintro ⟨hdefinite, before, ⟨rfl, -⟩, -⟩
      simp [hdefinite]

/-- A specifier of the target. What an accepted one finds in its right side is what there is to find, and past it the
target is assigned; a rejected one is passed over, right side and all. -/
theorem specify {m : NodeId} {left value : Option Subnode} (hleft : Assignment.specifies target left = true)
    (hread : Subnode.slot left = Assignment.read m) (h : Exact rejected n ids (Subnode.slot value) r)
    (hvalue : Evaluates ids r) (hid : id ∉ ids) (hhidden : rejected id → n ∉ ids) :
    Exact rejected n (ids ++ [id]) (Assignment.specify target id left value)
      (Runs.all [event (.specify id), r, event .assign]) := by
  have hsteady : (Assignment.specify target id left value).Steady :=
    Assignment.steady_specify (hread ▸ Assignment.steady_read m) h.steady
  have hids : id ∈ ids ++ [id] := List.mem_append_right _ (List.mem_singleton_self id)
  obtain ⟨es₀, hr₀⟩ := hvalue.runs
  constructor
  case steady => exact hsteady
  case nodes =>
    intro s f hf
    cases hfault : Assignment.specifierFault? s with
    | some message =>
      rw [specify_rejected hleft hfault, List.mem_singleton] at hf
      rw [hf]
      exact hids
    | none =>
      rw [specify_accepted hleft hread h.steady hfault] at hf
      exact List.mem_append_left _ (h.nodes s f hf)
  case runs => exact ⟨_, .normal, hvalue.specify_iff.2 ⟨rfl, es₀, hr₀, rfl⟩⟩
  case closed =>
    intro es hr
    obtain ⟨-, es', hr', rfl⟩ := hvalue.specify_iff.1 hr
    rw [List.foldl_cons, reached, List.foldl_append, (executed_reads (hvalue.only_reads hr')).2]
    rfl
  case live =>
    intro s hs
    have hthrough : ∃ es, Runs.all [event (.specify id), r, event .assign] es .normal :=
      ⟨_, hvalue.specify_iff.2 ⟨rfl, es₀, hr₀, rfl⟩⟩
    refine ⟨fun _ => hthrough, fun _ => ?_⟩
    cases hfault : Assignment.specifierFault? s with
    | some message => rwa [specify_rejected hleft hfault]
    | none =>
      rw [specify_accepted hleft hread h.steady hfault]
      exact (h.live s hs).2 ⟨es₀, hr₀⟩
  case definite =>
    intro s hs hf
    rw [hvalue.exists_bare_specify]
    cases hpossible : s.possible with
    | true =>
      rw [specify_rejected hleft (fault_of_possible hs hpossible)] at hf ⊢
      have hrejected : rejected id := (hf id hids).2 ⟨_, List.mem_singleton_self _, rfl⟩
      exact ⟨fun hdefinite => ⟨hdefinite, hrejected⟩, And.left⟩
    | false =>
      rw [specify_accepted hleft hread h.steady (fault_of_not_possible hs hpossible)] at hf ⊢
      refine ⟨nofun, ?_⟩
      rintro ⟨-, hrejected⟩
      obtain ⟨f, hmem, rfl⟩ := (hf id hids).1 hrejected
      exact absurd (h.nodes s f hmem) hid
  case reads =>
    intro s hs hf
    rw [hvalue.exists_comes_specify]
    cases hpossible : s.possible with
    | true =>
      rw [specify_rejected hleft (fault_of_possible hs hpossible)] at hf ⊢
      have hrejected : rejected id := (hf id hids).2 ⟨_, List.mem_singleton_self _, rfl⟩
      constructor
      · intro hmem
        cases (Finding.mk.inj (List.mem_singleton.1 hmem)).2
      · rintro ⟨-, before, hcomes, -⟩
        exact absurd (hvalue.mem_of_comes hcomes) (hhidden hrejected)
    | false =>
      rw [specify_accepted hleft hread h.steady (fault_of_not_possible hs hpossible)] at hf ⊢
      exact h.reads s hs (hf.mono (List.subset_append_left ..))

end

end Exact

end Execution

end SemCheck
