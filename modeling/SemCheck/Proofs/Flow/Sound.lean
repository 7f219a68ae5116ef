import SemCheck.Proofs.Flow.Framed

/-!
# Passes against executions

`Sound x covered n p r` says that the pass `p` is right about the executions `r`, where `n` declaring nodes stand
inside: without findings every execution is safe, and after one that ends normally the states agree again. For a try
block also the executions that do not end normally count: `covered` says that whatever is lost in a dead end has its
excuse, and then the state after the block says that an assignment is possible if one has been made (`Sound.held`).

There is one lemma for every way of putting passes together.
-/

namespace SemCheck.Execution

open Runs

/-- A pass with `n` declaring nodes inside is right about the executions. -/
structure Sound (x : Excuses) (covered : Prop) (n : Nat) (p : Pass) (r : Runs) : Prop extends Framed n p r where
  safe : ∀ {k s c es e}, n ≤ k → Agrees x k s c → (p s).2 = [] → r es e → Safe x c es
  agrees : ∀ {k s c es}, n ≤ k → Agrees x k s c → (p s).2 = [] → r es .normal →
    Agrees x (k - n) (p s).1 (c.afterAll es)
  held : ∀ {s c es e}, covered → n = 0 → s.declared = true → Agrees x 0 s c → (p s).2 = [] → r es e →
    (c.afterAll es).valued = true → (p s).1.possible = true ∨ x.catches

namespace Sound

section

variable {x : Excuses} {covered : Prop} {n n' : Nat} {p p' : Pass} {r r' : Runs}

theorem mono (h : Sound x covered n p r) (hn : n ≤ n') : Sound x covered n' p r where
  toFramed := h.toFramed.mono hn
  safe hk := h.safe (by omega)
  agrees hk ha hf hr := (h.agrees (by omega) ha hf hr).congr (by omega) rfl rfl rfl id
  held hc hn' := h.held hc (by omega)

theorem imp {covered' : Prop} (h : Sound x covered n p r) (hc : covered' → covered) : Sound x covered' n p r where
  toFramed := h.toFramed
  safe := h.safe
  agrees := h.agrees
  held hc' := h.held (hc hc')

theorem skip : Sound x covered 0 .skip skip where
  toFramed := .skip
  safe := by
    rintro k s c es e - - - ⟨rfl, -⟩
    trivial
  agrees := by
    rintro k s c es - ha - ⟨rfl, -⟩
    exact ha
  held := by
    rintro s c es e - - hs ha - ⟨rfl, -⟩ hv
    exact (ha.possible hs hv).imp_right And.left

theorem exit {ending : Ending} (hending : ending ≠ .normal) : Sound x covered 0 (.change .exit) (jump ending) where
  toFramed := .exit ending
  safe := by
    rintro k s c es e - - - ⟨rfl, -⟩
    trivial
  agrees := by
    rintro k s c es - - - ⟨-, he⟩
    exact absurd he.symm hending
  held := by
    rintro s c es e - - hs ha - ⟨rfl, -⟩ hv
    exact (ha.possible hs hv).imp_right And.left

theorem andThen (h : Sound x covered n p r) (h' : Sound x covered n' p' r') :
    Sound x covered (n + n') (p.andThen p') (Seq r r') where
  toFramed := h.toFramed.andThen h'.toFramed
  safe := by
    intro k s c es e hk ha hf hr
    obtain ⟨hf, hf'⟩ := List.append_eq_nil_iff.1 hf
    cases hr with
    | stop hr _ => exact h.safe (by omega) ha hf hr
    | go hr hr' =>
      have ha' := h.agrees (by omega) ha hf hr
      exact safe_append.2 ⟨h.safe (by omega) ha hf hr, h'.safe (by omega) ha' hf' hr'⟩
  agrees := by
    intro k s c es hk ha hf hr
    obtain ⟨hf, hf'⟩ := List.append_eq_nil_iff.1 hf
    obtain ⟨es₁, es₂, rfl, hr, hr'⟩ := seq_normal hr
    have ha' := h.agrees (by omega) ha hf hr
    rw [Store.afterAll_append, ← Nat.sub_sub]
    exact h'.agrees (by omega) ha' hf' hr'
  held := by
    intro s c es e hc hn hs ha hf hr hv
    obtain ⟨hn, hn'⟩ := Nat.add_eq_zero_iff.1 hn
    obtain ⟨hf, hf'⟩ := List.append_eq_nil_iff.1 hf
    cases hr with
    | stop hr _ => exact (h.held hc hn hs ha hf hr hv).imp_left (h'.possible _)
    | go hr hr' =>
      have ha' := h.agrees (by omega) ha hf hr
      rw [Store.afterAll_append] at hv
      exact h'.held hc hn' ((h.declared hn s).trans hs) (ha'.congr (by omega) rfl rfl rfl id) hf' hr' hv

/-- A clause that may be cut short keeps what was known before it. -/
theorem interruptible (h : Sound x covered n p r) : Sound x covered n p.interruptible r where
  toFramed := h.toFramed.interruptible
  safe := h.safe
  agrees := by
    intro k s c es hk ha hf hr
    have ha' := h.agrees hk ha hf hr
    have hzero (hs : s.declared = true) : n = 0 := by
      have := ha.eq_zero hs
      omega
    constructor
    case live => exact ha.live
    case once => exact ha'.once
    case ahead =>
      intro hpos
      exact ha.ahead (by omega)
    case declared =>
      intro hs
      exact Store.declared_afterAll es (ha.declared hs)
    case definite =>
      intro hs hd
      exact Store.valued_afterAll (h.silent (hzero hs) _ _ hr) (ha.definite hs hd)
    case possible =>
      intro hs
      exact ha'.possible ((h.declared (hzero hs) s).trans hs)
  held := h.held

/-- Whether or not the declaration stands inside a body of its own, the state after it is the one before it. -/
theorem agrees_nested (h : Sound x covered n p r) {k : Nat} {s : FlowState} {c : Store} {es : List Event} {e : Ending}
    (hk : n ≤ k) (ha : Agrees x k s c) (hf : (p.nested s).2 = []) (hr : contained r es e) :
    Agrees x k s (c.afterAll es) := by
  apply ha.afterAll
  intro hs
  have hn : n = 0 := by
    have := ha.eq_zero hs
    omega
  constructor
  · exact h.toFramed.nested.silent hn _ _ hr
  · exact only_contained (h.quiet hn s.withBarrier (Or.inl rfl) hf) _ _ hr

/-- A body of its own. -/
theorem nested (h : Sound x covered n p r) : Sound x covered n p.nested (contained r) where
  toFramed := h.toFramed.nested
  safe := by
    rintro k s c es e hk ha hf ⟨-, e', hr⟩
    have hb : Agrees x k s.withBarrier c := ha.congr (Nat.le_refl k) rfl rfl rfl id
    exact h.safe hk hb hf hr
  agrees := by
    intro k s c es hk ha hf hr
    exact (h.agrees_nested hk ha hf hr).congr (Nat.sub_le ..) rfl rfl rfl id
  held := by
    intro s c es e _ hn hs ha hf hr hv
    exact ((h.agrees_nested (Nat.le_of_eq hn) ha hf hr).possible hs hv).imp_right And.left

end

section

variable {x : Excuses} {covered : Prop} {ι : Type} {l : List ι} {n : ι → Nat} {p : ι → Pass} {r : ι → Runs}

theorem all (h : ∀ i ∈ l, Sound x covered (n i) (p i) (r i)) :
    Sound x covered (l.map n).sum (.all (l.map p)) (all (l.map r)) := by
  induction l with
  | nil => exact skip
  | cons i l ih =>
    obtain ⟨hi, hl⟩ := List.forall_mem_cons.1 h
    exact andThen hi (ih hl)

/-! ### Forks -/

section

variable {k : Nat} {s : FlowState} {c : Store} {es : List Event} {e : Ending}

/-- The state after a fork agrees with the store after each of its branches. -/
theorem agrees_branch (h : ∀ i ∈ l, Sound x covered (n i) (p i) (r i)) (hk : (l.map n).sum ≤ k) (ha : Agrees x k s c)
    (hf : (Pass.fork (l.map p) s).2 = []) {i : ι} (hi : i ∈ l) (hr : r i es .normal) :
    Agrees x (k - (l.map n).sum) (Pass.fork (l.map p) s).1 (c.afterAll es) := by
  have hle := le_sum (n := n) hi
  have hzero (hs : s.declared = true) : n i = 0 := by
    have := ha.eq_zero hs
    omega
  rw [fork_eq] at hf ⊢
  have ha' := (h i hi).agrees (Nat.le_trans hle hk) ha (List.flatMap_eq_nil_iff.1 hf i hi) hr
  have hmem : (p i s).1 ∈ l.map fun j => (p j s).1 := List.mem_map_of_mem hi
  rw [s.join_of_live hmem ha'.live]
  constructor
  case live => rfl
  case once => exact Nat.le_trans (Nat.sub_le ..) ha.once
  case ahead =>
    intro hpos
    have hdef := (ha'.ahead (by omega)).2
    refine ⟨(ha.ahead (by omega)).1, ?_⟩
    rw [(ha.ahead (by omega)).2, Bool.false_or]
    exact List.all_eq_false.2 ⟨_, hmem, by simp [hdef]⟩
  case declared =>
    intro hs
    exact Store.declared_afterAll es (ha.declared hs)
  case definite =>
    intro hs hd
    rcases Bool.or_eq_true_iff.1 hd with hd | hd
    · exact Store.valued_afterAll ((h i hi).silent (hzero hs) _ _ hr) (ha.definite hs hd)
    · exact ha'.definite (((h i hi).declared (hzero hs) s).trans hs) (List.all_eq_true.1 hd _ hmem)
  case possible =>
    intro hs hv
    apply (ha'.possible (((h i hi).declared (hzero hs) s).trans hs) hv).imp_left
    intro hp
    exact Bool.or_eq_true_iff.2 (Or.inr (List.any_eq_true.2 ⟨_, hmem, hp⟩))

/-- Where a branch is live, the state after a fork counts what each of the branches made possible. -/
theorem held_branch (h : ∀ i ∈ l, Sound x covered (n i) (p i) (r i)) (hc : covered) (hn : (l.map n).sum = 0)
    (hs : s.declared = true) (ha : Agrees x 0 s c) (hf : (Pass.fork (l.map p) s).2 = []) {i j : ι} (hi : i ∈ l)
    (hj : j ∈ l) (hlive : (p j s).1.exited = false) (hr : r i es e) (hv : (c.afterAll es).valued = true) :
    (Pass.fork (l.map p) s).1.possible = true ∨ x.catches := by
  rw [fork_eq] at hf ⊢
  rw [s.join_of_live (List.mem_map_of_mem (f := fun j => (p j s).1) hj) hlive]
  have hf' := List.flatMap_eq_nil_iff.1 hf i hi
  apply ((h i hi).held hc (eq_zero_of_sum hn hi) hs ha hf' hr hv).imp_left
  intro hp
  exact Bool.or_eq_true_iff.2 (Or.inr (List.any_eq_true.2 ⟨_, List.mem_map_of_mem hi, hp⟩))

end

/-- Alternatives. A fork with no way on forgets what its branches made possible, which `hdead` excuses. -/
theorem fork (h : ∀ i ∈ l, Sound x covered (n i) (p i) (r i))
    (hdead : covered → (∀ es, ¬ oneOf (l.map r) es .normal) → ¬ (oneOf (l.map r)).Only (· ≠ .assign) → x.catches) :
    Sound x covered (l.map n).sum (.fork (l.map p)) (oneOf (l.map r)) where
  toFramed := Framed.fork fun i hi => (h i hi).toFramed
  safe := by
    intro k s c es e hk ha hf hr
    rw [fork_eq] at hf
    rcases hr with ⟨-, rfl, -⟩ | ⟨r', hr', hr⟩
    · trivial
    · obtain ⟨i, hi, rfl⟩ := List.mem_map.1 hr'
      exact (h i hi).safe (Nat.le_trans (le_sum hi) hk) ha (List.flatMap_eq_nil_iff.1 hf i hi) hr
  agrees := by
    intro k s c es hk ha hf hr
    rcases hr with ⟨hl, rfl, -⟩ | ⟨r', hr', hr⟩
    · rw [List.map_eq_nil_iff] at hl
      subst hl
      exact ha
    · obtain ⟨i, hi, rfl⟩ := List.mem_map.1 hr'
      exact agrees_branch h hk ha hf hi hr
  held := by
    intro s c es e hc hn hs ha hf hr hv
    have hframed := Framed.fork fun i hi => (h i hi).toFramed
    rcases Bool.eq_false_or_eq_true c.valued with hv' | hv'
    · exact (ha.possible hs hv').imp (hframed.possible s) And.left
    have hassign : ¬ (oneOf (l.map r)).Only (· ≠ .assign) := by
      intro honly
      have := Store.valued_of_afterAll (hframed.silent hn _ _ hr) (honly _ _ hr) hv
      simp [hv'] at this
    by_cases hlive : ∃ j ∈ l, (p j s).1.exited = false
    · obtain ⟨j, hj, hlive⟩ := hlive
      rcases hr with ⟨-, rfl, -⟩ | ⟨r', hr', hr⟩
      · exact absurd hv (by simp [hv'])
      · obtain ⟨i, hi, rfl⟩ := List.mem_map.1 hr'
        exact held_branch h hc hn hs ha hf hi hj hlive hr hv
    · refine Or.inr (hdead hc ?_ hassign)
      rintro es' (⟨hl, -⟩ | ⟨r', hr', hrun⟩)
      · rw [hl] at hassign
        exact hassign (only_oneOf (List.forall_mem_nil _))
      · obtain ⟨i, hi, rfl⟩ := List.mem_map.1 hr'
        rw [fork_eq] at hf
        have ha' := (h i hi).agrees (Nat.le_of_eq (eq_zero_of_sum hn hi)) ha (List.flatMap_eq_nil_iff.1 hf i hi) hrun
        exact hlive ⟨i, hi, ha'.live⟩

/-! ### Loops -/

section

variable {k : Nat} {s : FlowState} {c : Store} {es : List Event} {e : Ending}

/-- The rounds of a loop neither declare nor assign the target where it has been passed, so every round starts in a
store that agrees with the state before the loop. -/
theorem agrees_rounds (h : ∀ i ∈ l, Sound x covered (n i) (p i) (r i)) (hk : (l.map n).sum ≤ k)
    (ha : Agrees x k s.withBarrier c) (hf : (Pass.all (l.map p) s.withBarrier).2 = []) (hr : Rounds (l.map r) es e) :
    Agrees x k s.withBarrier (c.afterAll es) := by
  apply ha.afterAll
  intro hs
  have hn : (l.map n).sum = 0 := by
    have := ha.eq_zero hs
    omega
  have hsilent := fun i hi => (h i hi).silent (eq_zero_of_sum hn hi)
  have hquiet := Framed.quiet_of_mem (fun i hi => (h i hi).toFramed) hn (Or.inl rfl) hf
  exact ⟨only_rounds (List.forall_mem_map.2 hsilent) _ _ hr, only_rounds (List.forall_mem_map.2 hquiet) _ _ hr⟩

theorem safe_rounds (h : ∀ i ∈ l, Sound x covered (n i) (p i) (r i)) (hk : (l.map n).sum ≤ k)
    (ha : Agrees x k s.withBarrier c) (hf : (Pass.all (l.map p) s.withBarrier).2 = []) (hr : Rounds (l.map r) es e) :
    Safe x c es := by
  induction hr generalizing c with
  | last i hr =>
    have htake := all fun j (hj : j ∈ l.take i) => h j (List.mem_of_mem_take hj)
    have hle := sum_take_le l n i
    rw [← List.map_take] at hr
    refine htake.safe (Nat.le_trans hle hk) ha ?_ hr
    rw [List.map_take]
    exact findings_take hf i
  | again hr he _ ih =>
    have hround : Rounds (l.map r) _ .normal := .again hr he (.last 0 ⟨rfl, rfl⟩)
    rw [List.append_nil] at hround
    exact safe_append.2 ⟨(all h).safe hk ha hf hr, ih (agrees_rounds h hk ha hf hround)⟩
  | stop hr _ => exact (all h).safe hk ha hf hr

end

/-- After the rounds the store agrees with the state in which the clause after the loop starts. -/
theorem safe_and_agrees_rounds (h : ∀ i ∈ l, Sound x covered (n i) (p i) (r i)) {k : Nat} {s : FlowState} {c : Store}
    {es : List Event} {e : Ending} (hk : (l.map n).sum ≤ k) (ha : Agrees x k s c)
    (hf : (Pass.all (l.map p) s.withBarrier).2 = []) (hr : Rounds (l.map r) es e) :
    Safe x c es ∧ Agrees x k (Pass.loop (.all (l.map p)) s).1 (c.afterAll es) := by
  have hb : Agrees x k s.withBarrier c := ha.congr (Nat.le_refl k) rfl rfl rfl id
  constructor
  · exact safe_rounds h hk hb hf hr
  · refine (agrees_rounds h hk hb hf hr).congr (Nat.le_refl k) rfl rfl rfl ?_
    intro hs
    exact Bool.or_eq_true_iff.2 (Or.inl hs)

/-- A loop with what follows it. -/
theorem loop {n' : Nat} {p' : Pass} {r' : Runs} (h : ∀ i ∈ l, Sound x covered (n i) (p i) (r i))
    (h' : Sound x covered n' p' r') :
    Sound x covered ((l.map n).sum + n') ((Pass.loop (.all (l.map p))).andThen p'.interruptible)
      (Loop (l.map r) r') where
  toFramed := Framed.loop (fun i hi => (h i hi).toFramed) h'.toFramed
  safe := by
    intro k s c es e hk ha hf hr
    obtain ⟨hf, hf'⟩ := List.append_eq_nil_iff.1 hf
    cases hr with
    | done hr hr' =>
      obtain ⟨hsafe, ha'⟩ := safe_and_agrees_rounds h (by omega) ha hf hr
      exact safe_append.2 ⟨hsafe, h'.safe (by omega) ha' hf' hr'⟩
    | broke hr => exact (safe_and_agrees_rounds h (by omega) ha hf hr).1
    | left hr => exact (safe_and_agrees_rounds h (by omega) ha hf hr).1
  agrees := by
    intro k s c es hk ha hf hr
    obtain ⟨hf, hf'⟩ := List.append_eq_nil_iff.1 hf
    rcases loop_normal hr with ⟨es₁, es₂, rfl, hr, hr'⟩ | hr
    · obtain ⟨-, ha'⟩ := safe_and_agrees_rounds h (by omega) ha hf hr
      rw [Store.afterAll_append]
      exact (h'.interruptible.agrees (by omega) ha' hf' hr').congr (by omega) rfl rfl rfl id
    · obtain ⟨-, ha'⟩ := safe_and_agrees_rounds h (by omega) ha hf hr
      exact ha'.congr (Nat.sub_le ..) rfl rfl rfl (h'.possible _)
  held := by
    intro s c es e hc hn hs ha hf hr hv
    obtain ⟨hn, hn'⟩ := Nat.add_eq_zero_iff.1 hn
    obtain ⟨hf, hf'⟩ := List.append_eq_nil_iff.1 hf
    cases hr with
    | done hr hr' =>
      obtain ⟨-, ha'⟩ := safe_and_agrees_rounds h (Nat.le_of_eq hn) ha hf hr
      rw [Store.afterAll_append] at hv
      exact h'.held hc hn' hs ha' hf' hr' hv
    | broke hr =>
      obtain ⟨-, ha'⟩ := safe_and_agrees_rounds h (Nat.le_of_eq hn) ha hf hr
      exact (ha'.possible hs hv).imp (h'.possible _) And.left
    | left hr =>
      obtain ⟨-, ha'⟩ := safe_and_agrees_rounds h (Nat.le_of_eq hn) ha hf hr
      exact (ha'.possible hs hv).imp (h'.possible _) And.left

/-! ### Try statements -/

/-- Clauses that do not run only make more possible. -/
theorem agrees_clauses (h : ∀ i ∈ l, Sound x covered (n i) (p i) (r i)) {k k' : Nat} {s : FlowState} {c : Store}
    (ha : Agrees x k s c) (hk : k' ≤ k) : Agrees x k' (Pass.all (l.map fun i => (p i).interruptible) s).1 c := by
  obtain ⟨hexited, hdeclared, hdefinite⟩ := clauses_keep l p s
  exact ha.congr hk hexited hdeclared hdefinite ((Framed.clauses fun i hi => (h i hi).toFramed).possible s)

theorem clauses (h : ∀ i ∈ l, Sound x covered (n i) (p i) (r i)) :
    Sound x covered (l.map n).sum (.all (l.map fun i => (p i).interruptible)) (oneOf (l.map r)) := by
  induction l with
  | nil =>
    rw [List.map_nil, List.map_nil, List.map_nil, oneOf_nil]
    exact skip
  | cons i l ih =>
    have hframed := Framed.clauses fun j hj => (h j hj).toFramed
    obtain ⟨hi, hl⟩ := List.forall_mem_cons.1 h
    have hcut := hi.interruptible
    -- The later clauses start where the first one, which does not run, has been gone through.
    have hpast {k s c} (ha : Agrees x k s c) : Agrees x k ((p i).interruptible s).1 c :=
      ha.congr (Nat.le_refl k) rfl rfl rfl (hi.possible s)
    constructor
    case toFramed => exact hframed
    case safe =>
      intro k s c es e hk ha hf hr
      rw [List.map_cons, List.sum_cons] at hk
      obtain ⟨hf, hf'⟩ := List.append_eq_nil_iff.1 hf
      rcases oneOf_cons hr with hr | hr
      · exact hcut.safe (by omega) ha hf hr
      · exact (ih hl).safe (by omega) (hpast ha) hf' hr
    case agrees =>
      intro k s c es hk ha hf hr
      rw [List.map_cons, List.sum_cons] at hk ⊢
      obtain ⟨hf, hf'⟩ := List.append_eq_nil_iff.1 hf
      rcases oneOf_cons hr with hr | hr
      · exact agrees_clauses hl (hcut.agrees (by omega) ha hf hr) (by omega)
      · exact ((ih hl).agrees (by omega) (hpast ha) hf' hr).congr (by omega) rfl rfl rfl id
    case held =>
      intro s c es e hc hn hs ha hf hr hv
      obtain ⟨hn, hn'⟩ := Nat.add_eq_zero_iff.1 hn
      obtain ⟨hf, hf'⟩ := List.append_eq_nil_iff.1 hf
      rcases oneOf_cons hr with hr | hr
      · exact (hcut.held hc hn hs ha hf hr hv).imp_left ((ih hl).possible _)
      · exact (ih hl).held hc hn' hs (hpast ha) hf' hr hv

/-- Where a block is abandoned, the part of it that has run counts, whatever it would have come to. -/
theorem agrees_abandoned {n' : Nat} {p' : Pass} {r' : Runs} (hblock : Sound x True n' p' r') {k : Nat} {s : FlowState}
    {c : Store} {es rest : List Event} {e : Ending} (hk : n' ≤ k) (ha : Agrees x k s c) (hf : (p' s).2 = [])
    (hr : r' (es ++ rest) e) : Agrees x (k - n') (p'.interruptible s).1 ((c.afterAll es).after .caught) := by
  cases hs : s.declared with
  | false => exact (ha.of_not_declared hs _).congr (Nat.sub_le ..) rfl rfl rfl (hblock.possible s)
  | true =>
    have hn : n' = 0 := by
      have := ha.eq_zero hs
      omega
    have hsilent := hblock.silent hn _ _ hr
    obtain ⟨hes, hrest⟩ := List.forall_mem_append.1 hsilent
    constructor
    case live => exact ha.live
    case once => exact Nat.le_trans (Nat.sub_le ..) ha.once
    case ahead =>
      intro hpos
      exact ha.ahead (by omega)
    case declared =>
      intro _
      exact Store.declared_afterAll es (ha.declared hs)
    case definite =>
      intro _ hd
      exact Store.valued_afterAll hes (ha.definite hs hd)
    case possible =>
      intro _ hv
      have hv' : (c.afterAll (es ++ rest)).valued = true := by
        rw [Store.afterAll_append]
        exact Store.valued_afterAll hrest hv
      have ha' : Agrees x 0 s c := ha.congr (Nat.zero_le k) rfl rfl rfl id
      exact (hblock.held trivial hn hs ha' hf hr hv').imp_right fun hx => ⟨hx, rfl⟩

/-- A block that may be abandoned for one of the clauses. -/
theorem guarded {n' : Nat} {p' : Pass} {r' : Runs} (hblock : Sound x True n' p' r')
    (h : ∀ i ∈ l, Sound x covered (n i) (p i) (r i)) :
    Sound x covered (n' + (l.map n).sum) (p'.interruptible.andThen (.all (l.map fun i => (p i).interruptible)))
      (Guarded r' (l.map r)) where
  toFramed := (clauses h).toFramed.guarded hblock.toFramed
  safe := by
    intro k s c es e hk ha hf hr
    obtain ⟨hf, hf'⟩ := List.append_eq_nil_iff.1 hf
    cases hr with
    | through hr => exact hblock.safe (by omega) ha hf hr
    | caught hr hmem hr' =>
      obtain ⟨hsafe, -⟩ := safe_append.1 (hblock.safe (by omega) ha hf hr)
      have ha' := agrees_abandoned hblock (by omega) ha hf hr
      exact safe_append.2 ⟨hsafe, trivial, (clauses h).safe (by omega) ha' hf' (Or.inr ⟨_, hmem, hr'⟩)⟩
  agrees := by
    intro k s c es hk ha hf hr
    obtain ⟨hf, hf'⟩ := List.append_eq_nil_iff.1 hf
    cases hr with
    | through hr => exact agrees_clauses h (hblock.interruptible.agrees (by omega) ha hf hr) (by omega)
    | caught hr hmem hr' =>
      have ha' := agrees_abandoned hblock (by omega) ha hf hr
      rw [Store.afterAll_append, Store.afterAll_cons]
      exact ((clauses h).agrees (by omega) ha' hf' (Or.inr ⟨_, hmem, hr'⟩)).congr (by omega) rfl rfl rfl id
  held := by
    intro s c es e hc hn hs ha hf hr hv
    obtain ⟨hn, hn'⟩ := Nat.add_eq_zero_iff.1 hn
    obtain ⟨hf, hf'⟩ := List.append_eq_nil_iff.1 hf
    cases hr with
    | through hr => exact (hblock.held trivial hn hs ha hf hr hv).imp_left ((clauses h).possible _)
    | caught hr hmem hr' =>
      have ha' := agrees_abandoned hblock (Nat.le_of_eq hn) ha hf hr
      rw [Store.afterAll_append, Store.afterAll_cons] at hv
      exact (clauses h).held hc hn' hs (ha'.congr (Nat.zero_le _) rfl rfl rfl id) hf' (Or.inr ⟨_, hmem, hr'⟩) hv

end

end Sound

end SemCheck.Execution
