import SemCheck.Proofs.Guard.Logged
import SemCheck.Proofs.Guard.Scopes

/-!
# The books of a guard

What is done to a guard comes down to *steps*: a key is entered, a key is left, the guard is reset. A scope makes two
steps, one before and one after those of its body (`stepsOf`). A leave that fails changes nothing, and where it ends a
scope early, the steps that are left out are missing at the end only: what is left is a list of steps again.

The keys being visited, the depth, the count of attempts and the note of limits met are kept apart from one another and
changed in different places. One step keeps them in agreement with one another and with the answers since the last reset
(`Booked.after`), and so does a whole run.

Main statement: `bookkeeping`.
-/

namespace SemCheck.Guard

/-- What is done to a guard at a time. -/
inductive Step (κ : Type)
  | enter (key : κ)
  | leave (key : κ)
  | reset

variable {κ : Type} [Keyed κ] [DecidableEq κ] {p : Profile} {g g' : Guard κ} {l : Logged κ} {key : κ}

/-- The guard after a step; a leave that fails leaves it as it is. -/
def Step.apply (g : Guard κ) : Step κ → Guard κ
  | .enter key => (g.enter key).2
  | .leave key => (g.leave? key).getD g
  | .reset => g.reset

/-- The guard after a step, with the answers since the last reset. -/
def Logged.after (l : Logged κ) (s : Step κ) : Logged κ where
  guard := s.apply l.guard
  answers :=
    match s with
    | .enter key => (l.guard.enter key).1 :: l.answers
    | .leave _ => l.answers
    | .reset => []

theorem guard_foldl_after (l : Logged κ) (steps : List (Step κ)) :
    (steps.foldl Logged.after l).guard = steps.foldl Step.apply l.guard := by
  induction steps generalizing l with
  | nil => rfl
  | cons s steps ih => exact ih (l.after s)

/-! ## The steps of a run -/

/-- The steps of entering a key and, with `leaving`, leaving it again. -/
def enterSteps (g : Guard κ) (leaving : Bool) (key : κ) : List (Step κ) :=
  .enter key :: if leaving ∧ (g.enter key).1 = .entered then [.leave key] else []

def enterAllSteps (g : Guard κ) (leaving : Bool) : List κ → List (Step κ)
  | [] => []
  | key :: keys =>
    let steps := enterSteps g leaving key
    steps ++ enterAllSteps (steps.foldl Step.apply g) leaving keys

def leaveAllSteps (g : Guard κ) : List κ → List (Step κ)
  | [] => []
  | key :: keys =>
    match g.leave? key with
    | some g => .leave key :: leaveAllSteps g keys
    | none => [.leave key]

mutual

/-- The steps of an action, those of a scope with the steps of its body between them. -/
def stepsOf (g : Guard κ) : Action κ → List (Step κ)
  | .enter key => [.enter key]
  | .leave key => [.leave key]
  | .isVisiting _ => []
  | .reset => [.reset]
  | .scope key body =>
    match g.enter key with
    | (.entered, g) => .enter key :: (stepsOfAll g body ++ [.leave key])
    | _ => [.enter key]
  | .enterAll keys leaving => enterAllSteps g leaving keys
  | .leaveAll keys => leaveAllSteps g keys

def stepsOfAll (g : Guard κ) : List (Action κ) → List (Step κ)
  | [] => []
  | a :: as => stepsOf g a ++ stepsOfAll (run g a).2 as

end

theorem enterNext_eq (leaving : Bool) (acc : List Entry × Guard κ) (key : κ) :
    (enterNext leaving acc key).2 = (enterSteps acc.2 leaving key).foldl Step.apply acc.2 := by
  unfold enterNext enterSteps
  rcases henter : acc.2.enter key with ⟨_ | _, g⟩
  · cases leaving with
    | false => simp [Step.apply, henter]
    | true =>
      have hmem : key ∈ g.visiting.toList := by
        rw [(enter_entered henter).1]
        exact List.mem_cons_self
      simp [Step.apply, henter, leave?_of_mem hmem]
  all_goals simp [Step.apply, henter]

theorem foldl_enterNext (leaving : Bool) (keys : List κ) (acc : List Entry × Guard κ) :
    (keys.foldl (enterNext leaving) acc).2 = (enterAllSteps acc.2 leaving keys).foldl Step.apply acc.2 := by
  induction keys generalizing acc with
  | nil => rfl
  | cons key keys ih => rw [List.foldl_cons, ih, enterAllSteps, List.foldl_append, ← enterNext_eq]

theorem leaveAll_eq (g : Guard κ) (keys : List κ) :
    (g.leaveAll keys).2 = (g.leaveAllSteps keys).foldl Step.apply g := by
  induction keys generalizing g with
  | nil => rfl
  | cons key keys ih =>
    cases hleave : g.leave? key with
    | none => simp [leaveAll, leaveAllSteps, Step.apply, hleave]
    | some g' => simp [leaveAll, leaveAllSteps, Step.apply, hleave, ih]

mutual

theorem run_eq (g : Guard κ) : ∀ a : Action κ, (g.run a).2 = (g.stepsOf a).foldl Step.apply g
  | .enter _ | .isVisiting _ | .reset => rfl
  | .leave key => by
    cases hleave : g.leave? key with
    | none => simp [run, stepsOf, leaveAll, Step.apply, hleave]
    | some g' => simp [run, stepsOf, leaveAll, Step.apply, hleave]
  | .scope key body => by
    rw [run, stepsOf]
    rcases henter : g.enter key with ⟨_ | _, g₁⟩
    · have hbody := runAll_eq g₁ body
      simp only [List.foldl_cons, List.foldl_append, Step.apply, henter, ← hbody]
      cases (g₁.runAll body).2.leave? key <;> rfl
    all_goals simp [Step.apply, henter]
  | .enterAll keys leaving => foldl_enterNext leaving keys ([], g)
  | .leaveAll keys => leaveAll_eq g keys

/-- **A run comes down to its steps**. -/
theorem runAll_eq (g : Guard κ) : ∀ as : List (Action κ), (g.runAll as).2 = (g.stepsOfAll as).foldl Step.apply g
  | [] => rfl
  | a :: as => by
    rw [stepsOfAll, List.foldl_append, ← run_eq g a, ← runAll_eq _ as]
    rfl

end

/-! ## One attempt -/

/-- A limit that an attempt runs into is noted. -/
theorem exceeded_enter (g : Guard κ) (key : κ) :
    (g.enter key).2.exceeded = (g.exceeded || (g.enter key).1.isExceeded) := by
  unfold enter
  grind [Entry.isExceeded]

/-! ## Runs -/

/-- The books of a guard agree with the keys being visited and with the answers since the last reset. -/
structure Booked (p : Profile) (l : Logged κ) : Prop where
  maxDepth : l.guard.maxDepth = p.maxDepth
  maxIterations : l.guard.maxIterations = p.maxIterations
  depth : l.guard.depth = l.guard.visiting.toList.length
  depth_le : l.guard.depth ≤ min p.maxDepth Limits.visitingSize
  iterations : l.guard.iterations = min l.answers.length iterationCeiling
  exceeded : l.guard.exceeded = true ↔ ∃ e ∈ l.answers, e.isExceeded = true

theorem booked_start (p : Profile) : Booked p (⟨.ofProfile p, []⟩ : Logged κ) where
  maxDepth := rfl
  maxIterations := rfl
  depth := rfl
  depth_le := Nat.zero_le _
  iterations := rfl
  exceeded := by simp [ofProfile]

theorem Booked.enter (h : Booked p l) (key : κ) : Booked p (l.after (.enter key)) := by
  obtain ⟨hmaxDepth, hmaxIterations⟩ := limits_enter l.guard key
  have hdepth : (l.guard.enter key).2.depth = (l.guard.enter key).2.visiting.toList.length ∧
      (l.guard.enter key).2.depth ≤ min p.maxDepth Limits.visitingSize := by
    by_cases hentered : (l.guard.enter key).1 = .entered
    · obtain ⟨-, hroom, -, hsize⟩ := (entered_iff l.guard key).1 hentered
      obtain ⟨hvisiting, hdeeper⟩ := enter_entered (Prod.ext hentered rfl)
      rw [h.maxDepth] at hroom
      rw [hvisiting, hdeeper, List.length_cons, h.depth]
      rw [h.depth] at hroom
      exact ⟨rfl, Nat.le_min.2 ⟨hroom, hsize⟩⟩
    · obtain ⟨hvisiting, hsame⟩ := enter_of_ne_entered hentered
      rw [hvisiting, hsame]
      exact ⟨h.depth, h.depth_le⟩
  constructor
  case maxDepth => exact hmaxDepth.trans h.maxDepth
  case maxIterations => exact hmaxIterations.trans h.maxIterations
  case depth => exact hdepth.1
  case depth_le => exact hdepth.2
  case iterations => exact Logged.Counts.enter h.iterations key _
  case exceeded =>
    show (l.guard.enter key).2.exceeded = true ↔ ∃ e ∈ (l.guard.enter key).1 :: l.answers, e.isExceeded = true
    rw [exceeded_enter, Bool.or_eq_true, h.exceeded]
    simp [or_comm]

theorem Booked.leave (h : Booked p l) (key : κ) : Booked p (l.after (.leave key)) := by
  by_cases hmem : key ∈ l.guard.visiting.toList
  · obtain ⟨hiterations, hmaxDepth, hmaxIterations⟩ := counts_leave l.guard key
    have hguard : (l.after (.leave key)).guard = l.guard.leave key := by
      rw [Logged.after, Step.apply, leave?_of_mem hmem]
      rfl
    obtain ⟨hvisiting, hdepth, hexceeded⟩ := leave_of_mem hmem
    have hlength := List.length_erase_of_mem hmem
    constructor
    case maxDepth => exact hguard ▸ hmaxDepth.trans h.maxDepth
    case maxIterations => exact hguard ▸ hmaxIterations.trans h.maxIterations
    case depth => rw [hguard, hvisiting, hdepth, hlength, h.depth]
    case depth_le =>
      rw [hguard, hdepth]
      exact Nat.le_trans (Nat.sub_le _ _) h.depth_le
    case iterations => exact hguard ▸ hiterations.trans h.iterations
    case exceeded => rw [hguard, hexceeded]; exact h.exceeded
  · have hsame : l.after (.leave key) = l := by
      rw [Logged.after, Step.apply, leave?_eq_none_iff.2 hmem]
      rfl
    rw [hsame]
    exact h

theorem Booked.reset (h : Booked p l) : Booked p (l.after .reset) where
  maxDepth := h.maxDepth
  maxIterations := h.maxIterations
  depth := rfl
  depth_le := Nat.zero_le _
  iterations := rfl
  exceeded := by simp [Logged.after, Step.apply, Guard.reset]

theorem Booked.after (h : Booked p l) (s : Step κ) : Booked p (l.after s) := by
  cases s with
  | enter key => exact h.enter key
  | leave key => exact h.leave key
  | reset => exact h.reset

theorem Booked.run (h : Booked p l) (steps : List (Step κ)) : Booked p (steps.foldl Logged.after l) := by
  induction steps generalizing l with
  | nil => exact h
  | cons s steps ih => exact ih (h.after s)

/-- **A guard keeps its books**. After any steps from the start they agree with one another and with the answers since
the last reset; an attempt is answered by them, and neither a refusal nor a leave that fails changes what is being
visited. A run of actions comes down to its steps, and a scope with nothing but scopes in it gives back what it found. -/
theorem bookkeeping (p : Profile) :
    (∀ steps : List (Step κ), let l := steps.foldl Logged.after ⟨.ofProfile p, []⟩
      Booked p l ∧
        (∀ key, (l.guard.enter key).1 = .entered ↔
          min (l.answers.length + 1) iterationCeiling ≤ p.maxIterations ∧ l.guard.depth < p.maxDepth ∧
            key ∉ l.guard.visiting.toList ∧ l.guard.visiting.toList.length < Limits.visitingSize) ∧
        (∀ key, (l.guard.enter key).1 ≠ .entered →
          (l.guard.enter key).2.visiting = l.guard.visiting ∧ (l.guard.enter key).2.depth = l.guard.depth) ∧
        ∀ key, key ∉ l.guard.visiting.toList → l.guard.run (.leave key) = (.fault .notVisiting, l.guard)) ∧
      (∀ (l : Logged κ) (as : List (Action κ)),
        ((l.guard.stepsOfAll as).foldl Logged.after l).guard = (l.guard.runAll as).2) ∧
      ∀ (g : Guard κ) (key : κ) (body : List (Action κ)), Nested body →
        (g.run (.scope key body)).2.visiting.toList = g.visiting.toList ∧
          (g.run (.scope key body)).2.depth = g.depth := by
  refine ⟨fun steps => ?_, fun l as => ?_, fun g key body hbody => ?_⟩
  · intro l
    have hbooked : Booked p l := (booked_start p).run steps
    refine ⟨hbooked, fun key => ?_, fun key => enter_of_ne_entered, fun key hkey => ?_⟩
    · rw [entered_iff, hbooked.maxIterations, hbooked.maxDepth, hbooked.iterations]
      have hcount : min (min l.answers.length iterationCeiling + 1) iterationCeiling =
          min (l.answers.length + 1) iterationCeiling := by omega
      rw [hcount]
    · rw [Guard.run, leaveAll, leave?_eq_none_iff.2 hkey]
  · rw [guard_foldl_after, runAll_eq]
  · have hkept := (Restored.run_scope hbody.restored g key).toKept
    exact ⟨hkept.visiting, hkept.depth⟩

/-- A guard that lets in two keys at a time: 1 is refused while it is being visited, and 3 when it is too deep. -/
theorem bookkeeping_twoDeep :
    let l := [Step.enter 1, .enter 1, .enter 2, .enter 3].foldl Logged.after (⟨.ofProfile ⟨2, 9⟩, []⟩ : Logged Nat)
    let body := [Action.scope 4 [.scope 5 [.scope 6 []], .scope 4 []]]
    l.answers = [.depthExceeded, .entered, .cycle, .entered] ∧
      ((l.guard.enter 3).1 ≠ .entered ∧ (l.guard.enter 3).2.visiting = l.guard.visiting ∧
        (l.guard.enter 3).2.depth = l.guard.depth) ∧
      (3 ∉ l.guard.visiting.toList ∧ l.guard.run (.leave 3) = (.fault .notVisiting, l.guard)) ∧
      Nested body ∧ (Guard.run (.ofProfile ⟨2, 9⟩) (.scope 7 body)).2.visiting.toList = [] := by
  intro l body
  have hbooks := (bookkeeping (κ := Nat) ⟨2, 9⟩).1 [.enter 1, .enter 1, .enter 2, .enter 3]
  have hrefused : (l.guard.enter 3).1 ≠ .entered := by decide
  have hmissing : 3 ∉ l.guard.visiting.toList := by decide
  have hbody : Nested body := .scope 4 (.scope 5 (.scope 6 .nil .nil) (.scope 4 .nil .nil)) .nil
  refine ⟨by decide, ⟨hrefused, hbooks.2.2.1 3 hrefused⟩, ⟨hmissing, hbooks.2.2.2 3 hmissing⟩, hbody, ?_⟩
  exact ((bookkeeping ⟨2, 9⟩).2.2 _ 7 body hbody).1

end SemCheck.Guard
