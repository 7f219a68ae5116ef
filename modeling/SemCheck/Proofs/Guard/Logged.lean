import SemCheck.Proofs.Guard

/-!
# Guards that keep their answers

A guard counts the attempts to enter a key and forgets what it has answered. Kept beside it, the answers are as many as
the guard has counted, up to the ceiling of its count (`Logged.Counts`), and change nothing (`Logged.guard_scope`).
-/

namespace SemCheck.Guard

/-- A guard with the answers that it has given, the last one first. -/
structure Logged (κ : Type) [Keyed κ] [DecidableEq κ] where
  guard : Guard κ
  answers : List Entry := []

namespace Logged

variable {κ : Type} [Keyed κ] [DecidableEq κ] {α : Type}

/-- `Guard.scope` with the answer kept. -/
def scope (l : Logged κ) (key : κ) (body : Logged κ → α × Logged κ) : Except Entry α × Logged κ :=
  match l.guard.enter key with
  | (.entered, g) =>
    let (result, l) := body ⟨g, .entered :: l.answers⟩
    (.ok result, { l with guard := l.guard.leave key })
  | (refusal, g) => (.error refusal, ⟨g, refusal :: l.answers⟩)

/-- So far every key has been let in. -/
def AllEntered (l : Logged κ) : Prop := ∀ e ∈ l.answers, e = .entered

/-- The guard has given an answer to every attempt that it has counted. -/
def Counts (l : Logged κ) : Prop := l.guard.iterations = min l.answers.length iterationCeiling

theorem scope_of_entered {l : Logged κ} {key : κ} {g : Guard κ} (h : l.guard.enter key = (.entered, g))
    (body : Logged κ → α × Logged κ) : l.scope key body =
      (.ok (body ⟨g, .entered :: l.answers⟩).1,
        { (body ⟨g, .entered :: l.answers⟩).2 with
          guard := (body ⟨g, .entered :: l.answers⟩).2.guard.leave key }) := by
  rw [scope, h]

/-- What is kept aside does not change a scope. -/
theorem guard_scope (l : Logged κ) (key : κ) (body : Logged κ → α × Logged κ) :
    ((l.scope key body).1, (l.scope key body).2.guard) = l.guard.scope key fun g =>
      ((body ⟨g, .entered :: l.answers⟩).1, (body ⟨g, .entered :: l.answers⟩).2.guard) := by
  rw [scope, Guard.scope]
  rcases l.guard.enter key with ⟨_ | _, g⟩ <;> rfl

theorem AllEntered.cons {l : Logged κ} (h : l.AllEntered) (g : Guard κ) : AllEntered ⟨g, .entered :: l.answers⟩ :=
  List.forall_mem_cons.2 ⟨rfl, h⟩

theorem Counts.enter {l : Logged κ} (h : l.Counts) (key : κ) (e : Entry) :
    Counts ⟨(l.guard.enter key).2, e :: l.answers⟩ := by
  unfold Counts at h ⊢
  rw [iterations_enter, h, List.length_cons]
  omega

theorem Counts.scope {l : Logged κ} (h : l.Counts) (key : κ) {body : Logged κ → α × Logged κ}
    (hbody : ∀ l, l.Counts → (body l).2.Counts) : (l.scope key body).2.Counts := by
  have hattempt := h.enter key
  rw [Logged.scope]
  rcases henter : l.guard.enter key with ⟨_ | _, g⟩
  · rw [henter] at hattempt
    have hkept := hbody _ (hattempt .entered)
    exact (counts_leave _ key).1.trans hkept
  all_goals
    rw [henter] at hattempt
    exact hattempt _

end Logged

end SemCheck.Guard
