import SemCheck.Guard.Run
import SemCheck.Proofs.Guard

/-!
# Guards in nested scopes

A run is *nested* if its actions are scopes and those in their bodies are too. Then every key that is entered is left
once, after all that were entered later: no leave finds its key missing or out of turn, and the guard is given back as
it was but for its count of attempts and for limits that it has met (`Nested.restored`).

A walk that does to its guard what a nested run does is *scoped* (`Scoped`). What walks are put together from keeps them
so: nothing, one walk after another (`Scoped.trans`) and a walk in a scope of its own (`Scoped.scope`).
-/

namespace SemCheck.Guard

variable {κ : Type}

/-- The actions are scopes, and so are those in their bodies. -/
inductive Nested : List (Action κ) → Prop
  | nil : Nested []
  | scope (key : κ) {body rest : List (Action κ)} (hbody : Nested body) (hrest : Nested rest) :
    Nested (.scope key body :: rest)

theorem Nested.append {as bs : List (Action κ)} (h : Nested as) (h' : Nested bs) : Nested (as ++ bs) := by
  induction h with
  | nil => exact h'
  | scope key hbody _ _ ih => exact .scope key hbody ih

variable [Keyed κ] [DecidableEq κ] {g g' g'' g₁ g₂ : Guard κ} {key : κ} {as bs body : List (Action κ)}

/-! ## Leaving -/

theorem leave?_of_mem (h : key ∈ g.visiting.toList) : g.leave? key = some (g.leave key) := by
  rw [leave, leave?, dif_pos (KeyStack.contains_iff.2 h), Option.getD_some]

theorem leave?_eq_none_iff : g.leave? key = none ↔ key ∉ g.visiting.toList := by
  constructor
  · intro h hmem
    rw [leave?_of_mem hmem] at h
    exact nomatch h
  · intro h
    rw [leave?, dif_neg (mt KeyStack.contains_iff.1 h)]

theorem faults_enter (g : Guard κ) (key : κ) :
    (g.enter key).2.faulted = g.faulted ∧ (g.enter key).2.outOfOrder = g.outOfOrder := by
  unfold enter
  grind

/-- Leaving the key entered last is no fault. -/
theorem faults_leave {keys : List κ} (h : g.visiting.toList = key :: keys) :
    (g.leave key).faulted = g.faulted ∧ (g.leave key).outOfOrder = g.outOfOrder := by
  have hmem : key ∈ g.visiting.toList := h ▸ List.mem_cons_self
  rw [leave, leave?, dif_pos (KeyStack.contains_iff.2 hmem), Option.getD_some]
  simp [h]

/-! ## Nested runs -/

/-- The guard is as it was, and no key has been left that was not the last one entered. -/
structure Restored (g g' : Guard κ) : Prop extends Kept g g' where
  faulted : g'.faulted = g.faulted
  outOfOrder : g'.outOfOrder = g.outOfOrder

theorem Restored.refl (g : Guard κ) : Restored g g := ⟨.refl g, rfl, rfl⟩

theorem Restored.trans (h : Restored g g') (h' : Restored g' g'') : Restored g g'' :=
  ⟨h.toKept.trans h'.toKept, h'.faulted.trans h.faulted, h'.outOfOrder.trans h.outOfOrder⟩

theorem Restored.refuse (h : (g.enter key).1 ≠ .entered) : Restored g (g.enter key).2 :=
  ⟨.refuse h, (faults_enter g key).1, (faults_enter g key).2⟩

/-- What has been entered last when the scope is left is its own key. -/
theorem visiting_of_restored (henter : g.enter key = (.entered, g₁)) (h : Restored g₁ g₂) :
    g₂.visiting.toList = key :: g.visiting.toList := h.visiting.trans (enter_entered henter).1

theorem Restored.leave (henter : g.enter key = (.entered, g₁)) (h : Restored g₁ g₂) : Restored g (g₂.leave key) := by
  obtain ⟨hfaulted, houtOfOrder⟩ := faults_enter g key
  rw [henter] at hfaulted houtOfOrder
  obtain ⟨hfaulted', houtOfOrder'⟩ := faults_leave (visiting_of_restored henter h)
  exact ⟨.leave henter h.toKept, hfaulted'.trans (h.faulted.trans hfaulted),
    houtOfOrder'.trans (h.outOfOrder.trans houtOfOrder)⟩

theorem runAll_append (g : Guard κ) (as bs : List (Action κ)) :
    (g.runAll (as ++ bs)).2 = ((g.runAll as).2.runAll bs).2 := by
  induction as generalizing g with
  | nil => rfl
  | cons a as ih => exact ih (g.run a).2

theorem run_scope_of_entered (henter : g.enter key = (.entered, g₁)) (h : Restored g₁ (g₁.runAll body).2) :
    (g.run (.scope key body)).2 = (g₁.runAll body).2.leave key := by
  have hmem : key ∈ (g₁.runAll body).2.visiting.toList := by
    rw [visiting_of_restored henter h]
    exact List.mem_cons_self
  rw [run, henter]
  dsimp only
  rw [leave?_of_mem hmem]

theorem run_scope_of_refused (h : (g.enter key).1 ≠ .entered) (body : List (Action κ)) :
    (g.run (.scope key body)).2 = (g.enter key).2 := by
  rw [run]
  rcases henter : g.enter key with ⟨_ | _, g₁⟩
  · exact absurd (congrArg Prod.fst henter) h
  all_goals rfl

/-- A scope gives the guard back as it was if its body does. -/
theorem Restored.run_scope (hbody : ∀ g, Restored g (g.runAll body).2) (g : Guard κ) (key : κ) :
    Restored g (g.run (.scope key body)).2 := by
  by_cases hentered : (g.enter key).1 = .entered
  · have henter : g.enter key = (.entered, (g.enter key).2) := Prod.ext hentered rfl
    rw [run_scope_of_entered henter (hbody _)]
    exact .leave henter (hbody _)
  · rw [run_scope_of_refused hentered]
    exact .refuse hentered

/-- **A nested run gives the guard back as it was**. -/
theorem Nested.restored (h : Nested as) (g : Guard κ) : Restored g (g.runAll as).2 := by
  induction h generalizing g with
  | nil => exact .refl g
  | scope key _ _ ihbody ihrest => exact (Restored.run_scope ihbody g key).trans (ihrest _)

/-! ## Walks in nested scopes -/

/-- What leads from `g` to `g'` is what a nested run does. -/
def Scoped (g g' : Guard κ) : Prop := ∃ as, Nested as ∧ (g.runAll as).2 = g'

theorem Scoped.refl (g : Guard κ) : Scoped g g := ⟨[], .nil, rfl⟩

theorem Scoped.trans (h : Scoped g g') (h' : Scoped g' g'') : Scoped g g'' := by
  obtain ⟨as, has, rfl⟩ := h
  obtain ⟨bs, hbs, rfl⟩ := h'
  exact ⟨as ++ bs, has.append hbs, runAll_append g as bs⟩

theorem Scoped.restored (h : Scoped g g') : Restored g g' := by
  obtain ⟨as, has, rfl⟩ := h
  exact has.restored g

theorem Scoped.kept (h : Scoped g g') : Kept g g' := h.restored.toKept

/-- A key that is refused stands for a scope that is not run. -/
theorem Scoped.refuse (h : (g.enter key).1 ≠ .entered) : Scoped g (g.enter key).2 :=
  ⟨[.scope key []], .scope key .nil .nil, run_scope_of_refused h []⟩

theorem Scoped.leave (henter : g.enter key = (.entered, g₁)) (h : Scoped g₁ g₂) : Scoped g (g₂.leave key) := by
  obtain ⟨as, has, rfl⟩ := h
  exact ⟨[.scope key as], .scope key has .nil, run_scope_of_entered henter (has.restored g₁)⟩

theorem Scoped.scope {α : Type} {body : Guard κ → α × Guard κ} (hbody : ∀ g, Scoped g (body g).2) (g : Guard κ)
    (key : κ) : Scoped g (g.scope key body).2 := by
  rcases scope_cases g key body with ⟨g₁, henter, hscope⟩ | ⟨hne, hscope⟩
  · rw [hscope]
    exact .leave henter (hbody g₁)
  · rw [hscope]
    exact .refuse hne

end SemCheck.Guard
