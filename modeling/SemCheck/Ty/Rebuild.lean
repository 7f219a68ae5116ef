import SemCheck.Limits
import SemCheck.Ty.Basic

/-!
# Rebuilding types from the inside out

`Ty.rebuild` goes through a type from left to right, the parts before the whole, hands every type with its rebuilt
parts to a function and threads a state through. `Ty.rebuildFrames` has a stack of its own in place of the recursion, so
that types of any depth can be rebuilt, and does not go into a type of which the result is known.

Main statement: seen through a view of the state, `rebuildFrames` comes to the same as `rebuild` (`rebuildFrames_map`).
-/

namespace SemCheck.Ty

variable {σ : Type} (node : Ty → σ → Ty × σ)

mutual

/-- Rebuilds the parts of a type, and then the type with `node`. -/
def rebuild : Ty → σ → Ty × σ
  | .applied d args, s =>
    let (args, s) := rebuildAll args s
    node (.applied d args) s
  | .union members, s =>
    let (members, s) := rebuildAll members s
    node (.union members) s
  | .intersection members, s =>
    let (members, s) := rebuildAll members s
    node (.intersection members) s
  | .param d, s => node (.param d) s
  | .nothing, s => node .nothing s
  | .unknown n, s => node (.unknown n) s

def rebuildAll : List Ty → σ → List Ty × σ
  | [], s => ([], s)
  | t :: ts, s =>
    let (t, s) := rebuild t s
    let (ts, s) := rebuildAll ts s
    (t :: ts, s)

end

/-- Parts that are rebuilt without a change of state, each to its image, are rebuilt so together. -/
theorem rebuildAll_of_forall {f : Ty → Ty} {s : σ} {ts : List Ty} (h : ∀ t ∈ ts, rebuild node t s = (f t, s)) :
    rebuildAll node ts s = (ts.map f, s) := by
  induction ts with
  | nil => rfl
  | cons t ts ih =>
    simp [rebuildAll, h t List.mem_cons_self, ih fun u hu => h u (List.mem_cons_of_mem _ hu)]

/-! ## Views of the state -/

section

variable {τ : Type} {node} {node' : Ty → τ → Ty × τ} (view : σ → τ)

theorem rebuildAll_map_of_forall (ts : List Ty)
    (h : ∀ t ∈ ts, ∀ s, ((rebuild node t s).1, view (rebuild node t s).2) = rebuild node' t (view s)) (s : σ) :
    ((rebuildAll node ts s).1, view (rebuildAll node ts s).2) = rebuildAll node' ts (view s) := by
  induction ts generalizing s with
  | nil => rfl
  | cons t ts ih =>
    have ht := h t List.mem_cons_self s
    have hts := ih (fun u hu => h u (List.mem_cons_of_mem _ hu)) (rebuild node t s).2
    simp only [rebuildAll, ← ht, ← hts]

/-- If `node'` does to a view of the state what `node` does to the state, rebuilding does so too. -/
theorem rebuild_map (h : ∀ t s, ((node t s).1, view (node t s).2) = node' t (view s)) (t : Ty) (s : σ) :
    ((rebuild node t s).1, view (rebuild node t s).2) = rebuild node' t (view s) := by
  induction t generalizing s with
  | applied d args ih =>
    have key := rebuildAll_map_of_forall view args ih s
    simp only [rebuild, ← key, h]
  | union members ih =>
    have key := rebuildAll_map_of_forall view members ih s
    simp only [rebuild, ← key, h]
  | intersection members ih =>
    have key := rebuildAll_map_of_forall view members ih s
    simp only [rebuild, ← key, h]
  | nothing => exact h ..
  | unknown n => exact h ..
  | param d => exact h ..

end

/-! ## With a stack -/

/-- The outer form of a type with parts. -/
inductive Shell
  | applied (d : DeclId)
  | union
  | intersection

def Shell.fill : Shell → List Ty → Ty
  | applied d, parts => .applied d parts
  | union, parts => .union parts
  | intersection, parts => .intersection parts

/-- The outer form and the parts, for a type that has some. -/
def shell? : Ty → Option (Shell × Ty × List Ty)
  | .applied d (t :: ts) => some (.applied d, t, ts)
  | .union (t :: ts) => some (.union, t, ts)
  | .intersection (t :: ts) => some (.intersection, t, ts)
  | _ => none

/-- A type of which one part is being rebuilt. -/
structure Frame where
  shell : Shell
  /-- The rebuilt parts, the last one first. -/
  done : List Ty
  todo : List Ty

/-- A type to be rebuilt, or one that is. -/
inductive Turn
  | down (t : Ty)
  | up (t : Ty)

/-- What is left to do around a rebuilt type, by recursion. -/
def unwind : List Frame → Ty → σ → Ty × σ
  | [], t, s => (t, s)
  | f :: frames, t, s =>
    let (ts, s) := rebuildAll node f.todo s
    let (u, s) := node (f.shell.fill (f.done.reverse ++ t :: ts)) s
    unwind frames u s

/-- The end of a turn, by recursion. -/
def finish : Turn → List Frame → σ → Ty × σ
  | .down t, frames, s =>
    let (t, s) := rebuild node t s
    unwind node frames t s
  | .up t, frames, s => unwind node frames t s

/-- Takes `fuel` steps at most before the rest is done by recursion; `known?` gives the results that are known. -/
def run (known? : Ty → σ → Option Ty) : (fuel : Nat) → Turn → List Frame → σ → Ty × σ
  | 0, turn, frames, s => finish node turn frames s
  | fuel + 1, .down t, frames, s =>
    match known? t s with
    | some u => run known? fuel (.up u) frames s
    | none =>
      match t.shell? with
      | some (shell, t, ts) => run known? fuel (.down t) (⟨shell, [], ts⟩ :: frames) s
      | none =>
        let (t, s) := node t s
        run known? fuel (.up t) frames s
  | _, .up t, [], s => (t, s)
  | fuel + 1, .up t, f :: frames, s =>
    match f.todo with
    | u :: todo => run known? fuel (.down u) ({ f with done := t :: f.done, todo } :: frames) s
    | [] =>
      let (u, s) := node (f.shell.fill (t :: f.done).reverse) s
      run known? fuel (.up u) frames s

def rebuildFrames (known? : Ty → σ → Option Ty) (t : Ty) (s : σ) : Ty × σ :=
  run node known? Limits.loopSteps (.down t) [] s

theorem rebuild_of_shell?_eq_some {t u : Ty} {shell : Shell} {us : List Ty} (h : t.shell? = some (shell, u, us))
    (s : σ) : rebuild node t s =
      node (shell.fill (rebuildAll node (u :: us) s).1) (rebuildAll node (u :: us) s).2 := by
  unfold shell? at h
  split at h <;> cases h <;> rfl

theorem rebuild_of_shell?_eq_none {t : Ty} (h : t.shell? = none) (s : σ) : rebuild node t s = node t s := by
  unfold shell? at h
  cases t with
  | applied d args => cases args <;> simp_all [rebuild, rebuildAll]
  | union members => cases members <;> simp_all [rebuild, rebuildAll]
  | intersection members => cases members <;> simp_all [rebuild, rebuildAll]
  | _ => rfl

variable {τ : Type} {node} {node' : Ty → τ → Ty × τ} (view : σ → τ)

theorem unwind_map (h : ∀ t s, ((node t s).1, view (node t s).2) = node' t (view s)) (frames : List Frame) (t : Ty)
    (s : σ) : ((unwind node frames t s).1, view (unwind node frames t s).2) = unwind node' frames t (view s) := by
  induction frames generalizing t s with
  | nil => rfl
  | cons f frames ih =>
    have key := rebuildAll_map_of_forall view f.todo (fun t _ s => rebuild_map view h t s) s
    simp only [unwind, ← key, ← h, ih]

theorem run_map {known? : Ty → σ → Option Ty} (h : ∀ t s, ((node t s).1, view (node t s).2) = node' t (view s))
    (hknown : ∀ t s u, known? t s = some u → rebuild node' t (view s) = (u, view s)) (fuel : Nat) (turn : Turn)
    (frames : List Frame) (s : σ) :
    ((run node known? fuel turn frames s).1, view (run node known? fuel turn frames s).2) =
      finish node' turn frames (view s) := by
  induction fuel generalizing turn frames s with
  | zero =>
    have key : run node known? 0 turn frames s = finish node turn frames s := by cases turn <;> cases frames <;> rfl
    rw [key]
    cases turn with
    | down t => simp only [finish, unwind_map view h, ← rebuild_map view h]
    | up t => exact unwind_map view h frames t s
  | succ fuel ih =>
    match turn, frames with
    | .down t, frames =>
      rw [run]
      split
      · next u hu => simp only [ih, finish, hknown t s u hu]
      · split
        · next shell u us hs =>
          rw [ih, finish, finish, rebuild_of_shell?_eq_some node' hs]
          simp [unwind, rebuildAll]
        · next hs => simp only [ih, finish, rebuild_of_shell?_eq_none node' hs, ← h]
    | .up t, [] => rfl
    | .up t, f :: frames =>
      obtain ⟨shell, done, todo⟩ := f
      cases todo with
      | nil => simp [run, ih, finish, unwind, rebuildAll, ← h]
      | cons u todo => simp [run, ih, finish, unwind, rebuildAll]

/-- **Recursion and stack agree**, seen through a view of the state. -/
theorem rebuildFrames_map {known? : Ty → σ → Option Ty}
    (h : ∀ t s, ((node t s).1, view (node t s).2) = node' t (view s))
    (hknown : ∀ t s u, known? t s = some u → rebuild node' t (view s) = (u, view s)) (t : Ty) (s : σ) :
    ((rebuildFrames node known? t s).1, view (rebuildFrames node known? t s).2) = rebuild node' t (view s) :=
  run_map view h hknown _ _ _ _

end SemCheck.Ty
