import SemCheck.KeyStack
import SemCheck.Limits
import SemCheck.Search
import SemCheck.Ty.Basic

/-!
# The leaves of unions and intersections

The leaves of a type are the applications and parameter references at or under its unions and intersections.
`Ty.searchLeaves` looks through them one by one, and no further than to the first that is sought. Main statement: it
is the search through the list of all leaves (`searchLeaves_eq`).
-/

namespace SemCheck.Ty

mutual

/-- The applications and parameter references at or under the unions and intersections of a type, in order. -/
def leaves : Ty → List Ty
  | .union members | .intersection members => leavesOf members
  | .applied d args => [.applied d args]
  | .param d => [.param d]
  | .nothing | .unknown _ => []

def leavesOf : List Ty → List Ty
  | [] => []
  | t :: ts => leaves t ++ leavesOf ts

end

theorem leavesOf_eq (ts : List Ty) : leavesOf ts = ts.flatMap leaves := by
  induction ts with
  | nil => rfl
  | cons t ts ih => rw [leavesOf, List.flatMap_cons, ih]

/-! ## Searching -/

section

variable {σ : Type} (visit : Ty → σ → Bool × σ)

/-- Looks through the leaves of the types in order, in `fuel` steps at most before they are all listed. -/
def searchWithin : (fuel : Nat) → List Ty → σ → Bool × σ
  | 0, ts, s => firstFound visit (ts.flatMap leaves) s
  | _, [], s => (false, s)
  | fuel + 1, t :: ts, s =>
    match t with
    | .union members | .intersection members => searchWithin fuel (members ++ ts) s
    | .nothing | .unknown _ => searchWithin fuel ts s
    | t =>
      match visit t s with
      | (true, s) => (true, s)
      | (false, s) => searchWithin fuel ts s

/-- Asks `visit` for the leaves of a type in order, up to the first that finds something. -/
def searchLeaves (t : Ty) (s : σ) : Bool × σ := searchWithin visit Limits.loopSteps [t] s

theorem searchWithin_eq (fuel : Nat) (ts : List Ty) (s : σ) :
    searchWithin visit fuel ts s = firstFound visit (ts.flatMap leaves) s := by
  induction fuel generalizing ts s with
  | zero => rfl
  | succ fuel ih =>
    match ts with
    | [] => rfl
    | .union members :: ts | .intersection members :: ts =>
      simp [searchWithin, ih, leaves, leavesOf_eq, List.flatMap_append]
    | .nothing :: ts | .unknown _ :: ts => simp [searchWithin, ih, leaves]
    | .applied d args :: ts =>
      rcases h : visit (.applied d args) s with ⟨_ | _, s'⟩ <;> simp [searchWithin, ih, leaves, firstFound, h]
    | .param d :: ts =>
      rcases h : visit (.param d) s with ⟨_ | _, s'⟩ <;> simp [searchWithin, ih, leaves, firstFound, h]

/-- **The search sees all leaves**, in their order. -/
theorem searchLeaves_eq (t : Ty) (s : σ) : searchLeaves visit t s = firstFound visit t.leaves s := by
  simp [searchLeaves, searchWithin_eq]

end

/-! ## Heads -/

/-- Adds the head of a type to those before. -/
def addHead (heads : KeyStack DeclId) (t : Ty) : KeyStack DeclId :=
  match t.head? with
  | some d => heads.add d
  | none => heads

/-- The declarations that head the leaves, each once. -/
def heads (t : Ty) : List DeclId :=
  (searchLeaves (fun leaf heads => (false, addHead heads leaf)) t .empty).2.toList.reverse

theorem foldl_addHead (ts : List Ty) (heads : KeyStack DeclId) :
    ts.foldl addHead heads = (ts.filterMap head?).foldl KeyStack.add heads := by
  induction ts generalizing heads with
  | nil => rfl
  | cons t ts ih =>
    rw [List.foldl_cons, ih, addHead, List.filterMap_cons]
    cases t.head? <;> rfl

theorem heads_eq (t : Ty) : t.heads = (t.leaves.filterMap head?).eraseDups := by
  rw [heads, searchLeaves_eq, firstFound_false addHead, foldl_addHead, ← distinct_eq, distinct]

end SemCheck.Ty
