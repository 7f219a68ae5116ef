/-!
# Searching with a state

`firstFound` asks about one item after the other, up to the first that is what is sought, and threads a state through.
-/

namespace SemCheck

/-- Asks `visit` for the items in order, up to the first that finds something. -/
def firstFound {σ α : Type} (visit : α → σ → Bool × σ) : List α → σ → Bool × σ
  | [], s => (false, s)
  | a :: as, s =>
    match visit a s with
    | (true, s) => (true, s)
    | (false, s) => firstFound visit as s

variable {σ α β : Type}

theorem firstFound_append (visit : α → σ → Bool × σ) (as bs : List α) (s : σ) :
    firstFound visit (as ++ bs) s =
      match firstFound visit as s with
      | (true, s) => (true, s)
      | (false, s) => firstFound visit bs s := by
  induction as generalizing s with
  | nil => rfl
  | cons a as ih =>
    rw [List.cons_append, firstFound, firstFound]
    split
    · rfl
    · exact ih _

/-- A search through several lists, one after the other, is a search through all of them in one. -/
theorem firstFound_flatMap (visit : α → σ → Bool × σ) (f : β → List α) (bs : List β) (s : σ) :
    firstFound visit (bs.flatMap f) s = firstFound (fun b => firstFound visit (f b)) bs s := by
  induction bs generalizing s with
  | nil => rfl
  | cons b bs ih =>
    rw [List.flatMap_cons, firstFound_append, firstFound]
    split
    · rfl
    · exact ih _

/-- A search that finds nothing goes through all items. -/
theorem firstFound_false (f : σ → α → σ) (as : List α) (s : σ) :
    firstFound (fun a s => (false, f s a)) as s = (false, as.foldl f s) := by
  induction as generalizing s with
  | nil => rfl
  | cons a as ih => simp [firstFound, ih]

end SemCheck
