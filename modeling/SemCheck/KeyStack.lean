import SemCheck.KeyTable

/-!
# Stacks of different values

A stack of values none of which is in it twice. It knows its size and has a set of its members, so that a look for one
does not go through the stack. What is true of the stack is said of its list (`toList_push`, `toList_erase`,
`toList_add`, `contains_eq`, `size_eq`).

`distinct` goes through a list with such a stack and drops repeated values (`distinct_eq`).
-/

namespace SemCheck

structure KeyStack (κ : Type) [Keyed κ] [DecidableEq κ] where
  /-- The values, the one pushed last first. -/
  toList : List κ := []
  size : Nat := 0
  members : KeySet κ := .empty
  nodup : toList.Nodup := by simp
  size_eq : size = toList.length := by simp
  contains_members : ∀ k, members.contains k = decide (k ∈ toList) := by simp

namespace KeyStack

variable {κ : Type} [Keyed κ] [DecidableEq κ]

def empty : KeyStack κ := {}

def contains (s : KeyStack κ) (k : κ) : Bool := s.members.contains k

theorem contains_eq (s : KeyStack κ) (k : κ) : s.contains k = decide (k ∈ s.toList) := s.contains_members k

theorem contains_iff {s : KeyStack κ} {k : κ} : s.contains k = true ↔ k ∈ s.toList := by
  rw [contains_eq, decide_eq_true_iff]

/-- Puts a value that the stack does not have on top. -/
def push (s : KeyStack κ) (k : κ) (h : s.contains k = false) : KeyStack κ where
  toList := k :: s.toList
  size := s.size + 1
  members := s.members.insert k
  nodup := by simpa [s.nodup, s.contains_eq] using h
  size_eq := by simp [s.size_eq]
  contains_members x := by
    rw [KeySet.contains_insert, s.contains_members]
    by_cases hx : k = x
    · simp [hx]
    · simp [hx, Ne.symm hx]

/-- Puts a value on top unless the stack has it. -/
def add (s : KeyStack κ) (k : κ) : KeyStack κ := if h : s.contains k then s else s.push k (by simpa using h)

/-- Takes a value out, wherever it is. -/
def erase (s : KeyStack κ) (k : κ) (h : s.contains k = true) : KeyStack κ where
  toList := s.toList.erase k
  size := s.size - 1
  members := s.members.erase k
  nodup := s.nodup.erase k
  size_eq := by
    rw [s.contains_eq, decide_eq_true_eq] at h
    simp [s.size_eq, List.length_erase_of_mem h]
  contains_members x := by
    rw [KeySet.contains_erase, s.contains_members]
    simp only [s.nodup.mem_erase_iff]
    by_cases hx : k = x
    · simp [hx]
    · simp [hx, Ne.symm hx]

@[simp] theorem toList_empty : (empty : KeyStack κ).toList = [] := rfl

@[simp] theorem toList_push (s : KeyStack κ) (k : κ) (h : s.contains k = false) :
    (s.push k h).toList = k :: s.toList := rfl

@[simp] theorem toList_erase (s : KeyStack κ) (k : κ) (h : s.contains k = true) :
    (s.erase k h).toList = s.toList.erase k := rfl

theorem toList_add (s : KeyStack κ) (k : κ) :
    (s.add k).toList = if k ∈ s.toList then s.toList else k :: s.toList := by
  by_cases h : k ∈ s.toList <;> simp [add, s.contains_eq, h]

end KeyStack

/-! ## Lists without repetition -/

variable {κ : Type} [Keyed κ] [DecidableEq κ]

/-- The values of a list in order, each at its first place only. -/
def distinct (xs : List κ) : List κ := (xs.foldl KeyStack.add .empty).toList.reverse

theorem toList_foldl_add (xs : List κ) (s : KeyStack κ) :
    (xs.foldl KeyStack.add s).toList.reverse = List.eraseDupsBy.loop (· == ·) xs s.toList := by
  induction xs generalizing s with
  | nil => rfl
  | cons x xs ih =>
    have hany : s.toList.any (x == ·) = decide (x ∈ s.toList) := by
      rw [Bool.eq_iff_iff]
      simp
    rw [List.foldl_cons, ih, List.eraseDupsBy.loop, hany, s.toList_add]
    by_cases h : x ∈ s.toList <;> simp [h]

/-- **Repetitions are dropped** as a search through the values before would do it. -/
theorem distinct_eq (xs : List κ) : distinct xs = xs.eraseDups := toList_foldl_add xs .empty

theorem nodup_distinct (xs : List κ) : (distinct xs).Nodup := (List.reverse_perm _).nodup_iff.2 (KeyStack.nodup _)

end SemCheck
