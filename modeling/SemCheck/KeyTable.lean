/-!
# Tables under keys

Values that can be told apart by a number, their *key*, are looked up in a binary trie over the bits of the keys. A
path ends in a bucket of entries, each with what the path leaves of its key; a bucket that grows too full splits. Equal
keys of different values do no harm, they only end up in one bucket.

Main statements: looking up a value gives the entry that was last inserted under it (`find?_insert`); a set of values,
which is a table whose entries are the values themselves, has the members one expects (`contains_insert`,
`contains_erase`).
-/

namespace SemCheck

/-- Values with a number that equal values share and different ones should not. -/
class Keyed (κ : Type) where
  key : κ → Nat

instance : Keyed Nat := ⟨id⟩

/-- A binary trie with a list of entries at the end of each path, each with what the path leaves of its key. -/
inductive KeyTable (α : Type)
  | bucket (entries : List (Nat × α))
  | fork (even odd : KeyTable α)

namespace KeyTable

variable {κ α : Type} [DecidableEq κ] (ix : α → κ)

def empty : KeyTable α := .bucket []

/-- How many entries a bucket holds before it splits. -/
def bucketSize : Nat := 8

/-- How many forks a path may have. -/
def depth : Nat := 60

/-- The entries with an even, or odd, rest of their key, with one bit less. -/
def half (entries : List (Nat × α)) (bit : Nat) : List (Nat × α) :=
  (entries.filter fun e => e.1 % 2 = bit).map fun e => (e.1 / 2, e.2)

/-- Inserts below a node that may have `level` forks under it. -/
def insertAt (a : α) (level key : Nat) : KeyTable α → KeyTable α
  | .bucket entries =>
    let entries := (key, a) :: entries
    if level = 0 || entries.length ≤ bucketSize then .bucket entries
    else .fork (.bucket (half entries 0)) (.bucket (half entries 1))
  | .fork even odd =>
    if key % 2 = 0 then .fork (insertAt a (level - 1) (key / 2) even) odd
    else .fork even (insertAt a (level - 1) (key / 2) odd)

/-- Looks for `k` below a node. -/
def findAt? (k : κ) (key : Nat) : KeyTable α → Option α
  | .bucket entries => (entries.find? fun e => e.1 = key && ix e.2 = k).map Prod.snd
  | .fork even odd => if key % 2 = 0 then findAt? k (key / 2) even else findAt? k (key / 2) odd

/-- Removes all entries under `k` below a node. -/
def eraseAt (k : κ) (key : Nat) : KeyTable α → KeyTable α
  | .bucket entries => .bucket (entries.filter fun e => !(e.1 = key && ix e.2 = k))
  | .fork even odd =>
    if key % 2 = 0 then .fork (eraseAt k (key / 2) even) odd else .fork even (eraseAt k (key / 2) odd)

section

variable [Keyed κ]

def insert (a : α) (t : KeyTable α) : KeyTable α := insertAt a depth (Keyed.key (ix a)) t

/-- The last entry inserted under `k`. -/
def find? (k : κ) (t : KeyTable α) : Option α := findAt? ix k (Keyed.key k) t

def erase (k : κ) (t : KeyTable α) : KeyTable α := eraseAt ix k (Keyed.key k) t

end

/-! ## Looking up -/

theorem ix_of_findAt?_eq_some {k : κ} {key : Nat} {t : KeyTable α} {a : α} (h : findAt? ix k key t = some a) :
    ix a = k := by
  induction t generalizing key with
  | bucket entries =>
    obtain ⟨e, he, rfl⟩ := Option.map_eq_some_iff.1 h
    have := List.find?_some he
    simp_all
  | fork even odd ihe iho =>
    rw [findAt?] at h
    split at h
    · exact ihe h
    · exact iho h

theorem ix_of_find?_eq_some [Keyed κ] {k : κ} {t : KeyTable α} {a : α} (h : t.find? ix k = some a) : ix a = k :=
  ix_of_findAt?_eq_some ix h

@[simp] theorem find?_empty [Keyed κ] (k : κ) : (empty : KeyTable α).find? ix k = none := rfl

/-! ## Looking up what was inserted -/

/-- Splitting a bucket loses nothing. -/
theorem findAt?_split (k : κ) (key : Nat) (entries : List (Nat × α)) :
    findAt? ix k key (.fork (.bucket (half entries 0)) (.bucket (half entries 1))) =
      findAt? ix k key (.bucket entries) := by
  have side (bit : Nat) (h : key % 2 = bit) :
      findAt? ix k (key / 2) (.bucket (half entries bit)) = findAt? ix k key (.bucket entries) := by
    simp only [findAt?, half, List.find?_map, List.find?_filter, Option.map_map]
    refine congrArg (Option.map _) (congrArg (List.find? · entries) (funext fun e => ?_))
    have : e.1 % 2 = bit ∧ e.1 / 2 = key / 2 ↔ e.1 = key := by omega
    simp [← this, Bool.and_assoc]
  conv => lhs; rw [findAt?]
  by_cases h : key % 2 = 0
  · rw [if_pos h, side 0 h]
  · rw [if_neg h, side 1 (by omega)]

theorem findAt?_insertAt_bucket (k : κ) (key : Nat) (a : α) (level key' : Nat) (entries : List (Nat × α)) :
    findAt? ix k key (insertAt a level key' (.bucket entries)) = findAt? ix k key (.bucket ((key', a) :: entries)) := by
  rw [insertAt]
  split
  · rfl
  · exact findAt?_split ix k key _

theorem findAt?_insertAt_self (a : α) (level key : Nat) (t : KeyTable α) :
    findAt? ix (ix a) key (insertAt a level key t) = some a := by
  induction t generalizing level key with
  | bucket entries =>
    rw [findAt?_insertAt_bucket]
    simp [findAt?]
  | fork even odd ihe iho => by_cases h : key % 2 = 0 <;> simp [findAt?, insertAt, h, ihe, iho]

theorem findAt?_insertAt_of_ne {a : α} {k : κ} (hne : ix a ≠ k) (key level key' : Nat) (t : KeyTable α) :
    findAt? ix k key (insertAt a level key' t) = findAt? ix k key t := by
  induction t generalizing level key key' with
  | bucket entries =>
    rw [findAt?_insertAt_bucket]
    simp [findAt?, hne]
  | fork even odd ihe iho =>
    by_cases h : key % 2 = 0 <;> by_cases h' : key' % 2 = 0 <;> simp [findAt?, insertAt, h, h', ihe, iho]

/-- **Looking up**: after `a` is inserted, its value leads to it, and every other value to where it led before. -/
theorem find?_insert [Keyed κ] (a : α) (t : KeyTable α) (k : κ) :
    (t.insert ix a).find? ix k = if ix a = k then some a else t.find? ix k := by
  by_cases h : ix a = k
  · subst h
    simp [find?, insert, findAt?_insertAt_self]
  · simp [find?, insert, findAt?_insertAt_of_ne ix h, h]

/-! ## Looking up what was removed -/

theorem findAt?_eraseAt_self (k : κ) (key : Nat) (t : KeyTable α) : findAt? ix k key (eraseAt ix k key t) = none := by
  induction t generalizing key with
  | bucket entries =>
    simp only [findAt?, eraseAt, List.find?_filter, Option.map_eq_none_iff, List.find?_eq_none]
    intro e _
    by_cases h : e.1 = key <;> simp [h]
  | fork even odd ihe iho => by_cases h : key % 2 = 0 <;> simp [findAt?, eraseAt, h, ihe, iho]

theorem findAt?_eraseAt_of_ne {k k' : κ} (hne : k' ≠ k) (key key' : Nat) (t : KeyTable α) :
    findAt? ix k key (eraseAt ix k' key' t) = findAt? ix k key t := by
  induction t generalizing key key' with
  | bucket entries =>
    rw [eraseAt, findAt?, findAt?, List.find?_filter]
    congr 2
    funext e
    by_cases he : ix e.2 = k
    · have : ix e.2 ≠ k' := fun h => hne (h.symm.trans he)
      simp [this]
    · simp [he]
  | fork even odd ihe iho =>
    by_cases h : key % 2 = 0 <;> by_cases h' : key' % 2 = 0 <;> simp [findAt?, eraseAt, h, h', ihe, iho]

theorem find?_erase [Keyed κ] (k' : κ) (t : KeyTable α) (k : κ) :
    (t.erase ix k').find? ix k = if k' = k then none else t.find? ix k := by
  by_cases h : k' = k
  · subst h
    simp [find?, erase, findAt?_eraseAt_self]
  · simp [find?, erase, findAt?_eraseAt_of_ne ix h, h]

end KeyTable

/-! ## Sets -/

/-- A set of values. -/
abbrev KeySet (κ : Type) := KeyTable κ

namespace KeySet

variable {κ : Type} [Keyed κ] [DecidableEq κ]

def empty : KeySet κ := KeyTable.empty

def insert (s : KeySet κ) (k : κ) : KeySet κ := KeyTable.insert id k s

def erase (s : KeySet κ) (k : κ) : KeySet κ := KeyTable.erase id k s

def contains (s : KeySet κ) (k : κ) : Bool := (KeyTable.find? id k s).isSome

@[simp] theorem contains_empty (k : κ) : (empty : KeySet κ).contains k = false := rfl

/-- A set with `k` inserted holds `k` and what it held before. -/
theorem contains_insert (s : KeySet κ) (k x : κ) : (s.insert k).contains x = (decide (k = x) || s.contains x) := by
  rw [contains, insert, KeyTable.find?_insert]
  by_cases h : k = x <;> simp [h, contains]

/-- A set with `k` erased holds what it held before but for `k`. -/
theorem contains_erase (s : KeySet κ) (k x : κ) : (s.erase k).contains x = (decide (k ≠ x) && s.contains x) := by
  rw [contains, erase, KeyTable.find?_erase]
  by_cases h : k = x <;> simp [h, contains]

end KeySet

end SemCheck
