import SemCheck.KeyStack
import SemCheck.Limits

/-!
# Guards for recursive walks

A guard keeps the keys that a walk is visiting and counts its attempts to enter one. It refuses a key that is being
visited, a walk that is too deep and one that has made too many attempts. Main statement: a refusal leaves the keys
and the depth as they were (`enter_of_ne_entered`).
-/

namespace SemCheck

/-- How deep a walk may go, and how often it may try to enter. -/
structure Profile where
  maxDepth : Nat
  maxIterations : Nat
  deriving DecidableEq, Repr

namespace Profile

/-- Following supertypes with their arguments substituted. -/
def supertypeWalk : Profile := ⟨Limits.supertypeWalkDepth, Limits.walkIterations⟩

/-- Expanding aliases, possibly through other aliases. -/
def aliasResolution : Profile := ⟨Limits.aliasResolutionDepth, Limits.walkIterations⟩

/-- Looking into nested type arguments. -/
def typeArgumentScan : Profile := ⟨Limits.typeArgumentDepth, Limits.walkIterations⟩

end Profile

/-- The answer to an attempt to enter a key. -/
inductive Entry
  | entered
  | cycle
  | depthExceeded
  | iterationExceeded
  deriving DecidableEq, Repr

namespace Entry

def isExceeded : Entry → Bool
  | depthExceeded | iterationExceeded => true
  | _ => false

end Entry

/-- A misuse of a guard. -/
inductive GuardFault
  /-- A key is left that is not being visited. -/
  | notVisiting
  /-- The guard is given up with keys still open. -/
  | stillVisiting (count : Nat)
  deriving DecidableEq, Repr

def GuardFault.message : GuardFault → String
  | notVisiting => "RecursionGuard::leave() called with a key that is not in the visiting set"
  | stillVisiting n =>
    "RecursionGuard dropped with " ++ toString n ++ " active entries still in the visiting set"

structure Guard (κ : Type) [Keyed κ] [DecidableEq κ] where
  /-- The keys entered and not left yet, the last one first. -/
  visiting : KeyStack κ := .empty
  depth : Nat := 0
  iterations : Nat := 0
  maxDepth : Nat
  maxIterations : Nat
  /-- Some attempt ran into a limit. -/
  exceeded : Bool := false
  /-- Some key was left that was not being visited. -/
  faulted : Bool := false
  /-- Some key was left before one that was entered after it. -/
  outOfOrder : Bool := false

namespace Guard

/-- Where the count of attempts stops. -/
def iterationCeiling : Nat := 4294967295

variable {κ : Type} [Keyed κ] [DecidableEq κ]

def ofProfile (p : Profile) : Guard κ := { maxDepth := p.maxDepth, maxIterations := p.maxIterations }

/-- Tries to enter `key`; every try counts, also one that is refused. -/
def enter (g : Guard κ) (key : κ) : Entry × Guard κ :=
  let g := { g with iterations := min (g.iterations + 1) iterationCeiling }
  if g.maxIterations < g.iterations then (.iterationExceeded, { g with exceeded := true })
  else if g.maxDepth ≤ g.depth then (.depthExceeded, { g with exceeded := true })
  else if h : g.visiting.contains key then (.cycle, g)
  else if Limits.visitingSize ≤ g.visiting.size then (.depthExceeded, { g with exceeded := true })
  else (.entered, { g with visiting := g.visiting.push key (by simpa using h), depth := g.depth + 1 })

/-- Leaves a key that is being visited. -/
def leave? (g : Guard κ) (key : κ) : Option (Guard κ) :=
  if h : g.visiting.contains key then
    some { g with
      visiting := g.visiting.erase key h
      depth := g.depth - 1
      outOfOrder := g.outOfOrder || decide (g.visiting.toList.head? ≠ some key) }
  else none

/-- Leaves a key; if it is not being visited, only that fault is noted. -/
def leave (g : Guard κ) (key : κ) : Guard κ := (g.leave? key).getD { g with faulted := true }

/-- Runs `body` between entering and leaving `key`, or not at all if `key` is refused. -/
def scope {α : Type} (g : Guard κ) (key : κ) (body : Guard κ → α × Guard κ) : Except Entry α × Guard κ :=
  match g.enter key with
  | (.entered, g) =>
    let (result, g) := body g
    (.ok result, g.leave key)
  | (refusal, g) => (.error refusal, g)

def isVisiting (g : Guard κ) (key : κ) : Bool := g.visiting.contains key

/-- Forgets all keys, counts and limits met. -/
def reset (g : Guard κ) : Guard κ := { g with visiting := .empty, depth := 0, iterations := 0, exceeded := false }

/-- What is wrong with giving up the guard now. -/
def closeFault? (g : Guard κ) : Option GuardFault :=
  if g.visiting.size = 0 then none else some (.stillVisiting g.visiting.size)

theorem enter_of_ne_entered {g : Guard κ} {key : κ} (h : (g.enter key).1 ≠ .entered) :
    (g.enter key).2.visiting = g.visiting ∧ (g.enter key).2.depth = g.depth := by
  unfold enter at h ⊢
  grind

end Guard

end SemCheck
