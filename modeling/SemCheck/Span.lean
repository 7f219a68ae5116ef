/-!
# Source spans

A span is a half-open range of byte offsets. A span whose end does not lie after its start is empty, and the empty
span at offset 0 stands for nodes without source text.
-/

namespace SemCheck

/-- The bytes from `start` up to, and without, `stop`. -/
structure Span where
  start : Nat
  stop : Nat
  deriving DecidableEq, Repr

namespace Span

/-- The span of a node that has no source text. -/
def dummy : Span := ⟨0, 0⟩

def length (s : Span) : Nat := s.stop - s.start

def isEmpty (s : Span) : Bool := s.stop ≤ s.start

/-- The smallest span around both; an empty span adds nothing. -/
def cover (a b : Span) : Span :=
  if a.isEmpty then b
  else if b.isEmpty then a
  else ⟨min a.start b.start, max a.stop b.stop⟩

def contains (a b : Span) : Bool := a.start ≤ b.start && b.stop ≤ a.stop

theorem length_eq_zero_iff {s : Span} : s.length = 0 ↔ s.isEmpty = true := by
  simp only [length, isEmpty, decide_eq_true_eq]
  omega

end Span

end SemCheck
