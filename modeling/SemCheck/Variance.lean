/-!
# Variance

The declared variance of a type parameter, which is also the polarity of a position in a type. `compose` makes the
three values a commutative monoid with `covariant` as its unit and `invariant` as its zero.
-/

namespace SemCheck

inductive Variance
  | invariant
  /-- Produced only, `out T`. -/
  | covariant
  /-- Consumed only, `in T`. -/
  | contravariant
  deriving DecidableEq, Repr

namespace Variance

/-- The polarity of a position of polarity `inner` inside one of polarity `outer`. -/
def compose : (outer inner : Variance) → Variance
  | invariant, _ => invariant
  | _, invariant => invariant
  | covariant, v => v
  | contravariant, covariant => contravariant
  | contravariant, contravariant => covariant

@[simp] theorem covariant_compose (v : Variance) : covariant.compose v = v := by cases v <;> rfl

@[simp] theorem invariant_compose (v : Variance) : invariant.compose v = invariant := rfl

theorem compose_comm (v w : Variance) : v.compose w = w.compose v := by cases v <;> cases w <;> rfl

theorem compose_assoc (u v w : Variance) : (u.compose v).compose w = u.compose (v.compose w) := by
  cases u <;> cases v <;> cases w <;> rfl

end Variance

end SemCheck
