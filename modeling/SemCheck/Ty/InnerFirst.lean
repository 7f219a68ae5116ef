import SemCheck.Limits
import SemCheck.Ty.Basic

/-!
# From the inside out

`Ty.innerFirst` works through a type from the inside out and passes over what is known already, so that a part that
stands in many places is worked on once. It goes by a list of tasks; neither the depth of a type nor its size as a tree
matters.
-/

namespace SemCheck.Ty

/-- Something to be done: to see that a type is known, or to build what is to be known of it. -/
inductive Task
  | visit (t : Ty)
  | build (t : Ty)

variable {σ : Type} (known : Ty → σ → Bool) (build : Ty → σ → σ)

/-- Works off the tasks, in `fuel` steps at most. -/
def workOff : (fuel : Nat) → List Task → σ → σ
  | 0, _, s => s
  | _, [], s => s
  | fuel + 1, .visit t :: tasks, s =>
    if t.parts.isEmpty || known t s then workOff fuel tasks s
    else workOff fuel (t.parts.map .visit ++ .build t :: tasks) s
  | fuel + 1, .build t :: tasks, s => workOff fuel tasks (build t s)

/-- Builds a type, after all types with parts in it. -/
def innerFirst (t : Ty) (s : σ) : σ := workOff known build Limits.loopSteps [.visit t] s

end SemCheck.Ty
