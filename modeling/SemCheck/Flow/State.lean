/-!
# Flow states

What is known at a point of a program about one watched declaration. Assignment has three degrees on a path: none,
possible and definite. A path that has left the construct by a jump counts as definitely assigned.
-/

namespace SemCheck

structure FlowState where
  /-- The declaration has been passed. -/
  declared : Bool
  /-- Assigned on every path to this point. -/
  definite : Bool
  /-- Assigned on some path to this point. -/
  possible : Bool
  /-- Inside a region that may not assign: a loop, the body of another declaration, the declaration itself. -/
  barrier : Bool
  /-- Every path to this point has left the construct around it. -/
  exited : Bool
  deriving DecidableEq, Repr

namespace FlowState

/-- The state at the start of a scope, before the declaration. -/
def initial : FlowState :=
  { declared := false, definite := false, possible := false, barrier := true, exited := false }

def assigned (s : FlowState) : FlowState := { s with definite := true, possible := true }

/-- Past the declaration, where assigning is allowed. -/
def passed (s : FlowState) : FlowState := { s with declared := true, barrier := false }

def withBarrier (s : FlowState) : FlowState := { s with barrier := true }

/-- After a jump: as good as assigned, though no more possibly so than before. -/
def exit (s : FlowState) : FlowState := { s with definite := true, exited := true }

/-- The state after alternative branches that start at `entry` and end in `arms`. A branch that has left does not
count against definiteness, but counts towards possibility. -/
def join (entry : FlowState) (arms : List FlowState) : FlowState :=
  if arms.isEmpty then entry
  else if arms.all exited then entry.exit
  else
    { declared := entry.declared
      definite := entry.definite || arms.all definite
      possible := entry.possible || arms.any possible
      barrier := entry.barrier
      exited := false }

/-- The state after a loop whose parts end in `body`; they may not run at all. -/
def afterLoop (entry body : FlowState) : FlowState := { entry with possible := entry.possible || body.possible }

/-- Takes back what a clause that may be cut short cannot be relied on for: definiteness, the declaration itself, and
having left. -/
def restorePartial (s entry : FlowState) : FlowState :=
  { s with definite := entry.definite, declared := entry.declared, exited := entry.exited }

/-- Whether some path reaches this point. -/
def isReachable (s : FlowState) : Bool := !s.exited

end FlowState

end SemCheck
