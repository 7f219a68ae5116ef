/-!
# Limits

How deep and how long a walk over types may go before it gives up, and how long a loop may run before it falls back on
recursion.
-/

namespace SemCheck.Limits

/-- Nesting of supertypes followed with their arguments substituted, where every step can make a new type. -/
def supertypeWalkDepth : Nat := 100

/-- Nesting of alias expansions. -/
def aliasResolutionDepth : Nat := 128

/-- Nesting of type arguments that the scans look into. -/
def typeArgumentDepth : Nat := 50

/-- Attempts to enter a type or declaration within one query. -/
def walkIterations : Nat := 100000

/-- Types or declarations that one walk may hold open at a time. -/
def visitingSize : Nat := 10000

/-- Steps that a loop with a stack of its own may take before plain recursion does the rest; too many for any run. -/
def loopSteps : Nat := 4611686018427387904

end SemCheck.Limits
