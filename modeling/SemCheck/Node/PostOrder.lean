import SemCheck.Node.Arena

/-!
# Children before parents

`postOrder` lists the nodes under a node, every node after the nodes under it. A node that is shared is listed once for
each place in which it stands.

`sweep` makes the same list with a stack of its own, without recursion into the nodes. Where a node stands under itself
it goes on for ever, so it is given a number of pops after which it has no result.
-/

namespace SemCheck

/-- A slot that waits on the stack of a sweep. A node has been opened once its parts have been put above it. -/
structure Waiting where
  slot : Option NodeId
  opened : Bool

namespace Arena

/-- Puts the nodes under `n`, down to `room` levels, and then `n` itself before `later`. -/
def postOrderWithin (a : Arena) : (room : Nat) → (n : NodeId) → (later : List NodeId) → List NodeId
  | 0, n, later => n :: later
  | room + 1, n, later => (a.children n).foldr (postOrderWithin a room) (n :: later)

/-- The nodes under `n`, and `n` itself, each after the nodes under it. -/
def postOrder (a : Arena) (n : NodeId) : List NodeId := a.postOrderWithin a.nodes.size n []

theorem postOrderWithin_eq_append (a : Arena) (room : Nat) (n : NodeId) (later : List NodeId) :
    a.postOrderWithin room n later = a.postOrderWithin room n [] ++ later := by
  induction room generalizing n later with
  | zero => rfl
  | succ room ih =>
    have key (ns : List NodeId) (later : List NodeId) :
        ns.foldr (a.postOrderWithin room) later = ns.flatMap (a.postOrderWithin room · []) ++ later := by
      induction ns with
      | nil => rfl
      | cons m ns ih' => rw [List.foldr_cons, ih', ih, List.flatMap_cons, List.append_assoc]
    simp [postOrderWithin, key]

/-! ## With a stack -/

/-- Works off a stack, its top first, and puts what has been opened at the end of `listed`. A node that has not been
opened goes back below its parts. Nothing if the stack is not empty after that many pops. -/
def sweepFrom (a : Arena) : (pops : Nat) → (stack : List Waiting) → (listed : Array NodeId) → Option (Array NodeId)
  | _, [], listed => some listed
  | 0, _, _ => none
  | pops + 1, ⟨none, _⟩ :: stack, listed => sweepFrom a pops stack listed
  | pops + 1, ⟨some n, true⟩ :: stack, listed => sweepFrom a pops stack (listed.push n)
  | pops + 1, ⟨some n, false⟩ :: stack, listed =>
    let opened := ⟨some n, true⟩ :: stack
    sweepFrom a pops ((a.children n).reverse.foldl (fun stack c => ⟨some c, false⟩ :: stack) opened) listed

/-- The nodes under a slot, and its own node, each after the nodes under it, if a sweep ends within that many pops. -/
def sweep (a : Arena) (pops : Nat) (root : Option NodeId) : Option (List NodeId) :=
  (a.sweepFrom pops [⟨root, false⟩] #[]).map Array.toList

end Arena

end SemCheck
