import SemCheck.KeyTable

/-!
# Types

A type is an application of a declaration to types, a reference to a type parameter, a union, an intersection or the
bottom type `nothing`. Equality of types is structural. A handle that no type is known for counts as a type of its
own, without structure.

Parts may be shared, so that a type can be far larger as a tree than in memory. Every type therefore keeps a digest,
by which different types are told apart without a walk through them.
-/

namespace SemCheck

/-- The identity of a declaration within a model. -/
structure DeclId where
  index : Nat
  deriving DecidableEq, Repr

instance : Keyed DeclId := ⟨DeclId.index⟩

/-- Works a number into a digest. -/
def mixDigest (digest n : UInt64) : UInt64 :=
  let x := (digest * 31 + n) * 0x9E3779B97F4A7C15
  x ^^^ (x >>> 32)

inductive Ty
  /-- The bottom type. -/
  | nothing
  /-- A handle without a type behind it. -/
  | unknown (handle : Nat)
  /-- A reference to a type parameter. -/
  | param (decl : DeclId)
  /-- A class, interface or alias applied to arguments. -/
  | applied (decl : DeclId) (args : List Ty)
  | union (members : List Ty)
  | intersection (members : List Ty)
with
  /-- A number that equal types share; it is kept with the type. -/
  @[computed_field] digest : Ty → UInt64
    | .nothing => 1
    | .unknown n => mixDigest 2 n.toUInt64
    | .param d => mixDigest 3 d.index.toUInt64
    | .applied d args => args.foldl (fun h t => mixDigest h t.digest) (mixDigest 4 d.index.toUInt64)
    | .union members => members.foldl (fun h t => mixDigest h t.digest) 5
    | .intersection members => members.foldl (fun h t => mixDigest h t.digest) 6

namespace Ty

instance : Inhabited Ty := ⟨.nothing⟩

/-- Induction over types, with the hypothesis for every argument and member. -/
@[elab_as_elim, induction_eliminator]
theorem induct {motive : Ty → Prop} (nothing : motive .nothing) (unknown : ∀ n, motive (.unknown n))
    (param : ∀ d, motive (.param d))
    (applied : ∀ d args, (∀ t ∈ args, motive t) → motive (.applied d args))
    (union : ∀ ms, (∀ t ∈ ms, motive t) → motive (.union ms))
    (intersection : ∀ ms, (∀ t ∈ ms, motive t) → motive (.intersection ms)) (t : Ty) : motive t :=
  @Ty.rec motive (fun ts => ∀ t ∈ ts, motive t) nothing unknown param applied union intersection
    (fun _ h => nomatch h) (fun _ _ ht hts u hu => (List.mem_cons.1 hu).elim (· ▸ ht) (hts u)) t

/-! ## Keys -/

mutual

/-- What is left of `room` after one is taken for every node of a type; zero if it does not suffice. -/
def roomAfter (room : Nat) : Ty → Nat
  | .applied _ args => roomAfterAll (room - 1) args
  | .union members | .intersection members => roomAfterAll (room - 1) members
  | .nothing | .unknown _ | .param _ => room - 1

def roomAfterAll (room : Nat) : List Ty → Nat
  | [] => room
  | t :: ts => if room = 0 then 0 else roomAfterAll (roomAfter room t) ts

end

/-- Works a number into a code. -/
def mixCode (code n : Nat) : Nat :=
  let x := (code * 31 + n) % 2147483647 * 1103515245 % 2147483647
  x ^^^ (x >>> 15)

mutual

/-- A number read off all nodes of a type. -/
def code : Ty → Nat
  | .nothing => 1
  | .unknown n => 8 * n + 2
  | .param d => 8 * d.index + 3
  | .applied d args => codeFrom (mixCode 4 d.index) args
  | .union members => codeFrom 5 members
  | .intersection members => codeFrom 6 members

def codeFrom (start : Nat) : List Ty → Nat
  | [] => start
  | t :: ts => codeFrom (mixCode start (code t)) ts

end

/-- A number that equal types share and different ones hardly ever: the code of a small type, the digest of a large
one. Both are at hand at once. -/
def key (t : Ty) : Nat := if roomAfter 16 t = 0 then (t.digest >>> 1).toNat else t.code

instance : Keyed Ty := ⟨key⟩

/-! ## Equality -/

mutual

/-- Decides equality; values that are one object in memory need no comparison. -/
def decEq (a b : Ty) : Decidable (a = b) :=
  withPtrEqDecEq a b fun _ =>
    if h : a.key = b.key then
      match a, b with
      | .nothing, .nothing => .isTrue rfl
      | .unknown m, .unknown n => if h : m = n then .isTrue (h ▸ rfl) else .isFalse (by simpa using h)
      | .param d, .param e => if h : d = e then .isTrue (h ▸ rfl) else .isFalse (by simpa using h)
      | .applied d as, .applied e bs =>
        if h : d = e then
          match decEqList as bs with
          | .isTrue h' => .isTrue (by rw [h, h'])
          | .isFalse h' => .isFalse (by simp [h'])
        else .isFalse (by simp [h])
      | .union as, .union bs =>
        match decEqList as bs with
        | .isTrue h => .isTrue (by rw [h])
        | .isFalse h => .isFalse (by simpa using h)
      | .intersection as, .intersection bs =>
        match decEqList as bs with
        | .isTrue h => .isTrue (by rw [h])
        | .isFalse h => .isFalse (by simpa using h)
      | .nothing, .unknown _ | .nothing, .param _ | .nothing, .applied .. | .nothing, .union _
      | .nothing, .intersection _ => .isFalse nofun
      | .unknown _, .nothing | .unknown _, .param _ | .unknown _, .applied .. | .unknown _, .union _
      | .unknown _, .intersection _ => .isFalse nofun
      | .param _, .nothing | .param _, .unknown _ | .param _, .applied .. | .param _, .union _
      | .param _, .intersection _ => .isFalse nofun
      | .applied .., .nothing | .applied .., .unknown _ | .applied .., .param _ | .applied .., .union _
      | .applied .., .intersection _ => .isFalse nofun
      | .union _, .nothing | .union _, .unknown _ | .union _, .param _ | .union _, .applied ..
      | .union _, .intersection _ => .isFalse nofun
      | .intersection _, .nothing | .intersection _, .unknown _ | .intersection _, .param _
      | .intersection _, .applied .. | .intersection _, .union _ => .isFalse nofun
    else .isFalse fun e => h (congrArg key e)

def decEqList : (as bs : List Ty) → Decidable (as = bs)
  | [], [] => .isTrue rfl
  | [], _ :: _ => .isFalse nofun
  | _ :: _, [] => .isFalse nofun
  | a :: as, b :: bs =>
    match decEq a b with
    | .isTrue h =>
      match decEqList as bs with
      | .isTrue h' => .isTrue (by rw [h, h'])
      | .isFalse h' => .isFalse (by simp [h'])
    | .isFalse h => .isFalse (by simp [h])

end

instance : DecidableEq Ty := decEq

/-! ## What a type is made of -/

/-- The declaration that heads an application or a parameter reference. -/
def head? : Ty → Option DeclId
  | .applied d _ | .param d => some d
  | _ => none

/-- The arguments of an application. -/
def args : Ty → List Ty
  | .applied _ args => args
  | _ => []

/-- The arguments of an application, the members of a union or intersection. -/
def parts : Ty → List Ty
  | .applied _ args => args
  | .union members | .intersection members => members
  | _ => []

end Ty

end SemCheck
