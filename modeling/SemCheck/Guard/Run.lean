import SemCheck.Guard.Basic

/-!
# Runs of a guard

What can be done to a guard, one action after the other and nested in scopes, and what each action answers. An action
that meets a fault answers it, and the run goes on.
-/

namespace SemCheck.Guard

inductive Action (κ : Type)
  | enter (key : κ)
  | leave (key : κ)
  | isVisiting (key : κ)
  | reset
  /-- Runs `body` between entering and leaving `key`. -/
  | scope (key : κ) (body : List (Action κ))
  /-- Enters keys in order; with `leaving`, each is left again before the next. -/
  | enterAll (keys : List κ) (leaving : Bool)
  /-- Leaves keys in order, up to the first fault. -/
  | leaveAll (keys : List κ)

inductive Answer
  | done
  | entry (e : Entry)
  | entries (es : List Entry)
  | flag (b : Bool)
  | scoped (answers : List Answer)
  | refused (e : Entry)
  | fault (f : GuardFault)

variable {κ : Type} [Keyed κ] [DecidableEq κ]

/-- One key of `enterAll`, with the entries so far in reverse. -/
def enterNext (leaving : Bool) (acc : List Entry × Guard κ) (key : κ) : List Entry × Guard κ :=
  match acc.2.enter key with
  | (.entered, g) => (.entered :: acc.1, if leaving then g.leave key else g)
  | (refusal, g) => (refusal :: acc.1, g)

def enterAll (g : Guard κ) (leaving : Bool) (keys : List κ) : List Entry × Guard κ :=
  let (entries, g) := keys.foldl (enterNext leaving) ([], g)
  (entries.reverse, g)

def leaveAll (g : Guard κ) : List κ → Answer × Guard κ
  | [] => (.done, g)
  | key :: keys =>
    match g.leave? key with
    | some g => leaveAll g keys
    | none => (.fault .notVisiting, g)

mutual

def run (g : Guard κ) : Action κ → Answer × Guard κ
  | .enter key =>
    let (e, g) := g.enter key
    (.entry e, g)
  | .leave key => leaveAll g [key]
  | .isVisiting key => (.flag (g.isVisiting key), g)
  | .reset => (.done, g.reset)
  | .scope key body =>
    match g.enter key with
    | (.entered, g) =>
      let (answers, g) := runAll g body
      match g.leave? key with
      | some g => (.scoped answers, g)
      | none => (.fault .notVisiting, g)
    | (refusal, g) => (.refused refusal, g)
  | .enterAll keys leaving =>
    let (es, g) := enterAll g leaving keys
    (.entries es, g)
  | .leaveAll keys => leaveAll g keys

def runAll (g : Guard κ) : List (Action κ) → List Answer × Guard κ
  | [] => ([], g)
  | a :: as =>
    let (answer, g) := run g a
    let (answers, g) := runAll g as
    (answer :: answers, g)

end

end SemCheck.Guard
