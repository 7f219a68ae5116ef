import SemCheck.Model.Build
import SemCheck.Proofs.Node.Subtrees

/-!
# Executions

What a program does to one declaration, the *target*. A tree stands for the set of its executions (`runs`): each is a
list of events with the way in which it ends. Parts run in order; of branches one runs; the parts of a loop run any
number of times, the last time possibly only the first of them; a jump abandons what follows it, up to the loop or the
body that it leaves. The block of a try statement may be abandoned at any event for one of the catch clauses, and a
finally clause follows however the statement ended before it. `runsThrowing` are the executions in which other nodes
than throw statements may throw as well.

An execution is *safe* (`Safe`) if it reads the target only when it is declared and has a value, and reaches and ends a
specifier only when it is declared and has none. `Excuses` says where a specifier may find a value all the same, and
`excuses` which of these a tree may need.
-/

namespace SemCheck.Execution

/-- How an execution ends. -/
inductive Ending
  | normal
  /-- By a return or throw. -/
  | left
  | broke
  | continued
  deriving DecidableEq, Repr

/-- What happens to the target, and the clauses that are entered. -/
inductive Event
  /-- The target is declared; `valued` says that it has its value from then on. -/
  | declare (valued : Bool)
  | read (n : NodeId)
  /-- A specifier of the target is reached; its right side is still to run. -/
  | specify (n : NodeId)
  /-- A specifier has given the target its value. -/
  | assign
  /-- A catch clause is entered. -/
  | caught
  /-- A finally clause is entered. -/
  | finalized
  deriving DecidableEq, Repr

/-- A set of executions. -/
abbrev Runs := List Event → Ending → Prop

namespace Runs

/-- Nothing happens. -/
def skip : Runs := fun es e => es = [] ∧ e = .normal

/-- One event. -/
def event (ev : Event) : Runs := fun es e => es = [ev] ∧ e = .normal

def jump (ending : Ending) : Runs := fun es e => es = [] ∧ e = ending

/-- One after the other, unless the first jumps. -/
inductive Seq (r r' : Runs) : Runs
  | stop {es : List Event} {e : Ending} (h : r es e) (he : e ≠ .normal) : Seq r r' es e
  | go {es es' : List Event} {e : Ending} (h : r es .normal) (h' : r' es' e) : Seq r r' (es ++ es') e

/-- All in order. -/
def all : List Runs → Runs
  | [] => skip
  | r :: rs => Seq r (all rs)

/-- One of several; nothing if there are none. -/
def oneOf (rs : List Runs) : Runs := fun es e => (rs = [] ∧ skip es e) ∨ ∃ r ∈ rs, r es e

theorem Seq.of {r r' : Runs} {es es' es'' : List Event} {e : Ending} (h : r es .normal) (h' : r' es' e)
    (hes : es ++ es' = es'') : Seq r r' es'' e :=
  hes ▸ .go h h'

theorem all_singleton {r : Runs} {es : List Event} {e : Ending} (h : r es e) : all [r] es e := by
  by_cases he : e = .normal
  · subst he
    exact .of h ⟨rfl, rfl⟩ (List.append_nil es)
  · exact .stop h he

/-- Where the whole ends normally, both parts do. -/
theorem seq_normal {r r' : Runs} {es : List Event} (h : Seq r r' es .normal) :
    ∃ es₁ es₂, es = es₁ ++ es₂ ∧ r es₁ .normal ∧ r' es₂ .normal := by
  generalize he : Ending.normal = e at h
  cases h with
  | stop _ hne => exact absurd he.symm hne
  | go h h' =>
    subst he
    exact ⟨_, _, rfl, h, h'⟩

theorem oneOf_nil : oneOf [] = skip := by
  funext es e
  simp [oneOf]

theorem oneOf_cons {r : Runs} {rs : List Runs} {es : List Event} {e : Ending} (h : oneOf (r :: rs) es e) :
    r es e ∨ oneOf rs es e := by
  rcases h with ⟨hnil, -⟩ | ⟨r', hr', h⟩
  · exact absurd hnil (List.cons_ne_nil _ _)
  · rcases List.mem_cons.1 hr' with rfl | hr'
    · exact Or.inl h
    · exact Or.inr (Or.inr ⟨r', hr', h⟩)

theorem oneOf_map_iff {ι : Type} {l : List ι} {r : ι → Runs} {es : List Event} {e : Ending} :
    oneOf (l.map r) es e ↔ l = [] ∧ skip es e ∨ ∃ i ∈ l, r i es e := by
  constructor
  · rintro (⟨hnil, h⟩ | ⟨r', hr', h⟩)
    · exact Or.inl ⟨List.map_eq_nil_iff.1 hnil, h⟩
    · obtain ⟨i, hi, rfl⟩ := List.mem_map.1 hr'
      exact Or.inr ⟨i, hi, h⟩
  · rintro (⟨rfl, h⟩ | ⟨i, hi, h⟩)
    · exact Or.inl ⟨rfl, h⟩
    · exact Or.inr ⟨r i, List.mem_map_of_mem hi, h⟩

/-- A body that jumps do not leave. -/
def contained (r : Runs) : Runs := fun es e => e = .normal ∧ ∃ e', r es e'

/-- Rounds through the parts of a loop. The last round may end after any of them. -/
inductive Rounds (parts : List Runs) : Runs
  | last {es : List Event} (i : Nat) (h : all (parts.take i) es .normal) : Rounds parts es .normal
  | again {es es' : List Event} {e e' : Ending} (h : all parts es e) (he : e = .normal ∨ e = .continued)
      (h' : Rounds parts es' e') : Rounds parts (es ++ es') e'
  | stop {es : List Event} {e : Ending} (h : all parts es e) (he : e = .left ∨ e = .broke) : Rounds parts es e

/-- A loop, and what follows it if it ends without a break. -/
inductive Loop (parts : List Runs) (fail : Runs) : Runs
  | done {es es' : List Event} {e : Ending} (h : Rounds parts es .normal) (h' : fail es' e) :
      Loop parts fail (es ++ es') e
  | broke {es : List Event} (h : Rounds parts es .broke) : Loop parts fail es .normal
  | left {es : List Event} (h : Rounds parts es .left) : Loop parts fail es .left

/-- A loop ends normally if its rounds do and what follows does, or by a break. -/
theorem loop_normal {parts : List Runs} {fail : Runs} {es : List Event} (h : Loop parts fail es .normal) :
    (∃ es₁ es₂, es = es₁ ++ es₂ ∧ Rounds parts es₁ .normal ∧ fail es₂ .normal) ∨ Rounds parts es .broke := by
  generalize he : Ending.normal = e at h
  cases h with
  | done h h' =>
    subst he
    exact Or.inl ⟨_, _, rfl, h, h'⟩
  | broke h => exact Or.inr h
  | left => cases he

/-- A block that may be abandoned, after any event of a run, for one of the catch clauses. -/
inductive Guarded (block : Runs) (catches : List Runs) : Runs
  | through {es : List Event} {e : Ending} (h : block es e) : Guarded block catches es e
  | caught {es rest es' : List Event} {e e' : Ending} {r : Runs} (h : block (es ++ rest) e) (hr : r ∈ catches)
      (h' : r es' e') : Guarded block catches (es ++ .caught :: es') e'

theorem guarded_nil (r : Runs) : Guarded r [] = r := by
  funext es e
  refine propext ⟨fun h => ?_, .through⟩
  cases h with
  | through h => exact h
  | caught _ hr _ => exact absurd hr List.not_mem_nil

/-- A finally clause after whatever came before; a jump of its own takes the place of the one before. -/
inductive Finally (r final : Runs) : Runs
  | mk {es es' : List Event} {e e' : Ending} (h : r es e) (h' : final es' e') :
      Finally r final (es ++ .finalized :: es') (if e' = .normal then e else e')

/-- Where the whole ends normally, what is before the finally clause does, and the clause too. -/
theorem finally_normal {r final : Runs} {es : List Event} (h : Finally r final es .normal) :
    ∃ es₁ es₂, es = es₁ ++ .finalized :: es₂ ∧ r es₁ .normal ∧ final es₂ .normal := by
  have hends {e : Ending} (h : Finally r final es e) (hend : e = .normal) :
      ∃ es₁ es₂, es = es₁ ++ .finalized :: es₂ ∧ r es₁ .normal ∧ final es₂ .normal := by
    obtain ⟨hr, hr'⟩ := h
    split at hend
    · next he => exact ⟨_, _, rfl, hend ▸ hr, he ▸ hr'⟩
    · next hne => exact absurd hend hne
  exact hends h rfl

/-- A step that may also throw, before it runs or once it has run. -/
def throwing (may : Prop) (r : Runs) : Runs := fun es e => r es e ∨ may ∧ e = .left ∧ (es = [] ∨ r es .normal)

section

variable {may : Prop} {r : Runs} {es : List Event} {e : Ending}

theorem throwing_false (r : Runs) : throwing False r = r := by
  funext es e
  simp [throwing]

theorem of_throwing_normal (h : throwing may r es .normal) : r es .normal := by
  rcases h with h | ⟨-, he, -⟩
  · exact h
  · exact absurd he nofun

/-- What happens in an execution that throws happens in one that does not. -/
theorem of_throwing (h : throwing may r es e) : es = [] ∨ ∃ e', r es e' := by
  rcases h with h | ⟨-, -, hnil | h⟩
  · exact Or.inr ⟨e, h⟩
  · exact Or.inl hnil
  · exact Or.inr ⟨.normal, h⟩

end

end Runs

/-! ## The executions of a tree -/

section

open Runs

/-- The executions of the part in a slot. -/
def slot (o : Option (Tree × Runs)) : Runs :=
  match o with
  | some p => p.2
  | none => skip

/-- The parts in order. -/
def slots (os : List (Option (Tree × Runs))) : Runs := all (os.map slot)

variable (target : DeclId)

/-- Whether the left side of a specifier refers to the target. -/
def specifies (left : Option Tree) : Bool := (left.bind fun t => t.kind?.bind NodeKind.localReference?) = some target

/-- Whether the target has its value inside its own body. -/
def valuedInside {γ : Type} : NodeKind γ → Bool
  | .functionDecl _ _ (.block _) | .getterDecl .. | .classDecl .. | .interfaceDecl .. => true
  | _ => false

/-- Whether the target has its value once its declaration has run. -/
def valuedAfter {γ : Type} : NodeKind γ → Bool
  | .valueDecl _ _ initializer => initializer.isSome
  | .functionDecl _ _ (.lazy _) | .parameter .. | .variableDecl .. => true
  | _ => false

/-- The executions of a node, from its kind with the executions of its parts. The left side of a specifier of the target
is not read. -/
def step (n : NodeId) (k : NodeKind (Tree × Runs)) : Runs :=
  match k with
  | .reference _ (.expr primary) => slot primary
  | .reference d _ => if d = target then event (.read n) else skip
  | .specifier left value =>
    if specifies target (left.map Prod.fst) then all [event (.specify n), slot value, event .assign]
    else all [slot left, slot value]
  | .returnStmt value | .throwStmt value => Seq (slot value) (jump .left)
  | .breakStmt => jump .broke
  | .continueStmt => jump .continued
  | .ifElse condition thenBranch elseBranch => Seq (slot condition) (oneOf [slot thenBranch, slot elseBranch])
  | .switch subject arms default exhaustive =>
    let others := if default.isSome || !exhaustive then [slot default] else []
    Seq (slot subject) (oneOf (arms.map slot ++ others))
  | .whileLoop condition body => Loop [slot condition, slot body] skip
  | .doWhile body condition => Loop [slot body, slot condition] skip
  | .forLoop iterator iterable body fail => Loop [slot iterator, slot iterable, slot body] (slot fail)
  | .tryCatch body catches none => Guarded (slot body) (catches.map slot)
  | .tryCatch body catches (some final) => Finally (Guarded (slot body) (catches.map slot)) final.2
  | .lambda .. => contained (slots k.slots)
  | k =>
    match k.declared? with
    | some d =>
      if d = target then
        if valuedInside k then Seq (event (.declare true)) (contained (slots k.slots))
        else Seq (contained (slots k.slots)) (event (.declare (valuedAfter k)))
      else contained (slots k.slots)
    | none => slots k.slots

/-- **The executions of a tree**. -/
def runs : Tree → Runs := Tree.fold (fun _ => skip) (step target)

theorem runs_node (n : NodeId) (k : NodeKind Tree) :
    runs target (.node n k) = step target n (k.map fun t => (t, runs target t)) := by
  rw [runs, Tree.fold_node]
  rfl

/-- The executions of a tree in which the nodes of which `throws` holds may throw as well. -/
def runsThrowing (throws : NodeId → Prop) : Tree → Runs :=
  Tree.fold (fun _ => skip) fun n k => throwing (throws n) (step target n k)

theorem runsThrowing_missing (throws : NodeId → Prop) (id : NodeId) : runsThrowing target throws (.missing id) = skip :=
  Tree.fold_missing ..

theorem runsThrowing_node (throws : NodeId → Prop) (n : NodeId) (k : NodeKind Tree) :
    runsThrowing target throws (.node n k) =
      throwing (throws n) (step target n (k.map fun t => (t, runsThrowing target throws t))) := by
  rw [runsThrowing, Tree.fold_node]
  rfl

/-- Where nothing may throw that is not a throw statement, the executions are those of `runs`. -/
theorem runsThrowing_never : runsThrowing target (fun _ => False) = runs target := by
  have hstep : (fun n k => throwing False (step target n k)) = step target := by
    funext n k
    exact throwing_false _
  rw [runsThrowing, hstep, runs]

end

/-! ## The executions by kind -/

section

open Runs

variable {target : DeclId} {n : NodeId} {k : NodeKind Tree}

/-- The executions of the part in a slot, which may be empty, where `f` says what those of a tree are. -/
def within (f : Tree → Runs) (o : Option Tree) : Runs := slot (o.map fun t => (t, f t))

section

variable {f : Tree → Runs}

theorem map_slot (os : List (Option Tree)) :
    (os.map (Option.map fun t => (t, f t))).map slot = os.map (within f) := by
  rw [List.map_map]
  rfl

theorem slots_map (k : NodeKind Tree) : slots (k.map fun t => (t, f t)).slots = all (k.slots.map (within f)) := by
  rw [slots, NodeKind.slots_map, map_slot]

/-- A node whose parts run in order. -/
theorem step_plain (hk : k.isPlain) : step target n (k.map fun t => (t, f t)) = all (k.slots.map (within f)) := by
  rw [← slots_map]
  cases k <;> first | rfl | cases hk

theorem step_lambda {parameters : List (Option Tree)} {body : Option Tree} :
    step target n ((NodeKind.lambda parameters body).map fun t => (t, f t)) =
      contained (all ((NodeKind.lambda parameters body).slots.map (within f))) := by
  rw [← slots_map]
  rfl

/-- A declaring node, of the target or of something else. -/
theorem step_declaring {d : DeclId} (hk : k.declared? = some d) :
    step target n (k.map fun t => (t, f t)) =
      if d = target then
        if valuedInside k then Seq (event (.declare true)) (contained (all (k.slots.map (within f))))
        else Seq (contained (all (k.slots.map (within f)))) (event (.declare (valuedAfter k)))
      else contained (all (k.slots.map (within f))) := by
  rw [← slots_map]
  cases k with
  | functionDecl e parameters body =>
    cases hk
    cases body <;> rfl
  | valueDecl e typeClause initializer =>
    cases hk
    cases initializer <;> rfl
  | _ => first | cases hk; rfl | cases hk

theorem step_specifier {left value : Option Tree} :
    step target n ((NodeKind.specifier left value).map fun t => (t, f t)) =
      if specifies target left then all [event (.specify n), within f value, event .assign]
      else all [within f left, within f value] := by
  cases left <;> rfl

theorem step_switch {subject default : Option Tree} {arms : List (Option Tree)} {exhaustive : Bool} :
    step target n ((NodeKind.switch subject arms default exhaustive).map fun t => (t, f t)) =
      Seq (within f subject)
        (oneOf ((arms ++ if default.isSome || !exhaustive then [default] else []).map (within f))) := by
  rw [List.map_append, ← map_slot arms]
  cases default <;> cases exhaustive <;> rfl

theorem step_tryCatch {body : Option Tree} {catches : List (Option Tree)} :
    step target n ((NodeKind.tryCatch body catches none).map fun t => (t, f t)) =
      Guarded (within f body) (catches.map (within f)) := by
  rw [← map_slot catches]
  rfl

theorem step_tryFinally {body : Option Tree} {catches : List (Option Tree)} {final : Tree} :
    step target n ((NodeKind.tryCatch body catches (some final)).map fun t => (t, f t)) =
      Finally (Guarded (within f body) (catches.map (within f))) (f final) := by
  rw [← map_slot catches]
  rfl

end

/-- The executions of the part in a slot, which may be empty. -/
def partRuns (target : DeclId) (o : Option Tree) : Runs := slot (o.map fun t => (t, runs target t))

theorem partRuns_some (t : Tree) : partRuns target (some t) = runs target t := rfl

theorem runs_plain (hk : k.isPlain) : runs target (.node n k) = all (k.slots.map (partRuns target)) :=
  (runs_node ..).trans (step_plain hk)

theorem runs_declaring {d : DeclId} (hk : k.declared? = some d) :
    runs target (.node n k) =
      if d = target then
        if valuedInside k then Seq (event (.declare true)) (contained (all (k.slots.map (partRuns target))))
        else Seq (contained (all (k.slots.map (partRuns target)))) (event (.declare (valuedAfter k)))
      else contained (all (k.slots.map (partRuns target))) :=
  (runs_node ..).trans (step_declaring hk)

theorem runs_specifier {left value : Option Tree} :
    runs target (.node n (.specifier left value)) =
      if specifies target left then all [event (.specify n), partRuns target value, event .assign]
      else all [partRuns target left, partRuns target value] :=
  (runs_node ..).trans step_specifier

theorem runs_tryCatch {body : Option Tree} {catches : List (Option Tree)} :
    runs target (.node n (.tryCatch body catches none)) =
      Guarded (partRuns target body) (catches.map (partRuns target)) :=
  (runs_node ..).trans step_tryCatch

theorem runs_tryFinally {body : Option Tree} {catches : List (Option Tree)} {final : Tree} :
    runs target (.node n (.tryCatch body catches (some final))) =
      Finally (Guarded (partRuns target body) (catches.map (partRuns target))) (runs target final) :=
  (runs_node ..).trans step_tryFinally

end

/-! ## Some executions -/

/-- An arena to which nodes of these kinds have been added in order. -/
def arenaOf (kinds : List (NodeKind NodeId)) : Arena := kinds.foldl (fun a k => (a.add k).2) { fileName := "unit" }

/-- A model with one local value, of number 2. -/
def oneLocal : Model := ((Model.new "lang").addValue ⟨0⟩ none "x" {}).2

section

open Runs

variable {x : DeclId} {n m l : NodeId} {condition thenBranch elseBranch : Option Tree} {es es' es'' : List Event}
  {e : Ending}

theorem part_plain {k : NodeKind Tree} (hk : k.isPlain = true) (h : all (k.slots.map (partRuns x)) es e) :
    partRuns x (some (.node n k)) es e := by
  rwa [partRuns_some, runs_plain hk]

theorem part_literal : partRuns x (some (.node n .literal)) [] .normal := part_plain rfl ⟨rfl, rfl⟩

/-- The declaration of a value that is given later. -/
theorem part_forward : partRuns x (some (.node n (.valueDecl x none none))) [.declare false] .normal := by
  rw [partRuns_some, runs_declaring rfl, if_pos rfl]
  exact Seq.of ⟨rfl, .normal, Seq.of ⟨rfl, rfl⟩ (Seq.of ⟨rfl, rfl⟩ ⟨rfl, rfl⟩ rfl) rfl⟩ ⟨rfl, rfl⟩ rfl

/-- `x = 1;`. -/
def assignment (x : DeclId) (n m l : NodeId) : Tree :=
  .node n (.specifier (some (.node m (.reference x .unqualified))) (some (.node l .literal)))

theorem part_assignment : partRuns x (some (assignment x n m l)) [.specify n, .assign] .normal := by
  have hleft : specifies x (some (.node m (.reference x .unqualified))) = true := decide_eq_true rfl
  rw [partRuns_some, assignment, runs_specifier, if_pos hleft]
  exact Seq.of ⟨rfl, rfl⟩ (Seq.of part_literal (Seq.of ⟨rfl, rfl⟩ ⟨rfl, rfl⟩ rfl) rfl) rfl

theorem part_reference : partRuns x (some (.node n (.reference x .unqualified))) [.read n] .normal := by
  rw [partRuns_some, runs_node]
  show (if x = x then event (.read n) else skip) _ _
  rw [if_pos rfl]
  exact ⟨rfl, rfl⟩

theorem part_throw : partRuns x (some (.node n (.throwStmt none))) [] .left := by
  rw [partRuns_some, runs_node]
  exact Seq.of ⟨rfl, rfl⟩ ⟨rfl, rfl⟩ rfl

theorem part_return : partRuns x (some (.node n (.returnStmt none))) [] .left := by
  rw [partRuns_some, runs_node]
  exact Seq.of ⟨rfl, rfl⟩ ⟨rfl, rfl⟩ rfl

theorem part_continue : partRuns x (some (.node n .continueStmt)) [] .continued := by
  rw [partRuns_some, runs_node]
  exact ⟨rfl, rfl⟩

theorem part_then (h : partRuns x condition es .normal) (h' : partRuns x thenBranch es' e) (hes : es ++ es' = es'') :
    partRuns x (some (.node n (.ifElse condition thenBranch elseBranch))) es'' e := by
  rw [partRuns_some, runs_node]
  exact Seq.of h (Or.inr ⟨_, List.mem_cons_self, h'⟩) hes

theorem part_else (h : partRuns x condition es .normal) (h' : partRuns x elseBranch es' e) (hes : es ++ es' = es'') :
    partRuns x (some (.node n (.ifElse condition thenBranch elseBranch))) es'' e := by
  rw [partRuns_some, runs_node]
  exact Seq.of h (Or.inr ⟨_, List.mem_cons_of_mem _ List.mem_cons_self, h'⟩) hes

theorem part_caught {body handler : Option Tree} {rest : List Event} {e' : Ending}
    (h : partRuns x body (es ++ rest) e) (h' : partRuns x handler es' e') :
    partRuns x (some (.node n (.tryCatch body [handler] none))) (es ++ .caught :: es') e' := by
  rw [partRuns_some, runs_tryCatch]
  exact .caught h List.mem_cons_self h'

theorem part_rounds {body : Option Tree} (h : Rounds [partRuns x condition, partRuns x body] es .normal) :
    partRuns x (some (.node n (.whileLoop condition body))) es .normal := by
  rw [partRuns_some, runs_node, ← List.append_nil es]
  exact .done h ⟨rfl, rfl⟩

/-- A block with a finally clause that does not jump. -/
theorem part_finally {body : Option Tree} {final : Tree} (h : partRuns x body es e)
    (h' : partRuns x (some final) es' .normal) :
    partRuns x (some (.node n (.tryCatch body [] (some final)))) (es ++ .finalized :: es') e := by
  rw [partRuns_some, runs_tryFinally]
  exact .mk (.through h) h'

end

/-! ## Safety -/

/-- What there is to know about the target at a point of an execution. -/
structure Store where
  declared : Bool := false
  valued : Bool := false
  /-- A catch clause has been entered since the target was declared. -/
  caught : Bool := false
  deriving DecidableEq, Repr

namespace Store

def after (c : Store) : Event → Store
  | .declare valued => { declared := true, valued, caught := false }
  | .assign => { c with valued := true }
  | .caught => { c with caught := true }
  | .read _ | .specify _ | .finalized => c

def afterAll (c : Store) (es : List Event) : Store := es.foldl after c

@[simp] theorem afterAll_nil (c : Store) : c.afterAll [] = c := rfl

@[simp] theorem afterAll_cons (c : Store) (ev : Event) (es : List Event) :
    c.afterAll (ev :: es) = (c.after ev).afterAll es := rfl

theorem afterAll_append (c : Store) (es es' : List Event) : c.afterAll (es ++ es') = (c.afterAll es).afterAll es' :=
  List.foldl_append

end Store

/-- What a specifier is forgiven. -/
structure Excuses where
  /-- Finding the target with a value, if a catch clause has been entered since it was declared. -/
  catches : Prop
  /-- Finding at its end that the target has got a value in the specifier's own right side. -/
  values : Prop

/-- Whether an event may happen in a store. -/
def Allowed (x : Excuses) (c : Store) : Event → Prop
  | .read _ => c.declared = true ∧ c.valued = true
  | .specify _ => c.declared = true ∧ (c.valued = true → x.catches ∧ c.caught = true)
  | .assign => c.declared = true ∧ (c.valued = true → x.values ∨ x.catches ∧ c.caught = true)
  | .declare _ | .caught | .finalized => True

/-- Every event is allowed where it happens. -/
def Safe (x : Excuses) : Store → List Event → Prop
  | _, [] => True
  | c, ev :: es => Allowed x c ev ∧ Safe x (c.after ev) es

@[simp] theorem safe_nil (x : Excuses) (c : Store) : Safe x c [] := trivial

@[simp] theorem safe_cons {x : Excuses} {c : Store} {ev : Event} {es : List Event} :
    Safe x c (ev :: es) ↔ Allowed x c ev ∧ Safe x (c.after ev) es := Iff.rfl

theorem safe_append {x : Excuses} {c : Store} {es es' : List Event} :
    Safe x c (es ++ es') ↔ Safe x c es ∧ Safe x (c.afterAll es) es' := by
  induction es generalizing c with
  | nil => simp
  | cons ev es ih => simp [ih, and_assoc]

/-! ## What may need an excuse -/

section

variable (target : DeclId)

/-- Whether the tree is a specifier of the target. -/
def IsSpecifier : Tree → Prop
  | .node _ (.specifier left _) => specifies target left = true
  | _ => False

/-- Whether a specifier of the target stands in the tree. -/
def Assigns (t : Tree) : Prop := ∃ u ∈ t.subtrees, IsSpecifier target u

/-- A fork that has a specifier of the target under it and no execution that ends normally. -/
def DeadEnd (t : Tree) : Prop :=
  (∃ k, t.kind? = some k ∧ k.isFork) ∧ (∀ es, ¬ runs target t es .normal) ∧ ∃ u ∈ t.subtrees, IsSpecifier target u

/-- Whether a tree has a try statement with catch clauses and a dead end in its block. -/
def GuardedDeadEnd (t : Tree) : Prop :=
  ∃ id body catches finalizer, .node id (.tryCatch (some body) catches finalizer) ∈ t.subtrees ∧ catches ≠ [] ∧
    ∃ u ∈ body.subtrees, DeadEnd target u

/-- Whether a tree has a specifier of the target in the right side of another. -/
def NestedSpecifiers (t : Tree) : Prop :=
  ∃ id left value, .node id (.specifier left (some value)) ∈ t.subtrees ∧ specifies target left = true ∧
    ∃ u ∈ value.subtrees, IsSpecifier target u

/-- The excuses that the executions of a tree may need. -/
def excuses (t : Tree) : Excuses := ⟨GuardedDeadEnd target t, NestedSpecifiers target t⟩

end

end SemCheck.Execution
