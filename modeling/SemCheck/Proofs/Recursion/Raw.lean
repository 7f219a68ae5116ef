import Mathlib.Logic.Relation
import SemCheck.Proofs.Search
import SemCheck.Recursion.Raw

/-!
# Recursion through declarations is found

A *raw step* goes from a declaration to one that heads a supertype of it. If the raw walk from a type finds nothing, no
chain of raw steps leads from a head of the type to a declaration that is being defined
(`not_mem_of_rawRecursion_eq_nil`).

A declaration counts as visited as soon as it is expanded, so what a visit leaves behind is closed: what it has visited
anew has only visited successors. The room for visits inside one another is enough, as each of them takes one
declaration from those that are still to be visited (`RawWalk.unvisited`).
-/

namespace SemCheck

theorem Ty.mem_heads_iff {t : Ty} {d : DeclId} : d ∈ t.heads ↔ ∃ u ∈ t.leaves, u.head? = some d := by
  rw [heads_eq, List.mem_eraseDups, List.mem_filterMap]

namespace Model

/-- One step from a declaration to a head of one of its supertypes. -/
def RawStep (m : Model) (d e : DeclId) : Prop := e ∈ m.rawSuccessors d

/-- Any number of raw steps. -/
def RawReach (m : Model) : DeclId → DeclId → Prop := Relation.ReflTransGen m.RawStep

theorem mem_rawSuccessors_iff {m : Model} {d e : DeclId} :
    e ∈ m.rawSuccessors d ↔ ∃ t ∈ m.supertypesOf d, e ∈ t.heads := by
  rw [rawSuccessors, List.mem_flatMap]

/-- A declaration that the model does not know has no successors. -/
theorem lt_size_of_rawSuccessors_ne_nil {m : Model} {d : DeclId} (h : m.rawSuccessors d ≠ []) :
    d.index < m.declarations.size := by
  by_cases hlt : d.index < m.declarations.size
  · exact hlt
  · have hnone : m.get? d = none := Array.getElem?_eq_none (Nat.not_lt.1 hlt)
    refine absurd ?_ h
    rw [rawSuccessors, supertypesOf, hnone]
    rfl

end Model

namespace RawWalk

variable {m : Model} {defining : List DeclId} {w w' w'' : RawWalk} {next : DeclId → RawWalk → Bool × RawWalk}

/-- What a visit without a find does to a walk. -/
structure Passes (m : Model) (defining : List DeclId) (w w' : RawWalk) : Prop where
  path : w'.path = w.path
  visited : ∀ e, w.visited.contains e = true → w'.visited.contains e = true
  closed : ∀ e, w'.visited.contains e = true → w.visited.contains e = true ∨
    e ∉ defining ∧ ∀ e' ∈ m.rawSuccessors e, w'.visited.contains e' = true

theorem Passes.refl (w : RawWalk) : Passes m defining w w := ⟨rfl, fun _ => id, fun _ => Or.inl⟩

theorem Passes.trans (h : Passes m defining w w') (h' : Passes m defining w' w'') : Passes m defining w w'' := by
  constructor
  case path => exact h'.path.trans h.path
  case visited =>
    intro e he
    exact h'.visited e (h.visited e he)
  case closed =>
    intro e he
    rcases h'.closed e he with he | he
    · exact (h.closed e he).imp_right fun ⟨hnot, hsucc⟩ => ⟨hnot, fun e' he' => h'.visited e' (hsucc e' he')⟩
    · exact Or.inr he

/-! ## Room -/

/-- How many declarations of the model are still to be visited. -/
def unvisited (m : Model) (w : RawWalk) : Nat :=
  (((List.range m.declarations.size).filter fun i => !w.visited.contains ⟨i⟩).map fun _ => 1).sum

theorem unvisited_le (h : ∀ e, w.visited.contains e = true → w'.visited.contains e = true) :
    w'.unvisited m ≤ w.unvisited m := by
  apply sum_filter_le
  intro i _ hi
  cases hw : w.visited.contains ⟨i⟩ with
  | false => rfl
  | true => simp [h ⟨i⟩ hw] at hi

theorem unvisited_insert_lt {d : DeclId} (hd : d.index < m.declarations.size) (hnew : w.visited.contains d = false) :
    unvisited m { w with visited := w.visited.insert d } + 1 ≤ w.unvisited m := by
  refine sum_filter_add_le (List.mem_range.2 hd) ?_ ?_ fun i _ hi => ?_
  · rw [hnew]
    rfl
  · simp [KeySet.contains_insert]
  · rw [KeySet.contains_insert, Bool.not_or, Bool.and_eq_true] at hi
    exact hi.2

theorem unvisited_start (m : Model) : unvisited m {} ≤ m.declarations.size := by
  have hall : (List.range m.declarations.size).filter (fun i => !(KeySet.empty : KeySet DeclId).contains ⟨i⟩) =
      List.range m.declarations.size := List.filter_eq_self.2 fun i _ => by simp
  have hsum : ((List.range m.declarations.size).map fun _ => 1).sum = m.declarations.size := by
    rw [List.map_const', List.sum_replicate_nat, List.length_range, Nat.mul_one]
  rw [← hall] at hsum
  exact Nat.le_of_eq hsum

/-! ## Visiting -/

/-- A visit with `room` for all that is still to be visited leaves the declaration visited, or has found a way. -/
def Visits (m : Model) (defining : List DeclId) (room : Nat) (visit : DeclId → RawWalk → Bool × RawWalk) : Prop :=
  ∀ d w, w.unvisited m ≤ room →
    Ends (fun w' => Passes m defining w w' ∧ w'.visited.contains d = true) (·.path ≠ []) (visit d w)

/-- A search through the declarations `all` under way, with `ds` still to come. -/
structure Searching (m : Model) (defining : List DeclId) (w₀ : RawWalk) (all ds : List DeclId) (w : RawWalk) :
    Prop where
  passes : Passes m defining w₀ w
  visited : ∀ e ∈ all, e ∈ ds ∨ w.visited.contains e = true

theorem Searching.visit {room : Nat} {w₀ : RawWalk} {all ds : List DeclId} {d : DeclId}
    (hnext : Visits m defining room next) (hroom : w₀.unvisited m ≤ room)
    (h : Searching m defining w₀ all (d :: ds) w) : Ends (Searching m defining w₀ all ds) (·.path ≠ []) (next d w) := by
  have hvisit := hnext d w (Nat.le_trans (unvisited_le h.passes.visited) hroom)
  refine hvisit.imp (fun w' hw => ⟨h.passes.trans hw.1, fun e he => ?_⟩) fun _ hT => hT
  rcases h.visited e he with hmem | hvisited
  · rcases List.mem_cons.1 hmem with rfl | hmem
    · exact Or.inr hw.2
    · exact Or.inl hmem
  · exact Or.inr (hw.1.visited e hvisited)

theorem firstFound_searching {room : Nat} (hnext : Visits m defining room next) (ds : List DeclId)
    (hroom : w.unvisited m ≤ room) :
    Ends (fun w' => Passes m defining w w' ∧ ∀ e ∈ ds, w'.visited.contains e = true) (·.path ≠ [])
      (firstFound next ds w) := by
  have hstart : Searching m defining w ds ds w := ⟨.refl w, fun _ => Or.inl⟩
  refine (firstFound_ends (fun e ds w' hw => hw.visit hnext hroom) hstart).imp (fun w' hw => ?_) fun _ hT => hT
  exact ⟨hw.passes, fun e he => (hw.visited e he).resolve_left List.not_mem_nil⟩

/-- Expanding a declaration all of whose successors are visited in the end. -/
theorem Passes.expand {d : DeclId} (hnot : d ∉ defining)
    (h : Passes m defining { w with visited := w.visited.insert d } w')
    (hsucc : ∀ e ∈ m.rawSuccessors d, w'.visited.contains e = true) : Passes m defining w w' := by
  constructor
  case path => exact h.path
  case visited =>
    intro e he
    apply h.visited e
    rw [KeySet.contains_insert, he, Bool.or_true]
  case closed =>
    intro e he
    rcases h.closed e he with hold | hnew
    · rw [KeySet.contains_insert, Bool.or_eq_true, decide_eq_true_eq] at hold
      rcases hold with rfl | hold
      · exact Or.inr ⟨hnot, hsucc⟩
      · exact Or.inl hold
    · exact Or.inr hnew

theorem rawVisit_visits {room : Nat} (hnext : ∀ n, room = n + 1 → Visits m defining n next) :
    Visits m defining room (m.rawVisit defining next) := by
  intro d w hroom
  by_cases hmem : d ∈ defining
  · rw [Model.rawVisit, if_pos hmem]
    exact List.cons_ne_nil _ _
  cases hvisited : w.visited.contains d with
  | true =>
    rw [Model.rawVisit, if_neg hmem, if_pos hvisited]
    exact ⟨.refl w, hvisited⟩
  | false =>
    have hsearch : Ends (fun w' => Passes m defining { w with visited := w.visited.insert d } w' ∧
        ∀ e ∈ m.rawSuccessors d, w'.visited.contains e = true) (·.path ≠ [])
        (firstFound next (m.rawSuccessors d) { w with visited := w.visited.insert d }) := by
      by_cases hnil : m.rawSuccessors d = []
      · rw [hnil]
        exact ⟨.refl _, fun e he => absurd he List.not_mem_nil⟩
      · have hlt := unvisited_insert_lt (w := w) (Model.lt_size_of_rawSuccessors_ne_nil hnil) hvisited
        obtain ⟨n, rfl⟩ : ∃ n, room = n + 1 := ⟨room - 1, by omega⟩
        exact firstFound_searching (hnext n rfl) _ (by omega)
    rw [Model.rawVisit, if_neg hmem, hvisited, if_neg Bool.false_ne_true, Model.firstFound_visitHeads]
    rcases hfound : firstFound next (m.rawSuccessors d) { w with visited := w.visited.insert d } with ⟨_ | _, w'⟩
    · rw [hfound] at hsearch
      obtain ⟨hpasses, hsucc⟩ := hsearch
      refine ⟨hpasses.expand hmem hsucc, hpasses.visited d ?_⟩
      simp [KeySet.contains_insert]
    · exact List.cons_ne_nil _ _

theorem rawWalk_visits (room : Nat) : Visits m defining room (m.rawWalk defining room) := by
  induction room with
  | zero => exact rawVisit_visits nofun
  | succ room ih =>
    apply rawVisit_visits
    intro n hn
    obtain rfl : room = n := Nat.succ.inj hn
    exact ih

end RawWalk

namespace Model

open RawWalk

variable {m : Model} {defining : List DeclId}

/-- **Nothing is missed**: if the raw walk from `t` finds nothing, no chain of raw steps from a head of `t` reaches a
declaration that is being defined. -/
theorem not_mem_of_rawRecursion_eq_nil {t : Ty} {d e : DeclId} (h : m.rawRecursion defining t = []) (hd : d ∈ t.heads)
    (hreach : m.RawReach d e) : e ∉ defining := by
  have hvisits : Visits m defining m.declarations.size (m.rawWalk defining m.declarations.size) := rawWalk_visits _
  have hsearch := firstFound_searching hvisits t.heads (unvisited_start m)
  rw [rawRecursion, visitHeads, List.reverse_eq_nil_iff] at h
  rcases hwalk : firstFound (m.rawWalk defining m.declarations.size) t.heads {} with ⟨_ | _, w⟩
  · rw [hwalk] at hsearch
    obtain ⟨hpasses, hheads⟩ := hsearch
    have hclosed (e : DeclId) (he : w.visited.contains e = true) :
        e ∉ defining ∧ ∀ e' ∈ m.rawSuccessors e, w.visited.contains e' = true :=
      (hpasses.closed e he).resolve_left (by simp)
    have hvisited : w.visited.contains e = true := by
      induction hreach with
      | refl => exact hheads d hd
      | tail _ hstep ih => exact (hclosed _ ih).2 _ hstep
    exact (hclosed e hvisited).1
  · rw [hwalk] at hsearch h
    exact absurd h hsearch

end Model

end SemCheck
