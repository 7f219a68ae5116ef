import Mathlib.Data.List.Chain
import Mathlib.Data.List.Nodup
import SemCheck.Proofs.Recursion.Budget
import SemCheck.Proofs.Recursion.Raw

/-!
# The way that a raw walk finds

A raw walk that finds something has come along a *way*: raw steps from a head of the type to a declaration that is being
defined. Main statement: the walk finds a way exactly if there is one, and what it answers is the way back, with no
declaration in two places (`rawRecursion_exact`).

A declaration is expanded only if it has not been visited, and counts as visited from then on. So the declarations on
the way behind it are others, and a way that is found anew is new to every visit around it (`Way.mono`).
-/

namespace SemCheck

namespace Model

variable {m : Model} {defining : List DeclId}

/-- A way back from a declaration that is being defined, which comes first, to a head of `t`. -/
structure RawWay (m : Model) (defining : List DeclId) (t : Ty) (way : List DeclId) : Prop where
  first : ∃ d ∈ defining, way.head? = some d
  others : ∀ d ∈ way.tail, d ∉ defining
  last : ∃ d ∈ t.heads, way.getLast? = some d
  linked : way.IsChain fun e d => ∃ u ∈ m.supertypesOf d, e ∈ u.heads
  nodup : way.Nodup

end Model

namespace RawWalk

variable {m : Model} {defining : List DeclId} {w w' w'' : RawWalk} {next : DeclId → RawWalk → Bool × RawWalk}

/-! ## Ways -/

/-- Raw steps from a declaration to one that is being defined, through `fresh` ones that are not. -/
inductive Way (m : Model) (defining : List DeclId) (fresh : DeclId → Prop) : DeclId → List DeclId → Prop
  | here {d : DeclId} (hd : d ∈ defining) : Way m defining fresh d [d]
  | step {d e : DeclId} {way : List DeclId} (hd : d ∉ defining) (hfresh : fresh d) (hstep : m.RawStep d e)
      (hnew : d ∉ way) (h : Way m defining fresh e way) : Way m defining fresh d (d :: way)

namespace Way

variable {fresh fresh' : DeclId → Prop} {d e : DeclId} {way : List DeclId}

theorem mono (h : Way m defining fresh d way) (hfresh : ∀ e, fresh e → fresh' e) : Way m defining fresh' d way := by
  induction h with
  | here hd => exact .here hd
  | step hd hnew hstep hway _ ih => exact .step hd (hfresh _ hnew) hstep hway ih

theorem exists_eq_cons (h : Way m defining fresh d way) : ∃ rest, way = d :: rest := by
  cases h with
  | here => exact ⟨[], rfl⟩
  | step => exact ⟨_, rfl⟩

theorem defining_or_fresh (h : Way m defining fresh d way) (he : e ∈ way) : e ∈ defining ∨ fresh e := by
  induction h with
  | here hd => exact Or.inl (List.mem_singleton.1 he ▸ hd)
  | step _ hfresh _ _ _ ih =>
    rcases List.mem_cons.1 he with rfl | he
    · exact Or.inr hfresh
    · exact ih he

theorem rawReach (h : Way m defining fresh d way) : ∃ e ∈ defining, m.RawReach d e := by
  induction h with
  | here hd => exact ⟨_, hd, .refl⟩
  | step _ _ hstep _ _ ih =>
    obtain ⟨e, he, hreach⟩ := ih
    exact ⟨e, he, hreach.head hstep⟩

theorem getLast? (h : Way m defining fresh d way) : ∃ e ∈ defining, way.getLast? = some e := by
  induction h with
  | here hd => exact ⟨_, hd, rfl⟩
  | step _ _ _ _ h ih =>
    obtain ⟨rest, rfl⟩ := h.exists_eq_cons
    obtain ⟨e, he, hlast⟩ := ih
    exact ⟨e, he, by rw [List.getLast?_cons_cons, hlast]⟩

theorem not_mem_of_mem_dropLast (h : Way m defining fresh d way) : ∀ e ∈ way.dropLast, e ∉ defining := by
  induction h with
  | here hd => exact fun e he => absurd he List.not_mem_nil
  | step hd _ _ _ h ih =>
    obtain ⟨rest, rfl⟩ := h.exists_eq_cons
    rw [List.dropLast_cons_cons]
    exact List.forall_mem_cons.2 ⟨hd, ih⟩

theorem isChain (h : Way m defining fresh d way) : way.IsChain m.RawStep := by
  induction h with
  | here => exact .singleton _
  | step _ _ hstep _ h ih =>
    obtain ⟨rest, rfl⟩ := h.exists_eq_cons
    exact .cons_cons hstep ih

theorem nodup (h : Way m defining fresh d way) : way.Nodup := by
  induction h with
  | here => exact List.nodup_singleton _
  | step _ _ _ hnew _ ih => exact List.nodup_cons.2 ⟨hnew, ih⟩

/-- The declarations of a way in the opposite order are a way back. -/
theorem rawWay_reverse {t : Ty} (h : Way m defining fresh d way) (hd : d ∈ t.heads) :
    m.RawWay defining t way.reverse := by
  constructor
  case first =>
    rw [List.head?_reverse]
    exact h.getLast?
  case others =>
    intro e he
    rw [List.tail_reverse, List.mem_reverse] at he
    exact h.not_mem_of_mem_dropLast e he
  case last =>
    obtain ⟨rest, rfl⟩ := h.exists_eq_cons
    exact ⟨d, hd, by rw [List.getLast?_reverse, List.head?_cons]⟩
  case linked =>
    rw [List.isChain_reverse]
    exact h.isChain.imp fun c e hstep => Model.mem_rawSuccessors_iff.1 hstep
  case nodup =>
    rw [List.nodup_reverse]
    exact h.nodup

end Way

/-! ## Finding one -/

/-- What a visit without a find leaves as it was: the path, and all that has been visited. -/
structure Grows (w w' : RawWalk) : Prop where
  path : w'.path = w.path
  visited : ∀ e, w.visited.contains e = true → w'.visited.contains e = true

theorem Grows.refl (w : RawWalk) : Grows w w := ⟨rfl, fun _ => id⟩

theorem Grows.trans (h : Grows w w') (h' : Grows w' w'') : Grows w w'' :=
  ⟨h'.path.trans h.path, fun e he => h'.visited e (h.visited e he)⟩

/-- The path has been extended by a way from one of the declarations, through declarations not visited before. -/
def Found (m : Model) (defining : List DeclId) (w : RawWalk) (ds : List DeclId) (w' : RawWalk) : Prop :=
  ∃ d ∈ ds, ∃ way, w'.path = way ++ w.path ∧ Way m defining (fun e => w.visited.contains e = false) d way

/-- What is new to a later walk has been new before. -/
theorem Found.of_grows {ds : List DeclId} (hgrows : Grows w w') (h : Found m defining w' ds w'') :
    Found m defining w ds w'' := by
  obtain ⟨d, hd, way, hpath, hway⟩ := h
  refine ⟨d, hd, way, by rw [hpath, hgrows.path], hway.mono fun e he => ?_⟩
  cases hold : w.visited.contains e with
  | false => rfl
  | true => exact absurd (he.symm.trans (hgrows.visited e hold)) nofun

/-- A visit that finds something extends the path by a way from its declaration. -/
def Finds (m : Model) (defining : List DeclId) (visit : DeclId → RawWalk → Bool × RawWalk) : Prop :=
  ∀ d w, Ends (Grows w) (Found m defining w [d]) (visit d w)

theorem firstFound_finds (hnext : Finds m defining next) (ds : List DeclId) (w : RawWalk) :
    Ends (Grows w) (Found m defining w ds) (firstFound next ds w) := by
  have hstart : (∀ e ∈ ds, e ∈ ds) ∧ Grows w w := ⟨fun _ => id, .refl w⟩
  refine (firstFound_ends (I := fun es w' => (∀ e ∈ es, e ∈ ds) ∧ Grows w w') ?_ hstart).imp (fun _ h => h.2)
    fun _ => id
  rintro d es w' ⟨hmem, hgrows⟩
  obtain ⟨hd, hes⟩ := List.forall_mem_cons.1 hmem
  refine (hnext d w').imp (fun w'' h => ⟨hes, hgrows.trans h⟩) fun w'' h => ?_
  obtain ⟨c, hc, hway⟩ := h.of_grows hgrows
  exact ⟨c, List.mem_singleton.1 hc ▸ hd, hway⟩

theorem rawVisit_finds (hnext : Finds m defining next) : Finds m defining (m.rawVisit defining next) := by
  intro d w
  by_cases hmem : d ∈ defining
  · rw [Model.rawVisit, if_pos hmem]
    exact ⟨d, List.mem_singleton_self d, [d], rfl, .here hmem⟩
  cases hvisited : w.visited.contains d with
  | true =>
    rw [Model.rawVisit, if_neg hmem, if_pos hvisited]
    exact .refl w
  | false =>
    have hgrows : Grows w { w with visited := w.visited.insert d } := by
      refine ⟨rfl, fun e he => ?_⟩
      rw [KeySet.contains_insert, he, Bool.or_true]
    have hsearch := firstFound_finds hnext (m.rawSuccessors d) { w with visited := w.visited.insert d }
    rw [Model.rawVisit, if_neg hmem, hvisited, if_neg Bool.false_ne_true, Model.firstFound_visitHeads]
    rcases hfound : firstFound next (m.rawSuccessors d) { w with visited := w.visited.insert d } with ⟨_ | _, w'⟩
    · rw [hfound] at hsearch
      exact hgrows.trans hsearch
    · rw [hfound] at hsearch
      obtain ⟨e, he, way, hpath, hway⟩ := hsearch
      -- The way behind `d` leads through declarations that were not visited when `d` already was.
      have hnew : d ∉ way := by
        intro hd
        rcases hway.defining_or_fresh hd with hd | hd
        · exact hmem hd
        · simp [KeySet.contains_insert] at hd
      have hway' : Way m defining (fun e => w.visited.contains e = false) e way := by
        refine hway.mono fun c hc => ?_
        rw [KeySet.contains_insert, Bool.or_eq_false_iff] at hc
        exact hc.2
      exact ⟨d, List.mem_singleton_self d, d :: way, congrArg (d :: ·) hpath, .step hmem hvisited he hnew hway'⟩

theorem rawWalk_finds (room : Nat) : Finds m defining (m.rawWalk defining room) := by
  induction room with
  | zero => exact rawVisit_finds fun _ w => .refl w
  | succ room ih => exact rawVisit_finds ih

end RawWalk

namespace Model

open RawWalk

/-- **Raw recursion is reachability**: the walk from `t` finds something exactly if raw steps lead from a head of `t` to a
declaration that is being defined, and then its answer is a way back. -/
theorem rawRecursion_exact (m : Model) (defining : List DeclId) (t : Ty) :
    (m.rawRecursion defining t ≠ [] ↔ ∃ d ∈ t.heads, ∃ e ∈ defining, m.RawReach d e) ∧
      (m.rawRecursion defining t ≠ [] → m.RawWay defining t (m.rawRecursion defining t)) := by
  have hway (hne : m.rawRecursion defining t ≠ []) : ∃ d ∈ t.heads, ∃ way fresh,
      Way m defining fresh d way ∧ m.rawRecursion defining t = way.reverse := by
    have hwalks : Finds m defining (m.rawWalk defining m.declarations.size) := rawWalk_finds _
    have hsearch := firstFound_finds hwalks t.heads {}
    rw [rawRecursion, visitHeads] at hne ⊢
    rcases hwalk : firstFound (m.rawWalk defining m.declarations.size) t.heads {} with ⟨_ | _, w⟩
    · rw [hwalk] at hsearch hne
      exact absurd (congrArg List.reverse hsearch.path) hne
    · rw [hwalk] at hsearch
      obtain ⟨d, hd, way, hpath, hway⟩ := hsearch
      exact ⟨d, hd, way, _, hway, by rw [hpath, List.append_nil]⟩
  refine ⟨⟨fun hne => ?_, ?_⟩, fun hne => ?_⟩
  · obtain ⟨d, hd, way, fresh, hway, -⟩ := hway hne
    exact ⟨d, hd, hway.rawReach⟩
  · rintro ⟨d, hd, e, he, hreach⟩ hnil
    exact not_mem_of_rawRecursion_eq_nil hnil hd hreach he
  · obtain ⟨d, hd, way, fresh, hway, heq⟩ := hway hne
    rw [heq]
    exact hway.rawWay_reverse hd

/-- In the ring the second interface leads to the first, which is being defined. -/
theorem rawRecursion_exact_ring :
    ring.rawRecursion [⟨2⟩] (.applied ⟨3⟩ []) = [⟨2⟩, ⟨3⟩] ∧ ring.RawWay [⟨2⟩] (.applied ⟨3⟩ []) [⟨2⟩, ⟨3⟩] := by
  have hway : ring.rawRecursion [⟨2⟩] (.applied ⟨3⟩ []) = [⟨2⟩, ⟨3⟩] := by decide
  refine ⟨hway, ?_⟩
  rw [← hway]
  exact (rawRecursion_exact ring [⟨2⟩] (.applied ⟨3⟩ [])).2 (by rw [hway]; exact List.cons_ne_nil _ _)

end Model

end SemCheck
