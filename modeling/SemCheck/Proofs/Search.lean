import Mathlib.Algebra.GroupWithZero.Nat
import SemCheck.Search

/-!
# What a search keeps

A search goes through its items until one is what is sought. An invariant `I` that also knows the items still to come
is kept from item to item; the search ends with no item to come, or with what is said of a find (`firstFound_ends`).
Two searches with corresponding items keep in step if their visits do (`firstFound_inStep`).
-/

namespace SemCheck

variable {σ τ α β : Type}

/-- A search that has found nothing ends in `I`, one that has found something in `T`. -/
def Ends (I T : σ → Prop) : Bool × σ → Prop
  | (false, s) => I s
  | (true, s) => T s

theorem Ends.imp {I J T U : σ → Prop} {r : Bool × σ} (h : Ends I T r) (hI : ∀ s, I s → J s) (hT : ∀ s, T s → U s) :
    Ends J U r := by
  rcases r with ⟨_ | _, s⟩
  · exact hI s h
  · exact hT s h

theorem Ends.and {I J T U : σ → Prop} {r : Bool × σ} (h : Ends I T r) (h' : Ends J U r) :
    Ends (fun s => I s ∧ J s) (fun s => T s ∧ U s) r := by
  rcases r with ⟨_ | _, s⟩
  · exact ⟨h, h'⟩
  · exact ⟨h, h'⟩

/-- **What every visit keeps, the search keeps**. -/
theorem firstFound_ends {visit : α → σ → Bool × σ} {I : List α → σ → Prop} {T : σ → Prop}
    (h : ∀ a as s, I (a :: as) s → Ends (I as) T (visit a s)) {as : List α} {s : σ} (hs : I as s) :
    Ends (I []) T (firstFound visit as s) := by
  induction as generalizing s with
  | nil => exact hs
  | cons a as ih =>
    have hvisit := h a as s hs
    rw [firstFound]
    split
    · next s' heq =>
      rw [heq] at hvisit
      exact hvisit
    · next s' heq =>
      rw [heq] at hvisit
      exact ih hvisit

/-- The same for items that are themselves lists of what the invariant is about. -/
theorem firstFound_ends_flatMap {visit : β → σ → Bool × σ} {f : β → List α} {I : List α → σ → Prop} {T : σ → Prop}
    (h : ∀ b as s, I (f b ++ as) s → Ends (I as) T (visit b s)) {bs : List β} {s : σ} (hs : I (bs.flatMap f) s) :
    Ends (I []) T (firstFound visit bs s) :=
  firstFound_ends (I := fun bs => I (bs.flatMap f)) (fun b bs s hs => h b (bs.flatMap f) s hs) hs

/-- What every visit keeps, whether it finds something or not, the search keeps. -/
theorem firstFound_keeps {visit : α → σ → Bool × σ} {I : σ → Prop} (h : ∀ a s, I s → I (visit a s).2) (as : List α)
    {s : σ} (hs : I s) : I (firstFound visit as s).2 := by
  induction as generalizing s with
  | nil => exact hs
  | cons a as ih =>
    have hvisit := h a s hs
    rw [firstFound]
    split
    · next heq =>
      rw [heq] at hvisit
      exact hvisit
    · next heq =>
      rw [heq] at hvisit
      exact ih hvisit

/-- Searches agree whose visits agree as long as `I` holds, which they keep. -/
theorem firstFound_agree {visit visit' : α → σ → Bool × σ} {I : σ → Prop} (h : ∀ a s, I s → visit a s = visit' a s)
    (hkeeps : ∀ a s, I s → I (visit' a s).2) (as : List α) {s : σ} (hs : I s) :
    firstFound visit as s = firstFound visit' as s := by
  induction as generalizing s with
  | nil => rfl
  | cons a as ih =>
    have hvisit := hkeeps a s hs
    rw [firstFound, firstFound, h a s hs]
    generalize visit' a s = p at hvisit ⊢
    rcases p with ⟨_ | _, s'⟩
    · exact ih hvisit
    · rfl

/-! ## Two searches -/

/-- Two searches have both found nothing and end in `R`, or both have found something and end in `E`. -/
def InStep (R E : σ → τ → Prop) : Bool × σ → Bool × τ → Prop
  | (false, s), (false, t) => R s t
  | (true, s), (true, t) => E s t
  | _, _ => False

section

variable {R E : σ → τ → Prop} {p : Bool × σ} {q : Bool × τ}

theorem InStep.imp {R' : σ → τ → Prop} (h : InStep R E p q) (hR : ∀ s t, R s t → R' s t) : InStep R' E p q := by
  rcases p with ⟨_ | _, s⟩ <;> rcases q with ⟨_ | _, t⟩
  · exact hR s t h
  all_goals exact h

theorem InStep.and_left {I T : σ → Prop} (h : InStep R E p q) (hp : Ends I T p) :
    InStep (fun s t => R s t ∧ I s) E p q := by
  rcases p with ⟨_ | _, s⟩ <;> rcases q with ⟨_ | _, t⟩
  · exact ⟨h, hp⟩
  all_goals exact h

theorem InStep.and_right {J U : τ → Prop} (h : InStep R E p q) (hq : Ends J U q) :
    InStep (fun s t => R s t ∧ J t) E p q := by
  rcases p with ⟨_ | _, s⟩ <;> rcases q with ⟨_ | _, t⟩
  · exact ⟨h, hq⟩
  all_goals exact h

/-- **Searches whose visits keep in step keep in step**. -/
theorem firstFound_inStep {visit : α → σ → Bool × σ} {visit' : β → τ → Bool × τ} {f : α → β}
    {I : List α → σ → τ → Prop} (h : ∀ a as s t, I (a :: as) s t → InStep (I as) E (visit a s) (visit' (f a) t))
    {as : List α} {s : σ} {t : τ} (hst : I as s t) :
    InStep (I []) E (firstFound visit as s) (firstFound visit' (as.map f) t) := by
  induction as generalizing s t with
  | nil => exact hst
  | cons a as ih =>
    have hvisit := h a as s t hst
    rw [List.map_cons, firstFound, firstFound]
    generalize visit a s = p, visit' (f a) t = q at hvisit ⊢
    rcases p with ⟨_ | _, s'⟩ <;> rcases q with ⟨_ | _, t'⟩
    · exact ih hvisit
    · exact False.elim hvisit
    · exact False.elim hvisit
    · exact hvisit

end

/-! ## What is still to be spent -/

section

variable {S : List α} {p q : α → Bool} {f : α → Nat}

theorem sum_filter_le (h : ∀ a ∈ S, q a = true → p a = true) : ((S.filter q).map f).sum ≤ ((S.filter p).map f).sum := by
  induction S with
  | nil => exact Nat.le_refl _
  | cons a S ih =>
    obtain ⟨ha, hS⟩ := List.forall_mem_cons.1 h
    have ih := ih hS
    cases hq : q a with
    | true => simp [hq, ha hq, ih]
    | false =>
      cases hp : p a with
      | true =>
        simp only [List.filter_cons, hq, hp, if_true, Bool.false_eq_true, if_false, List.map_cons, List.sum_cons]
        omega
      | false => simpa [hq, hp] using ih

/-- What drops out of a filter is no longer counted. -/
theorem sum_filter_add_le {a : α} (ha : a ∈ S) (hp : p a = true) (hq : q a = false)
    (h : ∀ b ∈ S, q b = true → p b = true) :
    ((S.filter q).map f).sum + f a ≤ ((S.filter p).map f).sum := by
  induction S with
  | nil => exact absurd ha List.not_mem_nil
  | cons b S ih =>
    obtain ⟨hb, hS⟩ := List.forall_mem_cons.1 h
    rcases List.mem_cons.1 ha with rfl | ha
    · have hle := sum_filter_le (f := f) hS
      simp only [List.filter_cons, hq, hp, if_true, Bool.false_eq_true, if_false, List.map_cons, List.sum_cons]
      omega
    · have ih := ih ha hS
      cases hqb : q b with
      | true =>
        simp only [List.filter_cons, hqb, hb hqb, if_true, List.map_cons, List.sum_cons]
        omega
      | false =>
        cases hpb : p b with
        | true =>
          simp only [List.filter_cons, hqb, hpb, if_true, Bool.false_eq_true, if_false, List.map_cons, List.sum_cons]
          omega
        | false => simpa [hqb, hpb] using ih

end

end SemCheck
