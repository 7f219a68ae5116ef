/-!
# Stretches of a text

A text that starts with a stretch of one kind, and then goes on with something of another kind or ends, says where the
stretch ends.
-/

namespace SemCheck.Text

variable {α : Type} {p : α → Prop} {as bs rest rest' : List α}

/-- The text is at its end, or goes on with something that is not of the kind `p`. -/
def Leaves (p : α → Prop) (rest : List α) : Prop := ∀ a ∈ rest.head?, ¬ p a

theorem stretch_unique (has : ∀ a ∈ as, p a) (hbs : ∀ b ∈ bs, p b) (hrest : Leaves p rest) (hrest' : Leaves p rest')
    (h : as ++ rest = bs ++ rest') : as = bs ∧ rest = rest' := by
  induction as generalizing bs with
  | nil =>
    cases bs with
    | nil => exact ⟨rfl, h⟩
    | cons b bs =>
      rw [List.nil_append] at h
      exact absurd (hbs b List.mem_cons_self) (hrest b (h ▸ rfl))
  | cons a as ih =>
    obtain ⟨ha, has⟩ := List.forall_mem_cons.1 has
    cases bs with
    | nil =>
      rw [List.nil_append] at h
      exact absurd ha (hrest' a (h ▸ rfl))
    | cons b bs =>
      obtain ⟨hhead, htail⟩ := List.cons.inj h
      obtain ⟨htails, hrests⟩ := ih has (List.forall_mem_cons.1 hbs).2 htail
      exact ⟨by rw [hhead, htails], hrests⟩

end SemCheck.Text
