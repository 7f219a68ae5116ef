import SemCheck.Proofs.Alias.Instantiation

/-!
# Substitutions in a row

A substitution made after another is one substitution (`Model.substitute_substitute`): it puts in for a parameter what
the second makes of what the first puts in, and what the second puts in for a parameter that the first does not know.
`Model.compose` is one that does so.

Unions and intersections are made anew both times. That they flatten, drop repetitions and collapse in between makes no
difference is due to types being normal (`Ty.extend_extend`).
-/

namespace SemCheck

namespace Substitution

variable {s r c : Substitution}

theorem get?_append (s r : Substitution) (p : DeclId) : get? (s ++ r) p = (get? r p).or (get? s p) := by
  induction s with
  | nil => rw [List.nil_append, get?, Option.or_none]
  | cons entry rest ih => rw [List.cons_append, get?, ih, Option.or_assoc, get?]

/-- A substitution that puts each parameter in for itself replaces nothing. -/
theorem replacement_own (h : ∀ p u, s.get? p = some u → u = .param p) (p : DeclId) :
    Ty.replacement s p = .param p := Ty.replacement_of (h p) rfl

/-- `c` puts in what `r` makes of what `s` puts in, and what `r` puts in for the other parameters. -/
def Composes (c s r : Substitution) : Prop :=
  ∀ p, c.get? p = ((s.get? p).map (Ty.substitute r)).or (r.get? p)

/-- What a composition puts in for a parameter, or the parameter itself, is what the second substitution makes of what
the first one puts in. -/
theorem Composes.replacement (h : c.Composes s r) (hs : ∀ p u, s.get? p = some u → u.Normal) (p : DeclId) :
    Ty.replacement c p = (Ty.replacement s p).extend (Ty.replacement r) .applied := by
  rw [Ty.replacement, Ty.replacement, h p]
  cases hget : s.get? p with
  | none => rfl
  | some u =>
    show u.substitute r = u.extend (Ty.replacement r) .applied
    rw [(hs p u hget).substitute_eq, Ty.replaceParams_eq]

end Substitution

namespace Ty

variable {s r c : Substitution} {t : Ty}

/-- **Two substitutions are one**. -/
theorem Normal.substitute_of_composes (ht : t.Normal) (hs : ∀ p u, s.get? p = some u → u.Normal)
    (hr : ∀ p u, r.get? p = some u → u.Normal) (hc : c.Composes s r) :
    (t.substitute s).substitute r = t.substitute c := by
  have hkeeps := keeps_replacement hs
  calc (t.substitute s).substitute r
    _ = (t.extend (replacement s) .applied).extend (replacement r) .applied := by
      rw [ht.substitute_eq, replaceParams_eq, (hkeeps.normal t).substitute_eq, replaceParams_eq]
    _ = t.extend (fun p => (replacement s p).extend (replacement r) .applied) .applied :=
      extend_extend hkeeps (keeps_replacement hr) t
    _ = t.extend (replacement c) .applied := extend_congr fun p _ => (hc.replacement hs p).symm
    _ = t.substitute c := by rw [ht.substitute_eq, replaceParams_eq]

/-- Parameters put in for themselves make no difference. -/
theorem Normal.substitute_own (ht : t.Normal) (hs : ∀ p u, s.get? p = some u → u = .param p) : t.substitute s = t := by
  rw [ht.substitute_eq, replaceParams_eq]
  exact extend_self ht (fun p _ => Substitution.replacement_own hs p) fun _ _ _ => rfl

end Ty

namespace Model

/-- `s`, then `r`. -/
def compose (m : Model) (s r : Substitution) : Substitution :=
  r ++ s.map (Prod.map id fun u => (m.substitute r u).1)

theorem get?_compose (m : Model) (s r : Substitution) (p : DeclId) :
    (m.compose s r).get? p = ((s.get? p).map fun u => (m.substitute r u).1).or (r.get? p) := by
  rw [compose, Substitution.get?_append, Substitution.get?_map]

/-- **Substitution composes**: to put in the types of `s` and then those of `r` is to put in at once what `c` knows,
and parameters put in for themselves leave a type as it is. -/
theorem substitute_substitute (m : Model) {s r c : Substitution} {t : Ty} (ht : t.Built)
    (hs : ∀ p u, s.get? p = some u → u.Built) (hr : ∀ p u, r.get? p = some u → u.Built)
    (hc : ∀ p, c.get? p = ((s.get? p).map fun u => (m.substitute r u).1).or (r.get? p)) :
    ((m.substitute s t).2.substitute r (m.substitute s t).1).1 = (m.substitute c t).1 ∧
      ∀ own : Substitution, (∀ p u, own.get? p = some u → u = .param p) → (m.substitute own t).1 = t := by
  have hcomposes : c.Composes s r := fun p => by simp only [hc p, substitute_fst]
  simp only [substitute_fst]
  exact ⟨ht.normal.substitute_of_composes (fun p u h => (hs p u h).normal) (fun p u h => (hr p u h).normal) hcomposes,
    fun own => ht.normal.substitute_own⟩

/-- In `T|X`, first `X|Y` is put in for `T`, which leaves the union `X|Y`, and then `Anything` for `X` and for `Y`,
which leaves no union at all. -/
theorem substitute_substitute_nested :
    ((nested.substitute [(⟨8⟩, .unite [.param ⟨3⟩, .param ⟨5⟩])] (.unite [.param ⟨8⟩, .param ⟨3⟩])).2.substitute
        [(⟨3⟩, nested.typeOf ⟨0⟩), (⟨5⟩, nested.typeOf ⟨0⟩)]
        (nested.substitute [(⟨8⟩, .unite [.param ⟨3⟩, .param ⟨5⟩])] (.unite [.param ⟨8⟩, .param ⟨3⟩])).1).1 =
      (nested.substitute (nested.compose [(⟨8⟩, .unite [.param ⟨3⟩, .param ⟨5⟩])]
        [(⟨3⟩, nested.typeOf ⟨0⟩), (⟨5⟩, nested.typeOf ⟨0⟩)]) (.unite [.param ⟨8⟩, .param ⟨3⟩])).1 ∧
    (nested.substitute [(⟨3⟩, .param ⟨3⟩), (⟨8⟩, .param ⟨8⟩)] (.unite [.param ⟨8⟩, .param ⟨3⟩])).1 =
      .unite [.param ⟨8⟩, .param ⟨3⟩] := by
  have hunion {p q : DeclId} (hp : nested.paramType p = .ok (.param p)) (hq : nested.paramType q = .ok (.param q)) :
      (Ty.unite [.param p, .param q]).Built :=
    .unite (List.forall_mem_cons.2 ⟨.paramType hp, List.forall_mem_singleton.2 (.paramType hq)⟩)
  have hget {s : Substitution} {P : DeclId → Ty → Prop} (h : ∀ e ∈ s, P e.1 e.2) (p : DeclId) (u : Ty)
      (hu : s.get? p = some u) : P p u := h (p, u) (Substitution.mem_of_get? hu)
  have hsource : (Ty.unite [.param ⟨8⟩, .param ⟨3⟩]).Built := hunion rfl rfl
  have hput : (Ty.unite [.param ⟨3⟩, .param ⟨5⟩]).Built := hunion rfl rfl
  have hfirst : ∀ e ∈ [((⟨8⟩ : DeclId), Ty.unite [.param ⟨3⟩, .param ⟨5⟩])], e.2.Built :=
    List.forall_mem_singleton.2 hput
  have hsecond : ∀ e ∈ [((⟨3⟩ : DeclId), nested.typeOf ⟨0⟩), (⟨5⟩, nested.typeOf ⟨0⟩)], e.2.Built :=
    List.forall_mem_cons.2 ⟨.typeOf nested ⟨0⟩, List.forall_mem_singleton.2 (.typeOf nested ⟨0⟩)⟩
  have hown : ∀ e ∈ [((⟨3⟩ : DeclId), Ty.param ⟨3⟩), (⟨8⟩, .param ⟨8⟩)], e.2 = .param e.1 :=
    List.forall_mem_cons.2 ⟨rfl, List.forall_mem_singleton.2 rfl⟩
  have h := substitute_substitute nested hsource (hget (P := fun _ u => u.Built) hfirst)
    (hget (P := fun _ u => u.Built) hsecond) (nested.get?_compose _ _)
  exact ⟨h.1, h.2 _ (hget (P := fun p u => u = .param p) hown)⟩

end Model

end SemCheck
