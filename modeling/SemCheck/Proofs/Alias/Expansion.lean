import Mathlib.Data.List.Chain
import Mathlib.Data.Nat.Find
import SemCheck.Model.Alias
import SemCheck.Proofs.Ty.Extension

/-!
# Expanding aliases without a guard

If chains of aliases, each applied in the target of the one before, are bounded, aliases have ranks that fall from an
alias to those in its target (`exists_rankedWith`). Then an expansion with room for all ranks needs no guard. Main
statement: nothing is left in its result to be expanded (`fits_expandWithin`).
-/

namespace SemCheck

theorem Substitution.mem_of_get? {s : Substitution} {p : DeclId} {t : Ty} (h : s.get? p = some t) : (p, t) ∈ s := by
  induction s with
  | nil => exact absurd h nofun
  | cons entry rest ih =>
    obtain ⟨q, u⟩ := entry
    rw [get?] at h
    rcases Option.or_eq_some_iff.1 h with h | ⟨-, h⟩
    · exact List.mem_cons_of_mem _ (ih h)
    · split at h
      · next heq =>
        obtain rfl := Option.some.inj h
        exact heq ▸ List.mem_cons_self
      · exact absurd h nofun

namespace Model

variable (m : Model)

/-! ## Ranks -/

/-- The alias `e`, which has a target, is applied in the target of `d`. -/
def AliasDependsOn (d e : DeclId) : Prop :=
  m.aliasTarget? e ≠ none ∧ ∃ target args, m.aliasTarget? d = some target ∧ (Ty.applied e args).Occurs target

/-- If chains of aliases, each applied in the target of the one before, have at most `n` members, then aliases have ranks
below `n`. -/
theorem exists_rank {n : Nat} (h : ∀ chain : List DeclId, chain.IsChain m.AliasDependsOn → chain.length ≤ n) :
    ∃ rank : DeclId → Nat, (∀ d, rank d < n) ∧ ∀ d e, m.AliasDependsOn d e → rank e < rank d := by
  classical
  -- the rank of an alias is the greatest number of aliases that can follow it
  let Bounds (d : DeclId) (k : Nat) : Prop := ∀ chain, (d :: chain).IsChain m.AliasDependsOn → chain.length ≤ k
  have hbounds (d : DeclId) : Bounds d (n - 1) := fun chain hchain => Nat.le_sub_one_of_lt (h _ hchain)
  have hexists (d : DeclId) : ∃ k, Bounds d k := ⟨n - 1, hbounds d⟩
  refine ⟨fun d => Nat.find (hexists d), fun d => ?_, fun d e hde => ?_⟩
  · have hn : 1 ≤ n := h [d] (.singleton d)
    exact Nat.lt_of_le_of_lt (Nat.find_min' (hexists d) (hbounds d)) (Nat.sub_one_lt_of_lt hn)
  · have hbelow {chain : List DeclId} (hchain : (e :: chain).IsChain m.AliasDependsOn) :
        chain.length + 1 ≤ Nat.find (hexists d) := Nat.find_spec (hexists d) (e :: chain) (.cons_cons hde hchain)
    have hle : Nat.find (hexists e) ≤ Nat.find (hexists d) - 1 :=
      Nat.find_min' (hexists e) fun chain hchain => Nat.le_sub_one_of_lt (hbelow hchain)
    exact Nat.lt_of_le_of_lt hle (Nat.sub_one_lt_of_lt (hbelow (.singleton e)))

variable (rank : DeclId → Nat)

section

variable (allows : DeclId → Nat → Prop)

/-- An application to an allowed number of arguments, and to an alias of a rank below `b` if to an alias. -/
def Admits (b : Nat) : Ty → Prop
  | .applied d args => allows d args.length ∧ (m.aliasTarget? d ≠ none → rank d < b)
  | _ => True

/-- All applications in a type are admitted. With `b = 0`, no alias is applied in it. -/
def FitsWith (b : Nat) (t : Ty) : Prop := t.Every (m.Admits rank allows b)

/-- What the targets of aliases are like: normal, each with applications of aliases of a lower rank only. -/
structure RankedWith : Prop where
  normal : ∀ d target, m.aliasTarget? d = some target → target.Normal
  fits : ∀ d target, m.aliasTarget? d = some target → m.FitsWith rank allows (rank d) target

end

/-- The number of parameters of a declaration. -/
abbrev Takes (d : DeclId) (n : Nat) : Prop := n = (m.typeParametersOf d).length

/-- Applications have as many arguments as there are parameters. -/
abbrev Fits : Nat → Ty → Prop := m.FitsWith rank m.Takes

/-- Besides, targets have no parameters but the alias's own. -/
structure Ranked : Prop extends m.RankedWith rank m.Takes where
  closed : ∀ d target, m.aliasTarget? d = some target → ∀ p, (Ty.param p).Occurs target → p ∈ m.typeParametersOf d

variable {m rank} {allows : DeclId → Nat → Prop} {b c n : Nat} {d : DeclId} {args : List Ty} {t target : Ty}

theorem Admits.mono (hle : b ≤ c) (h : m.Admits rank allows b t) : m.Admits rank allows c t := by
  cases t with
  | applied d args => exact ⟨h.1, fun halias => Nat.lt_of_lt_of_le (h.2 halias) hle⟩
  | _ => trivial

theorem FitsWith.mono (hle : b ≤ c) (h : m.FitsWith rank allows b t) : m.FitsWith rank allows c t :=
  fun u hu hhead => (h u hu hhead).mono hle

theorem FitsWith.admits (h : m.FitsWith rank allows b t) (hd : (Ty.applied d args).Occurs t) :
    allows d args.length ∧ (m.aliasTarget? d ≠ none → rank d < b) := h _ hd nofun

theorem FitsWith.aliasTarget?_eq_none (h : m.FitsWith rank allows 0 t) (hd : (Ty.applied d args).Occurs t) :
    m.aliasTarget? d = none :=
  Classical.byContradiction fun halias => Nat.not_lt_zero _ ((h.admits hd).2 halias)

theorem fitsWith_of (hallows : ∀ d args, (Ty.applied d args).Occurs t → allows d args.length)
    (hrank : ∀ d args, (Ty.applied d args).Occurs t → m.aliasTarget? d ≠ none → rank d < b) :
    m.FitsWith rank allows b t := by
  intro u hu _
  cases u with
  | applied d args => exact ⟨hallows d args hu, hrank d args hu⟩
  | _ => trivial

/-- A bound on chains of aliases gives ranks to targets that are normal. -/
theorem exists_rankedWith (allows : DeclId → Nat → Prop)
    (hnormal : ∀ d target, m.aliasTarget? d = some target → target.Normal)
    (hallows : ∀ d target, m.aliasTarget? d = some target →
      ∀ e args, (Ty.applied e args).Occurs target → allows e args.length)
    (hchains : ∀ chain : List DeclId, chain.IsChain m.AliasDependsOn → chain.length ≤ n) :
    ∃ rank : DeclId → Nat, (∀ d, rank d < n) ∧ m.RankedWith rank allows := by
  obtain ⟨rank, hbound, hfalls⟩ := m.exists_rank hchains
  refine ⟨rank, hbound, hnormal, fun d target htarget => ?_⟩
  refine fitsWith_of (hallows d target htarget) fun e args he halias => ?_
  exact hfalls d e ⟨halias, target, args, htarget, he⟩

theorem fits_param {p : DeclId} : m.FitsWith rank allows b (.param p) := Ty.every_param.2 trivial

/-! ### Filling in -/

/-- What parameters are replaced by fits if what is put in does. -/
theorem FitsWith.extend {leaf : DeclId → Ty} (hkeeps : Ty.Keeps leaf .applied) (h : m.FitsWith rank allows b t)
    (hfits : ∀ p, (Ty.param p).Occurs t → m.FitsWith rank allows b (leaf p)) :
    m.FitsWith rank allows b (t.extend leaf .applied) := by
  refine Ty.Every.extend hkeeps t hfits fun d args hd hargs => ?_
  refine Ty.every_applied.2 ⟨?_, List.forall_mem_map.2 hargs⟩
  rw [Admits, List.length_map]
  exact h.admits hd

/-- What an argument map puts in is an argument. -/
theorem mem_of_get?_argumentMap {p : DeclId} {u : Ty} (h : (m.argumentMap d args).get? p = some u) : u ∈ args :=
  (List.of_mem_zip (Substitution.mem_of_get? h)).2

theorem keeps_argumentMap (m : Model) (d : DeclId) (hargs : ∀ u ∈ args, u.Normal) :
    Ty.Keeps (Ty.replacement (m.argumentMap d args)) .applied :=
  Ty.keeps_replacement fun _ u hget => hargs u (mem_of_get?_argumentMap hget)

theorem normal_fill (htarget : target.Normal) (hargs : ∀ u ∈ args, u.Normal) :
    (target.substitute (m.argumentMap d args)).Normal := by
  rw [htarget.substitute_eq, Ty.replaceParams_eq]
  exact (m.keeps_argumentMap d hargs).normal target

theorem RankedWith.fits_fill (h : m.RankedWith rank allows) (htarget : m.aliasTarget? d = some target)
    (hargs : ∀ u ∈ args, u.Normal) (hfits : ∀ u ∈ args, m.FitsWith rank allows 0 u) :
    m.FitsWith rank allows (rank d) (target.substitute (m.argumentMap d args)) := by
  rw [(h.normal d target htarget).substitute_eq, Ty.replaceParams_eq]
  refine (h.fits d target htarget).extend (m.keeps_argumentMap d hargs) fun p _ => ?_
  exact Ty.replacement_of (fun u hget => (hfits u (mem_of_get?_argumentMap hget)).mono (Nat.zero_le _)) fits_param

/-! ## Expansion -/

variable (m) in
/-- An application to resolved arguments; `expand` resolves the target of an alias. -/
def unfold (expand : Ty → Ty) (d : DeclId) (args : List Ty) : Ty :=
  match m.aliasTarget? d with
  | none => .applied d args
  | some target => expand (target.substitute (m.argumentMap d args))

variable (m) in
/-- Resolves aliases with at most so many expansions inside one another. -/
def expandWithin : Nat → Ty → Ty
  | 0 => Ty.extend .param .applied
  | room + 1 => Ty.extend .param (m.unfold (expandWithin room))

theorem unfold_of_none {expand : Ty → Ty} (h : m.aliasTarget? d = none) : m.unfold expand d args = .applied d args := by
  rw [unfold, h]

theorem unfold_of_some {expand : Ty → Ty} (h : m.aliasTarget? d = some target) :
    m.unfold expand d args = expand (target.substitute (m.argumentMap d args)) := by
  rw [unfold, h]

/-- Where no alias is applied, there is nothing to expand. -/
theorem FitsWith.expandWithin_eq (ht : t.Normal) (h : m.FitsWith rank allows 0 t) (n : Nat) :
    m.expandWithin n t = t := by
  cases n with
  | zero => exact Ty.extend_self ht (fun _ _ => rfl) fun _ _ _ => rfl
  | succ n => exact Ty.extend_self ht (fun _ _ => rfl) fun d args hd => unfold_of_none (h.aliasTarget?_eq_none hd)

/-- What is put in for an application is normal if the targets of aliases are. -/
theorem keeps_unfold (hnormal : ∀ d target, m.aliasTarget? d = some target → target.Normal) {expand : Ty → Ty}
    (hexpand : ∀ t, t.Normal → (expand t).Normal) : Ty.Keeps .param (m.unfold expand) := by
  constructor
  · exact .param
  · intro d us hus
    cases htarget : m.aliasTarget? d with
    | none =>
      rw [unfold_of_none htarget]
      exact .applied d hus
    | some target =>
      rw [unfold_of_some htarget]
      exact hexpand _ (normal_fill (hnormal d target htarget) hus)

section

variable (hranked : m.RankedWith rank allows)

include hranked

theorem RankedWith.normal_expandWithin (n : Nat) (t : Ty) : (m.expandWithin n t).Normal := by
  induction n generalizing t with
  | zero => exact Ty.keeps_applied.normal t
  | succ n ih => exact (keeps_unfold hranked.normal fun t _ => ih t).normal t

theorem RankedWith.keeps (n : Nat) : Ty.Keeps .param (m.unfold (m.expandWithin n)) :=
  keeps_unfold hranked.normal fun t _ => hranked.normal_expandWithin n t

/-- **No alias is left**, if there is room for all ranks. -/
theorem RankedWith.fits_expandWithin (n : Nat) (h : m.FitsWith rank allows n t) :
    m.FitsWith rank allows 0 (m.expandWithin n t) := by
  induction n generalizing t with
  | zero => exact h.extend Ty.keeps_applied fun p _ => fits_param
  | succ n ih =>
    refine Ty.Every.extend (hranked.keeps n) t (fun p _ => fits_param) fun d args hd hargs => ?_
    have hadmits := h.admits hd
    have hfits : ∀ u ∈ args.map (m.expandWithin (n + 1)), m.FitsWith rank allows 0 u := List.forall_mem_map.2 hargs
    cases htarget : m.aliasTarget? d with
    | none =>
      rw [unfold_of_none htarget]
      refine Ty.every_applied.2 ⟨⟨?_, fun halias => absurd htarget halias⟩, hfits⟩
      rw [List.length_map]
      exact hadmits.1
    | some target =>
      rw [unfold_of_some htarget]
      have hfill := hranked.fits_fill htarget ((hranked.keeps n).normal_map args) hfits
      have hrank : rank d < n + 1 := hadmits.2 (htarget ▸ Option.some_ne_none target)
      exact ih (hfill.mono (Nat.le_of_lt_succ hrank))

/-- Nor is one left in the arguments. -/
theorem RankedWith.fits_map_expandWithin (h : m.FitsWith rank allows n t) (hd : (Ty.applied d args).Occurs t) :
    ∀ u ∈ args.map (m.expandWithin n), m.FitsWith rank allows 0 u :=
  List.forall_mem_map.2 fun _ hu => hranked.fits_expandWithin n (h.of_occurs (hd.part hu))

end

end Model

end SemCheck
