import SemCheck.Proofs.Alias.Assembled

/-!
# Aliases and instantiation

Types may be put in for parameters before aliases are expanded or after (`resolve_substitute`).

The argument is by induction on the room for expansions inside one another (`Ranked.expandWithin_extend`): what the
expansion of an alias puts in for the alias's own parameters, and what is put in for the parameters of the whole type,
are put in one after the other, in either order, as the target has no parameters but the alias's own
(`Ranked.fill_extend`).
-/

namespace SemCheck

/-! ## Putting in images -/

namespace Substitution

variable (f : Ty → Ty) (s : Substitution) (p : DeclId)

theorem get?_map : get? (s.map (Prod.map id f)) p = (get? s p).map f := by
  induction s with
  | nil => rfl
  | cons entry rest ih =>
    rw [List.map_cons, get?, get?, ih]
    cases get? rest p with
    | some u => rfl
    | none => by_cases h : entry.1 = p <;> simp [h]

/-- Images are put in for parameters, if what is not replaced is its own image. -/
theorem replacement_map (h : s.get? p = none → f (.param p) = .param p) :
    Ty.replacement (s.map (Prod.map id f)) p = f (Ty.replacement s p) := by
  rw [Ty.replacement, Ty.replacement, get?_map]
  cases hget : s.get? p with
  | some u => rfl
  | none => exact (h hget).symm

theorem get?_zip_ne_none {ps : List DeclId} {args : List Ty} {p : DeclId} (hp : p ∈ ps)
    (hlength : ps.length ≤ args.length) : get? (ps.zip args) p ≠ none := by
  induction ps generalizing args with
  | nil => exact absurd hp List.not_mem_nil
  | cons q ps ih =>
    obtain ⟨u, us, rfl⟩ := List.exists_cons_of_length_pos (Nat.lt_of_lt_of_le (Nat.succ_pos _) hlength)
    rw [List.zip_cons_cons, get?, Ne, Option.or_eq_none_iff]
    rintro ⟨hrest, hhead⟩
    rcases List.mem_cons.1 hp with rfl | hp
    · rw [if_pos rfl] at hhead
      exact absurd hhead (Option.some_ne_none u)
    · exact ih hp (Nat.le_of_succ_le_succ hlength) hrest

end Substitution

namespace Model

section

variable {m : Model} {rank : DeclId → Nat} {n : Nat} {d : DeclId} {args : List Ty} {target : Ty} {leaf : DeclId → Ty}

theorem argumentMap_map (m : Model) (d : DeclId) (f : Ty → Ty) (args : List Ty) :
    m.argumentMap d (args.map f) = (m.argumentMap d args).map (Prod.map id f) := List.zip_map_right

/-! ## One expansion -/

/-- What is put into a target with its arguments filled in is put into the arguments. -/
theorem Ranked.fill_extend (hranked : m.Ranked rank) (htarget : m.aliasTarget? d = some target)
    (hargs : ∀ u ∈ args, u.Normal) (hlength : args.length = (m.typeParametersOf d).length)
    (hkeeps : Ty.Keeps leaf .applied) :
    (target.substitute (m.argumentMap d args)).extend leaf .applied =
      target.substitute (m.argumentMap d (args.map (Ty.extend leaf .applied))) := by
  have hnormal := hranked.normal d target htarget
  rw [hnormal.substitute_eq, hnormal.substitute_eq, Ty.replaceParams_eq, Ty.replaceParams_eq,
    Ty.extend_extend (m.keeps_argumentMap d hargs) hkeeps, argumentMap_map]
  refine Ty.extend_congr fun p hp => ?_
  have hown := Substitution.get?_zip_ne_none (hranked.closed d target htarget p hp) (Nat.le_of_eq hlength.symm)
  exact (Substitution.replacement_map _ _ p fun hnone => absurd hnone hown).symm

theorem Ranked.unfold_extend (hranked : m.Ranked rank) (hkeeps : Ty.Keeps leaf .applied)
    (hexpand : ∀ t, m.Fits rank n t → m.expandWithin n (t.extend leaf .applied) = (m.expandWithin n t).extend leaf .applied)
    (hrank : m.aliasTarget? d ≠ none → rank d ≤ n) (hlength : args.length = (m.typeParametersOf d).length)
    (hargs : ∀ u ∈ args, u.Normal) (hfits : ∀ u ∈ args, m.Fits rank 0 u) :
    m.unfold (m.expandWithin n) d (args.map (Ty.extend leaf .applied)) =
      (m.unfold (m.expandWithin n) d args).extend leaf .applied := by
  cases htarget : m.aliasTarget? d with
  | none => rw [unfold_of_none htarget, unfold_of_none htarget, Ty.extend_applied]
  | some target =>
    have hfill := hranked.fits_fill htarget hargs hfits
    rw [unfold_of_some htarget, unfold_of_some htarget, ← hranked.fill_extend htarget hargs hlength hkeeps]
    exact hexpand _ (hfill.mono (hrank (htarget ▸ Option.some_ne_none target)))

/-! ## All expansions -/

theorem Ranked.keeps_map (hranked : m.Ranked rank) (n : Nat) (leaf : DeclId → Ty) :
    Ty.Keeps (fun p => m.expandWithin n (leaf p)) .applied :=
  ⟨fun _ => hranked.normal_expandWithin n _, fun d _ => .applied d⟩

/-- **Putting in and expanding**: an expansion of a type with types put in for its parameters is the expansion of the
type with the expansions put in. -/
theorem Ranked.expandWithin_extend (hranked : m.Ranked rank) (hkeeps : Ty.Keeps leaf .applied)
    (hleaf : ∀ p, m.Fits rank n (leaf p)) {t : Ty} (h : m.Fits rank n t) :
    m.expandWithin n (t.extend leaf .applied) =
      (m.expandWithin n t).extend (fun p => m.expandWithin n (leaf p)) .applied := by
  induction n generalizing leaf t with
  | zero => exact Ty.extend_comm hkeeps Ty.keeps_applied (hranked.keeps_map 0 leaf) (fun _ => rfl) fun _ _ _ =>
      (Ty.extend_applied _ _).symm
  | succ n ih =>
    have hkeeps' := hranked.keeps_map (n + 1) leaf
    -- what is put in after an expansion has no aliases in it, so that it may be put in before an inner one as well
    have hplain (p : DeclId) : m.Fits rank 0 (m.expandWithin (n + 1) (leaf p)) := hranked.fits_expandWithin _ (hleaf p)
    refine Ty.extend_comm hkeeps (hranked.keeps n) hkeeps' (fun _ => rfl) fun d args hd => ?_
    have hadmits := h.admits hd
    refine hranked.unfold_extend hkeeps' (fun t ht => ?_) (fun halias => Nat.le_of_lt_succ (hadmits.2 halias))
      ((List.length_map _).trans hadmits.1) ((hranked.keeps n).normal_map args) (hranked.fits_map_expandWithin h hd)
    rw [ih hkeeps' (fun p => (hplain p).mono (Nat.zero_le n)) ht]
    exact Ty.extend_congr fun p _ => (hplain p).expandWithin_eq (hkeeps'.leaf p) n

end

/-! ## Instantiation -/

/-- Every declaration is applied to as many types as it has parameters. -/
def Saturated (m : Model) (t : Ty) : Prop :=
  ∀ d args, (Ty.applied d args).Occurs t → args.length = (m.typeParametersOf d).length

/-- Aliases with targets that have been made and that mention the alias's own parameters only, of which no more follow
on one another, each in the target of the one before, than may be expanded inside one another. In particular, none comes
up in its own expansion. -/
structure SoundAliases (m : Model) : Prop where
  built : ∀ d target, m.aliasTarget? d = some target → target.Built
  saturated : ∀ d target, m.aliasTarget? d = some target → m.Saturated target
  closed : ∀ d target, m.aliasTarget? d = some target → ∀ p, (Ty.param p).Occurs target → p ∈ m.typeParametersOf d
  chains : ∀ chain : List DeclId, chain.IsChain m.AliasDependsOn → chain.length ≤ Limits.aliasResolutionDepth

/-- The expansion of the type makes no more attempts to enter an alias than the guard allows. -/
def Affords (m : Model) (t : Ty) : Prop := (m.resolveAliasesGuarded t).2.iterations ≤ Limits.walkIterations

variable {m : Model} {rank : DeclId → Nat} {t : Ty}

/-- The aliases have ranks, and there is room to expand all of them inside one another. -/
theorem SoundAliases.exists_ranked (h : m.SoundAliases) :
    ∃ rank, m.Ranked rank ∧ ∀ t, m.Saturated t → m.Fits rank Limits.aliasResolutionDepth t := by
  obtain ⟨rank, hbound, hranked⟩ :=
    exists_rankedWith m.Takes (fun d target htarget => (h.built d target htarget).normal) h.saturated h.chains
  exact ⟨rank, ⟨hranked, h.closed⟩, fun t ht => fitsWith_of ht fun d _ _ _ => hbound d⟩

/-- What is afforded ends within the limits of the guard. -/
theorem Affords.ready (h : m.Affords t) :
    Ready rank Limits.aliasResolutionDepth Limits.aliasResolutionDepth (m.resolveAliasesGuarded t).2 := by
  have hkept := (scoped_resolveWithin m Limits.aliasResolutionDepth t (.ofProfile .aliasResolution)).kept
  unfold resolveAliasesGuarded
  constructor
  · rw [hkept.visiting]
    exact fun d hd => absurd hd List.not_mem_nil
  · rw [hkept.depth, hkept.maxDepth]
    exact Nat.le_of_eq (Nat.zero_add _)
  · rw [hkept.visiting]
    decide
  · rw [hkept.maxIterations]
    exact h
  · rw [hkept.maxIterations]
    decide

/-- Within its limits, a resolution is an expansion. -/
theorem RankedWith.resolve_fst {allows : DeclId → Nat → Prop} (hranked : m.RankedWith rank allows)
    (h : m.FitsWith rank allows Limits.aliasResolutionDepth t) (hcount : m.Affords t) :
    (m.resolve t).1 = m.expandWithin Limits.aliasResolutionDepth t := by
  rw [Model.resolve_fst]
  exact hranked.resolveWithin_fst (Nat.le_refl _) h hcount.ready

theorem resolve_param (m : Model) (p : DeclId) : (m.resolve (.param p)).1 = .param p := resolve_fst m _

theorem substitute_fst_of_ne_nil (m : Model) {s : Substitution} (hs : s ≠ []) (t : Ty) :
    (m.substitute s t).1 = t.extend (Ty.replacement s) .applied := by
  rw [substitute_fst, Ty.substitute, if_neg (mt List.isEmpty_iff.1 hs), Ty.replaceParams_eq]

/-- What is put in for a parameter after an expansion. -/
theorem Ranked.replacement_resolve {s : Substitution} (hranked : m.Ranked rank)
    (hs : ∀ p u, s.get? p = some u → m.Fits rank Limits.aliasResolutionDepth u ∧ m.Affords u) (p : DeclId) :
    Ty.replacement (s.map (Prod.map id fun u => (m.resolve u).1)) p =
      m.expandWithin Limits.aliasResolutionDepth (Ty.replacement s p) := by
  rw [Substitution.replacement_map (fun u => (m.resolve u).1) s p fun _ => m.resolve_param p]
  exact Ty.replacement_of (P := fun u => (m.resolve u).1 = m.expandWithin Limits.aliasResolutionDepth u)
    (fun u hget => hranked.resolve_fst (hs p u hget).1 (hs p u hget).2) (m.resolve_param p)

/-- **Aliases may be expanded before types are put in for parameters or after**. -/
theorem resolve_substitute (m : Model) (s : Substitution) (t : Ty) (hm : m.SoundAliases) (ht : m.Saturated t)
    (hbuilt : ∀ p u, s.get? p = some u → u.Built) (hs : ∀ p u, s.get? p = some u → m.Saturated u)
    (hbefore : m.Affords t) (hput : ∀ p u, s.get? p = some u → m.Affords u) (hafter : m.Affords (m.substitute s t).1) :
    (m.resolve (m.substitute s t).1).1 =
      (m.substitute (s.map (Prod.map id fun u => (m.resolve u).1)) (m.resolve t).1).1 := by
  obtain ⟨rank, hranked, hfits⟩ := hm.exists_ranked
  have hkeeps := Ty.keeps_replacement fun p u hget => (hbuilt p u hget).normal
  have hleaf (p : DeclId) : m.Fits rank Limits.aliasResolutionDepth (Ty.replacement s p) :=
    Ty.replacement_of (fun u hget => hfits u (hs p u hget)) fits_param
  by_cases hempty : s = []
  · rw [hempty]
    rfl
  have himages : s.map (Prod.map id fun u => (m.resolve u).1) ≠ [] := mt List.map_eq_nil_iff.1 hempty
  rw [m.substitute_fst_of_ne_nil hempty] at hafter ⊢
  rw [m.substitute_fst_of_ne_nil himages]
  calc (m.resolve (t.extend (Ty.replacement s) .applied)).1
    _ = m.expandWithin Limits.aliasResolutionDepth (t.extend (Ty.replacement s) .applied) :=
      hranked.resolve_fst ((hfits t ht).extend hkeeps fun p _ => hleaf p) hafter
    _ = (m.expandWithin Limits.aliasResolutionDepth t).extend
        (fun p => m.expandWithin Limits.aliasResolutionDepth (Ty.replacement s p)) .applied :=
      hranked.expandWithin_extend hkeeps hleaf (hfits t ht)
    _ = (m.resolve t).1.extend (Ty.replacement (s.map (Prod.map id fun u => (m.resolve u).1))) .applied := by
      rw [hranked.resolve_fst (hfits t ht) hbefore]
      exact Ty.extend_congr fun p _ =>
        (hranked.replacement_resolve (fun q u hget => ⟨hfits u (hs q u hget), hput q u hget⟩) p).symm

/-! ### An alias in the target of another -/

/-- The model with `class Box<X>`, `alias Maybe<X> => X|Box<X>`, `alias Twice<X> => Maybe<Maybe<X>>` and a parameter `T`,
of the numbers 2, 4, 6 and 8. -/
def nested : Model :=
  let parameter : Declaration := { name := "X", kind := .typeParameter, package := ⟨0⟩ }
  let box : Declaration := { name := "Box", kind := .classDecl, package := ⟨0⟩, typeParameters := [⟨3⟩] }
  let maybe : Declaration :=
    { name := "Maybe", kind := .typeAlias, package := ⟨0⟩, typeParameters := [⟨5⟩]
      aliasTarget := some (.unite [.param ⟨5⟩, .applied ⟨2⟩ [.param ⟨5⟩]]) }
  let twice : Declaration :=
    { name := "Twice", kind := .typeAlias, package := ⟨0⟩, typeParameters := [⟨7⟩]
      aliasTarget := some (.applied ⟨4⟩ [.applied ⟨4⟩ [.param ⟨7⟩]]) }
  [box, parameter, maybe, parameter, twice, parameter, { parameter with name := "T" }].foldl
    (fun m decl => (m.add decl).2) (.new "lang")

theorem aliasTarget?_nested {d : DeclId} {target : Ty} (h : nested.aliasTarget? d = some target) :
    d = ⟨4⟩ ∧ target = .union [.param ⟨5⟩, .applied ⟨2⟩ [.param ⟨5⟩]] ∨
      d = ⟨6⟩ ∧ target = .applied ⟨4⟩ [.applied ⟨4⟩ [.param ⟨7⟩]] := by
  obtain ⟨i⟩ := d
  match i with
  | 0 | 1 | 2 | 3 | 5 | 7 | 8 => exact absurd h nofun
  | 4 => exact Or.inl ⟨rfl, (Option.some.inj h).symm⟩
  | 6 => exact Or.inr ⟨rfl, (Option.some.inj h).symm⟩
  | i + 9 => exact absurd h nofun

theorem soundAliases_nested : nested.SoundAliases := by
  have hdepends {d e : DeclId} (h : nested.AliasDependsOn d e) : d = ⟨6⟩ ∧ e = ⟨4⟩ := by
    obtain ⟨halias, target, args, htarget, he⟩ := h
    rcases aliasTarget?_nested htarget with ⟨rfl, rfl⟩ | ⟨rfl, rfl⟩
    · obtain ⟨rfl, -⟩ : e = ⟨2⟩ ∧ args = [.param ⟨5⟩] := by simpa using he
      exact absurd rfl halias
    · have he : e = ⟨4⟩ ∧ args = [.applied ⟨4⟩ [.param ⟨7⟩]] ∨ e = ⟨4⟩ ∧ args = [.param ⟨7⟩] := by simpa using he
      exact ⟨rfl, he.elim And.left And.left⟩
  constructor
  case built =>
    intro d target htarget
    rcases aliasTarget?_nested htarget with ⟨rfl, rfl⟩ | ⟨rfl, rfl⟩
    · have hparam : (Ty.param ⟨5⟩).Built := .paramType (show nested.paramType ⟨5⟩ = .ok _ from rfl)
      have hbox : (Ty.applied ⟨2⟩ [.param ⟨5⟩]).Built :=
        .apply (List.forall_mem_singleton.2 hparam) (show nested.apply ⟨2⟩ _ = .ok _ from rfl)
      show (Ty.unite [.param ⟨5⟩, .applied ⟨2⟩ [.param ⟨5⟩]]).Built
      exact .unite (List.forall_mem_cons.2 ⟨hparam, List.forall_mem_singleton.2 hbox⟩)
    · have hparam : (Ty.param ⟨7⟩).Built := .paramType (show nested.paramType ⟨7⟩ = .ok _ from rfl)
      have hmaybe : (Ty.applied ⟨4⟩ [.param ⟨7⟩]).Built :=
        .apply (List.forall_mem_singleton.2 hparam) (show nested.apply ⟨4⟩ _ = .ok _ from rfl)
      exact .apply (List.forall_mem_singleton.2 hmaybe) (show nested.apply ⟨4⟩ _ = .ok _ from rfl)
  case saturated =>
    intro d target htarget e args he
    rcases aliasTarget?_nested htarget with ⟨rfl, rfl⟩ | ⟨rfl, rfl⟩
    · obtain ⟨rfl, rfl⟩ : e = ⟨2⟩ ∧ args = [.param ⟨5⟩] := by simpa using he
      rfl
    · have he : e = ⟨4⟩ ∧ args = [.applied ⟨4⟩ [.param ⟨7⟩]] ∨ e = ⟨4⟩ ∧ args = [.param ⟨7⟩] := by simpa using he
      rcases he with ⟨rfl, rfl⟩ | ⟨rfl, rfl⟩ <;> rfl
  case closed =>
    intro d target htarget p hp
    rcases aliasTarget?_nested htarget with ⟨rfl, rfl⟩ | ⟨rfl, rfl⟩
    · obtain rfl : p = ⟨5⟩ := by simpa using hp
      exact List.mem_singleton_self _
    · obtain rfl : p = ⟨7⟩ := by simpa using hp
      exact List.mem_singleton_self _
  case chains =>
    intro chain hchain
    match chain, hchain with
    | [], _ => exact Nat.zero_le _
    | [_], _ | [_, _], _ => exact Nat.le_of_ble_eq_true rfl
    | _ :: _ :: _ :: _, .cons_cons hfirst (.cons_cons hsecond _) =>
      exact absurd ((hdepends hfirst).2.symm.trans (hdepends hsecond).1) (by decide)

/-- `Maybe<Anything>` is put in for `T` in `Twice<T>`. -/
theorem resolve_substitute_nested :
    (nested.resolve (nested.substitute [(⟨8⟩, .applied ⟨4⟩ [.applied ⟨0⟩ []])] (.applied ⟨6⟩ [.param ⟨8⟩])).1).1 =
      (nested.substitute [(⟨8⟩, (nested.resolve (.applied ⟨4⟩ [.applied ⟨0⟩ []])).1)]
        (nested.resolve (.applied ⟨6⟩ [.param ⟨8⟩])).1).1 := by
  have hget {P : Ty → Prop} (h : P (.applied ⟨4⟩ [.applied ⟨0⟩ []])) (p : DeclId) (u : Ty)
      (hu : Substitution.get? [(⟨8⟩, .applied ⟨4⟩ [.applied ⟨0⟩ []])] p = some u) : P u :=
    (Prod.mk.inj (List.mem_singleton.1 (Substitution.mem_of_get? hu))).2 ▸ h
  have hmaybe : (Ty.applied ⟨4⟩ [.applied ⟨0⟩ []]).Built :=
    .apply (List.forall_mem_singleton.2 (.typeOf nested ⟨0⟩)) (show nested.apply ⟨4⟩ _ = .ok _ from rfl)
  refine resolve_substitute nested [(⟨8⟩, .applied ⟨4⟩ [.applied ⟨0⟩ []])] (.applied ⟨6⟩ [.param ⟨8⟩]) soundAliases_nested
    ?_ (hget hmaybe) (hget ?_) ?_ (hget ?_) ?_
  · intro d args hd
    obtain ⟨rfl, rfl⟩ : d = ⟨6⟩ ∧ args = [.param ⟨8⟩] := by simpa using hd
    rfl
  · intro d args hd
    have hd : d = ⟨4⟩ ∧ args = [.applied ⟨0⟩ []] ∨ d = ⟨0⟩ ∧ args = [] := by simpa using hd
    rcases hd with ⟨rfl, rfl⟩ | ⟨rfl, rfl⟩ <;> rfl
  all_goals
    unfold Affords
    decide +kernel

end Model

end SemCheck
