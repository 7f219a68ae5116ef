import Mathlib.Data.List.Nodup
import SemCheck.Proofs.Node.Subtrees
import SemCheck.Proofs.Repair.Pruning
import SemCheck.Unit

/-!
# A checked unit has no circular supertypes

`checkUnit` goes through the nodes under a root one by one, and the model that it checks a declaration against has been
changed by the checks before. What has been achieved so far is kept (`Progress`): declarations that have been checked
are off every cycle, those that are still to be checked are as they were, and the basic class leads nowhere new. At the
end **no checked declaration leads back to itself** (`checkUnit_acyclic`). That a unit is as this asks (`Describes`) can
be computed from the types that it declares (`Arena.describes_of_typesDeclaredUnder`).
-/

namespace SemCheck

namespace Arena

/-- The declaration whose supertypes are checked at a node. -/
def typeDeclaredAt? (a : Arena) (n : NodeId) : Option DeclId :=
  (a.kind? n).bind fun kind => if kind.isTypeDeclaring then kind.declared? else none

theorem exists_kind_of_typeDeclaredAt? {a : Arena} {n : NodeId} {d : DeclId} (h : a.typeDeclaredAt? n = some d) :
    ∃ kind, a.kind? n = some kind ∧ kind.isTypeDeclaring = true ∧ kind.declared? = some d := by
  obtain ⟨kind, hkind, h⟩ := Option.bind_eq_some_iff.1 h
  split at h
  · next hdeclaring => exact ⟨kind, hkind, hdeclaring, h⟩
  · exact absurd h nofun

/-- The unit under `root` declares types as the model knows them: each at one node at most, whose clauses are what the
model knows of its supertypes, and none that is the basic class or that the basic class leads to. -/
structure Describes (a : Arena) (root : NodeId) (m : Model) : Prop where
  tree : a.IsTreeUnder root
  once : ∀ d decl, m.get? d = some decl → ∀ n ∈ a.postOrder root, ∀ n' ∈ a.postOrder root,
    a.typeDeclaredAt? n = some d → a.typeDeclaredAt? n' = some d → n = n'
  mirrors : ∀ d decl, m.get? d = some decl → ∀ n ∈ a.postOrder root, a.typeDeclaredAt? n = some d →
    ∀ kind, a.kind? n = some kind → a.Mirrors kind decl
  offBasic : ∀ d decl, m.get? d = some decl → ∀ n ∈ a.postOrder root, a.typeDeclaredAt? n = some d →
    ¬ m.RawReach m.basic d

section

variable {a : Arena} {m : Model} {root n : NodeId}

/-- The nodes under `root` that declare a type, each with the type. -/
def typesDeclaredUnder (a : Arena) (root : NodeId) : List (NodeId × DeclId) :=
  (a.postOrder root).filterMap fun n => (a.typeDeclaredAt? n).map fun d => (n, d)

theorem mem_typesDeclaredUnder {d : DeclId} (hn : n ∈ a.postOrder root) (hd : a.typeDeclaredAt? n = some d) :
    (n, d) ∈ a.typesDeclaredUnder root :=
  List.mem_filterMap.2 ⟨n, hn, by rw [hd, Option.map_some]⟩

/-- That a unit describes a model can be computed from the types that it declares, given some declarations, the basic
class among them, whose supertypes lead to no others. -/
theorem describes_of_typesDeclaredUnder (above : List DeclId) (htree : a.IsTreeUnder root)
    (honce : ((a.typesDeclaredUnder root).map (·.2)).Nodup)
    (hmirrors : ∀ p ∈ a.typesDeclaredUnder root, ∀ decl ∈ m.get? p.2, ∀ kind ∈ a.kind? p.1,
      kind.declKind? = some decl.kind ∧ decl.satisfied = a.satisfiedTypesIn kind ∧
        decl.extended = a.extendedTypeIn kind)
    (hbasic : m.basic ∈ above) (habove : ∀ d ∈ above, ∀ e ∈ m.rawSuccessors d, e ∈ above)
    (hoff : ∀ p ∈ a.typesDeclaredUnder root, p.2 ∉ above) : a.Describes root m := by
  constructor
  case tree => exact htree
  case once =>
    intro d _ _ n hn n' hn' hd hd'
    have hsame := List.inj_on_of_nodup_map honce (mem_typesDeclaredUnder hn hd) (mem_typesDeclaredUnder hn' hd') rfl
    exact congrArg Prod.fst hsame
  case mirrors =>
    intro d decl hknown n hn hd kind hkind
    exact mirrors_iff.2 (hmirrors _ (mem_typesDeclaredUnder hn hd) decl hknown kind hkind)
  case offBasic =>
    intro d _ _ n hn hd hreach
    have hclosed (e : DeclId) (hreach : m.RawReach m.basic e) : e ∈ above := by
      induction hreach with
      | refl => exact hbasic
      | @tail x y _ hstep ih => exact habove x ih y hstep
    exact hoff _ (mem_typesDeclaredUnder hn hd) (hclosed d hreach)

end

end Arena

/-- The state of the model `m'` after the nodes `done` have been checked against `m` and before `todo` are. -/
structure Progress (a : Arena) (m : Model) (done todo : List NodeId) (m' : Model) : Prop where
  basic : m'.basic = m.basic
  unknown : ∀ d, m.get? d = none → m'.get? d = none
  rawReach : ∀ e, m'.RawReach m.basic e → m.RawReach m.basic e
  todo : ∀ n ∈ todo, ∀ d, a.typeDeclaredAt? n = some d → m'.get? d = m.get? d
  done : ∀ d decl, m.get? d = some decl → ∀ n ∈ done, a.typeDeclaredAt? n = some d → m'.OffCycles d

variable {a : Arena} {m m' : Model} {root n : NodeId} {done todo : List NodeId} {options : Options} {s : CheckState}

theorem Progress.start (a : Arena) (m : Model) (todo : List NodeId) : Progress a m [] todo m :=
  ⟨rfl, fun _ => id, fun _ => id, fun _ _ _ _ => rfl, fun _ _ _ _ hn => absurd hn List.not_mem_nil⟩

/-- A node at which nothing is changed, as it declares no type that the model knows. -/
theorem Progress.skip (h : Progress a m done (n :: todo) m')
    (hnot : ∀ d decl, m.get? d = some decl → a.typeDeclaredAt? n ≠ some d) : Progress a m (done ++ [n]) todo m' := by
  constructor
  case basic => exact h.basic
  case unknown => exact h.unknown
  case rawReach => exact h.rawReach
  case todo =>
    intro n' hn'
    exact h.todo n' (List.mem_cons_of_mem _ hn')
  case done =>
    intro d decl hknown n' hn' hd
    rcases List.mem_append.1 hn' with hn' | hn'
    · exact h.done d decl hknown n' hn' hd
    · rw [List.mem_singleton] at hn'
      subst hn'
      exact absurd hd (hnot d decl hknown)

/-- A node at which a declaration is checked that no other node declares. -/
theorem Progress.prune {d : DeclId} {decl : Declaration} {m'' : Model} (h : Progress a m done (n :: todo) m')
    (hknown : m.get? d = some decl) (hbasic : ¬ m.RawReach m.basic d) (hd : a.typeDeclaredAt? n = some d)
    (honce : ∀ n' ∈ done ++ todo, a.typeDeclaredAt? n' ≠ some d)
    (hdone : ∀ c decl, m.get? c = some decl → ∀ n' ∈ done, a.typeDeclaredAt? n' = some c → ¬ m.RawReach m.basic c)
    (hprunes : m'.Prunes m'' d) :
    Progress a m (done ++ [n]) todo m'' := by
  have hbasic' {c : DeclId} (hc : ¬ m.RawReach m.basic c) : ¬ m'.RawReach m'.basic c := by
    rw [h.basic]
    exact fun hreach => hc (h.rawReach c hreach)
  constructor
  case basic => exact hprunes.basic.trans h.basic
  case unknown =>
    intro c hc
    have hne : c ≠ d := by
      rintro rfl
      rw [hknown] at hc
      exact absurd hc nofun
    rw [hprunes.others c hne]
    exact h.unknown c hc
  case rawReach =>
    intro e hreach
    refine h.rawReach e ?_
    rw [← h.basic] at hreach ⊢
    exact hprunes.rawReach_basic (hbasic' hbasic) hreach
  case todo =>
    intro n' hn' c hc
    have hne : c ≠ d := by
      rintro rfl
      exact honce n' (List.mem_append_right _ hn') hc
    rw [hprunes.others c hne]
    exact h.todo n' (List.mem_cons_of_mem _ hn') c hc
  case done =>
    intro c decl' hknown' n' hn' hc
    rcases List.mem_append.1 hn' with hn' | hn'
    · have hne : c ≠ d := by
        rintro rfl
        exact honce n' (List.mem_append_left _ hn') hc
      have hoff := h.done c decl' hknown' n' hn' hc
      exact hprunes.offCycles_of_ne (hbasic' hbasic) hne (hbasic' (hdone c decl' hknown' n' hn' hc)) hoff
    · rw [List.mem_singleton] at hn'
      subst hn'
      obtain rfl : d = c := Option.some.inj (hd.symm.trans hc)
      exact hprunes.offCycles (hbasic' hbasic)

theorem checkSupertypes_of_typeDeclaredAt?_eq_none (h : a.typeDeclaredAt? n = none) :
    checkSupertypes a options m (some n) = .ok { model := m } := by
  rw [Arena.typeDeclaredAt?] at h
  simp only [checkSupertypes, Option.bind_eq_bind, Option.bind_some]
  cases hkind : a.kind? n with
  | none => rfl
  | some kind =>
    rw [hkind, Option.bind_some] at h
    simp only [h]

/-- A unit that is checked without an error has been gone through to the end. -/
theorem checkUnit_supertypes {reports : List Diagnostic} (hoption : options.checkDecidability = true)
    (hok : (checkUnit a m options (some root)).outcome = .ok reports) :
    ∃ first, UnitCheck.supertypes a options (a.postOrder root) { model := m } =
      ((checkUnit a m options (some root)).model, .ok first) := by
  simp only [checkUnit, Option.map_some, Option.getD_some, hoption, if_true] at hok ⊢
  rcases hrun : UnitCheck.supertypes a options (a.postOrder root) { model := m } with ⟨m', e | first⟩
  · rw [hrun] at hok
    exact absurd hok nofun
  · refine ⟨first, ?_⟩
    split <;> rfl

/-- **What one node adds**: a check that succeeds takes the unit one node further. -/
theorem Progress.step (hdescribes : a.Describes root m) (horder : done ++ n :: todo = a.postOrder root)
    (h : Progress a m done (n :: todo) m') (hcheck : checkSupertypes a options m' (some n) = .ok s) :
    Progress a m (done ++ [n]) todo s.model := by
  have hmem : n ∈ a.postOrder root := horder ▸ List.mem_append_right _ List.mem_cons_self
  have hother {n' : NodeId} (hn' : n' ∈ done ++ todo) : n' ∈ a.postOrder root ∧ n' ≠ n := by
    have htree := hdescribes.tree
    rw [Arena.IsTreeUnder, ← horder, List.nodup_append, List.nodup_cons] at htree
    obtain ⟨-, ⟨hnot, -⟩, hne⟩ := htree
    rw [← horder]
    rcases List.mem_append.1 hn' with hn' | hn'
    · exact ⟨List.mem_append_left _ hn', hne n' hn' n List.mem_cons_self⟩
    · exact ⟨List.mem_append_right _ (List.mem_cons_of_mem _ hn'), fun heq => hnot (heq ▸ hn')⟩
  cases hd : a.typeDeclaredAt? n with
  | none =>
    obtain rfl := Except.ok.inj ((checkSupertypes_of_typeDeclaredAt?_eq_none hd).symm.trans hcheck)
    exact h.skip fun d decl _ hsome => absurd (hd.symm.trans hsome) (Option.some_ne_none d).symm
  | some d =>
    obtain ⟨kind, hkind, hdeclaring, hdeclared⟩ := Arena.exists_kind_of_typeDeclaredAt? hd
    have hsame := h.todo n List.mem_cons_self d hd
    cases hknown : m.get? d with
    | none =>
      have hspares := checkSupertypes_spares options hkind hdeclaring hdeclared (hsame.trans hknown)
      rw [hcheck] at hspares
      rw [hspares.model_eq]
      apply h.skip
      intro c decl hc hsome
      obtain rfl : d = c := Option.some.inj (hd.symm.trans hsome)
      exact absurd (hknown.symm.trans hc) (Option.some_ne_none decl).symm
    | some decl =>
      have hmirrors := hdescribes.mirrors d decl hknown n hmem hd kind hkind
      have hprunes := checkSupertypes_prunes hkind hdeclaring hdeclared (hsame.trans hknown) hmirrors hcheck
      refine h.prune hknown (hdescribes.offBasic d decl hknown n hmem hd) hd (fun n' hn' hsome => ?_) ?_ hprunes
      · obtain ⟨hmem', hne⟩ := hother hn'
        exact hne (hdescribes.once d decl hknown n' hmem' n hmem hsome hd)
      · intro c decl' hc n' hn' hsome
        exact hdescribes.offBasic c decl' hc n' (hother (List.mem_append_left _ hn')).1 hsome

/-- **What a whole run keeps**. -/
theorem Progress.run (hdescribes : a.Describes root m) {first : List NodeDiagnostic}
    (horder : done ++ todo = a.postOrder root) (h : Progress a m done todo s.model)
    (hrun : UnitCheck.supertypes a options todo s = (m', .ok first)) : Progress a m (a.postOrder root) [] m' := by
  induction todo generalizing done s with
  | nil =>
    rw [List.append_nil] at horder
    obtain rfl : s.model = m' := congrArg Prod.fst hrun
    exact horder ▸ h
  | cons n todo ih =>
    rw [UnitCheck.supertypes] at hrun
    split at hrun
    · next t hcheck =>
      have horder' : (done ++ [n]) ++ todo = a.postOrder root := by
        rw [List.append_assoc]
        exact horder
      have hstep : Progress a m (done ++ [n]) todo t.model := h.step hdescribes horder hcheck
      exact ih horder' (s := ⟨t.model, s.diagnostics ++ t.diagnostics⟩) hstep hrun
    · exact absurd (congrArg Prod.snd hrun) nofun

/-- **No checked declaration leads back to itself**: after a check of a unit without an error, no head of a supertype of
a declaration that the unit declares leads to that declaration, whatever cycles there were before. -/
theorem checkUnit_acyclic (a : Arena) (m : Model) (options : Options) (root : NodeId) (reports : List Diagnostic)
    (hdescribes : a.Describes root m) (hoption : options.checkDecidability = true)
    (hok : (checkUnit a m options (some root)).outcome = .ok reports) :
    ∀ n ∈ a.postOrder root, ∀ d, a.typeDeclaredAt? n = some d →
      ∀ t ∈ (checkUnit a m options (some root)).model.supertypesOf d, ∀ e ∈ t.heads,
        ¬ (checkUnit a m options (some root)).model.RawReach e d := by
  obtain ⟨first, hrun⟩ : ∃ first, UnitCheck.supertypes a options (a.postOrder root) { model := m } =
      ((checkUnit a m options (some root)).model, .ok first) := checkUnit_supertypes hoption hok
  have hprogress := (Progress.start a m (a.postOrder root)).run (s := { model := m }) hdescribes rfl hrun
  intro n hn d hd t ht e he
  cases hknown : m.get? d with
  | none =>
    rw [Model.supertypesOf, hprogress.unknown d hknown] at ht
    exact absurd ht List.not_mem_nil
  | some decl => exact hprogress.done d decl hknown n hn hd e (Model.mem_rawSuccessors_iff.2 ⟨t, ht, he⟩)

/-! ## A unit with cycles -/

/-- `class A extends B satisfies I`, `class B extends A` and `interface I satisfies A`. -/
def knotted : Model :=
  let declaration (name : String) (kind : DeclKind) (extended : Option Ty) (satisfied : List Ty) : Declaration :=
    { name, kind, package := ⟨0⟩, extended, satisfied }
  let m := ((Model.new "lang").add (declaration "A" .classDecl (some (.applied ⟨3⟩ [])) [.applied ⟨4⟩ []])).2
  let m := (m.add (declaration "B" .classDecl (some (.applied ⟨2⟩ [])) [])).2
  (m.add (declaration "I" .interfaceDecl none [.applied ⟨2⟩ []])).2

/-- A block with the declarations of `knotted`, in their order. -/
def knottedUnit : Arena :=
  let (satisfies, a) := Arena.addSatisfiedTypes { fileName := "knot" } [.applied ⟨4⟩ []]
  let (extending, a) := a.addExtendedType (.applied ⟨3⟩ []) []
  let (first, a) := a.add (.classDecl ⟨2⟩ [] extending satisfies none)
  let (extending, a) := a.addExtendedType (.applied ⟨2⟩ []) []
  let (second, a) := a.add (.classDecl ⟨3⟩ [] extending none none)
  let (satisfies, a) := a.addSatisfiedTypes [.applied ⟨2⟩ []]
  let (third, a) := a.add (.interfaceDecl ⟨4⟩ satisfies none)
  (a.add (.block [first, second, third])).2

/-- Both supertypes of `A` lead back to it. It is the first to be checked, so it loses both and extends the basic class,
and `B` and `I` keep theirs. No declaration leads back to itself then. -/
theorem checkUnit_acyclic_knotted :
    (∀ e ∈ [(⟨3⟩ : DeclId), ⟨4⟩], knotted.RawReach ⟨2⟩ e ∧ knotted.RawReach e ⟨2⟩) ∧
      ∃ m', m' = (checkUnit knottedUnit knotted {} (some ⟨11⟩)).model ∧
        m'.supertypesOf ⟨2⟩ = [m'.basicType] ∧ m'.supertypesOf ⟨3⟩ = [.applied ⟨2⟩ []] ∧
          m'.supertypesOf ⟨4⟩ = [.applied ⟨2⟩ []] ∧
        ∀ d ∈ [(⟨2⟩ : DeclId), ⟨3⟩, ⟨4⟩], ∀ t ∈ m'.supertypesOf d, ∀ e ∈ t.heads, ¬ m'.RawReach e d := by
  have htree : knottedUnit.IsTreeUnder ⟨11⟩ := by
    rw [Arena.IsTreeUnder]
    decide +kernel
  have hdescribes : knottedUnit.Describes ⟨11⟩ knotted := by
    refine Arena.describes_of_typesDeclaredUnder [⟨0⟩, ⟨1⟩] htree ?_ ?_ ?_ ?_ ?_ <;> decide +kernel
  obtain ⟨reports, hok⟩ : ∃ reports, (checkUnit knottedUnit knotted {} (some ⟨11⟩)).outcome = .ok reports := by
    have hchecked : (checkUnit knottedUnit knotted {} (some ⟨11⟩)).outcome.isOk = true := by decide +kernel
    cases houtcome : (checkUnit knottedUnit knotted {} (some ⟨11⟩)).outcome with
    | error e =>
      rw [houtcome] at hchecked
      cases hchecked
    | ok reports => exact ⟨reports, rfl⟩
  have hacyclic := checkUnit_acyclic knottedUnit knotted {} ⟨11⟩ reports hdescribes rfl hok
  refine ⟨?_, _, rfl, ?_, ?_, ?_, ?_⟩
  · intro e he
    have hsteps : e ∈ knotted.rawSuccessors ⟨2⟩ ∧ ⟨2⟩ ∈ knotted.rawSuccessors e := by
      revert e
      decide +kernel
    exact ⟨.single hsteps.1, .single hsteps.2⟩
  · decide +kernel
  · decide +kernel
  · decide +kernel
  · intro d hd
    have hdeclared : ∃ n ∈ knottedUnit.postOrder ⟨11⟩, knottedUnit.typeDeclaredAt? n = some d := by
      revert d
      decide +kernel
    obtain ⟨n, hn, hd⟩ := hdeclared
    exact hacyclic n hn d hd

end SemCheck
