import SemCheck.Proofs.Node.Enclosing

/-!
# Arenas after any creations

A node is created with the parts that it is given; some builders create nodes of their own first, that of a specifier
the reference, those of type clauses the types. If each part given is a node that exists then, every node comes after its
parts (`Built.createAll`), and what the arena keeps beside its nodes can be read off the list of nodes. Nodes may be
given as parts more than once. Main statement: `createAll_consistent`.
-/

namespace SemCheck.Arena

variable {a : Arena} {kind : NodeKind NodeId} {n c p : NodeId} {d : DeclId}

/-! ## Creations -/

/-- What is done to an arena when nodes are put into it. -/
inductive Creation
  /-- A node as it is; most builders do this with the dummy span. -/
  | node (kind : NodeKind NodeId) (span : Span)
  | specifier (d : DeclId) (value : Option NodeId)
  | aliasDecl (d : DeclId) (t : Ty)
  | extendedType (t : Ty) (arguments : List (Option NodeId))
  | satisfiedTypes (ts : List Ty)
  | setSpan (n : NodeId) (span : Span)

/-- The parts that are given. -/
def Creation.parts : Creation → List NodeId
  | node kind _ => kind.children
  | specifier _ value => value.toList
  | extendedType _ arguments => arguments.filterMap id
  | aliasDecl .. | satisfiedTypes _ | setSpan .. => []

def create (a : Arena) : Creation → Arena
  | .node kind span => (a.addNode kind span).2
  | .specifier d value => (a.addSpecifier d value).2
  | .aliasDecl d t => (a.addAliasDecl d t).2
  | .extendedType t arguments => (a.addExtendedType t arguments).2
  | .satisfiedTypes ts => (a.addSatisfiedTypes ts).2
  | .setSpan n span => a.setSpan n span

def createAll (a : Arena) (creations : List Creation) : Arena := creations.foldl create a

/-- Each part that is given exists when it is given. -/
def Given : Arena → List Creation → Prop
  | _, [] => True
  | a, creation :: rest => (∀ c ∈ creation.parts, c.index < a.nodes.size) ∧ Given (a.create creation) rest

instance decidableGiven : (a : Arena) → (creations : List Creation) → Decidable (a.Given creations)
  | _, [] => inferInstanceAs (Decidable True)
  | a, creation :: rest =>
    have := decidableGiven (a.create creation) rest
    inferInstanceAs (Decidable (_ ∧ _))

/-! ## Parts come first -/

/-- A node over one that is created for it. -/
theorem Built.addOver (h : a.Built) (leaf : NodeKind NodeId) (hleaf : leaf.children = [])
    (hkind : ∀ c ∈ kind.children, c.index ≤ a.nodes.size) : ((a.add leaf).2.add kind).2.Built := by
  have hadded : (a.add leaf).2.Built := h.addNode .dummy fun c hc => absurd (hleaf ▸ hc) List.not_mem_nil
  refine hadded.addNode .dummy fun c hc => ?_
  rw [add, size_addNode]
  exact Nat.lt_succ_of_le (hkind c hc)

theorem Built.addStaticTypes (h : a.Built) (ts : List Ty) :
    (a.addStaticTypes ts).2.Built ∧ a.nodes.size ≤ (a.addStaticTypes ts).2.nodes.size ∧
      ∀ n ∈ (a.addStaticTypes ts).1, n.index < (a.addStaticTypes ts).2.nodes.size := by
  induction ts generalizing a with
  | nil => exact ⟨h, Nat.le_refl _, fun n hn => absurd hn List.not_mem_nil⟩
  | cons t ts ih =>
    have hadded : (a.addStaticType t).2.Built := h.addNode .dummy fun c hc => absurd hc List.not_mem_nil
    have hsize : (a.addStaticType t).2.nodes.size = a.nodes.size + 1 := size_addNode a (.staticType t) .dummy
    obtain ⟨hbuilt, hle, hmem⟩ := ih hadded
    rw [hsize] at hle
    refine ⟨hbuilt, Nat.le_of_succ_le hle, fun n hn => ?_⟩
    rcases List.mem_cons.1 hn with rfl | hn
    · exact hle
    · exact hmem n hn

theorem Built.create (h : a.Built) (creation : Creation) (hparts : ∀ c ∈ creation.parts, c.index < a.nodes.size) :
    (a.create creation).Built := by
  cases creation with
  | node kind span => exact h.addNode span hparts
  | specifier d value =>
    refine h.addOver (.reference d .unqualified) rfl fun c hc => ?_
    rcases List.mem_cons.1 (NodeKind.mem_children_iff.1 hc) with htarget | hvalue
    · exact Nat.le_of_eq (congrArg NodeId.index (Option.some.inj htarget))
    · have hvalue : value = some c := (List.mem_singleton.1 hvalue).symm
      exact Nat.le_of_lt (hparts c (Option.mem_toList.2 hvalue))
  | aliasDecl d t =>
    refine h.addOver (.staticType t) rfl fun c hc => ?_
    have htarget := List.mem_singleton.1 (NodeKind.mem_children_iff.1 hc)
    exact Nat.le_of_eq (congrArg NodeId.index (Option.some.inj htarget))
  | extendedType t arguments =>
    refine h.addOver (.staticType t) rfl fun c hc => ?_
    rcases List.mem_cons.1 (NodeKind.mem_children_iff.1 hc) with htype | hargument
    · exact Nat.le_of_eq (congrArg NodeId.index (Option.some.inj htype))
    · exact Nat.le_of_lt (hparts c (List.mem_filterMap.2 ⟨_, hargument, rfl⟩))
  | satisfiedTypes ts =>
    obtain ⟨hbuilt, -, hmem⟩ := h.addStaticTypes ts
    refine hbuilt.addNode .dummy fun c hc => hmem c ?_
    simpa [NodeKind.slots] using NodeKind.mem_children_iff.1 hc
  | setSpan n span => exact h.setSpan n span

theorem Built.createAll (h : a.Built) {creations : List Creation} (hgiven : a.Given creations) :
    (a.createAll creations).Built := by
  induction creations generalizing a with
  | nil => exact h
  | cons creation rest ih => exact ih (h.create creation hgiven.1) hgiven.2

/-! ## The last node of a kind -/

theorem pairwise_ids (a : Arena) : a.ids.Pairwise fun n m => n.index < m.index :=
  List.pairwise_map.2 List.pairwise_lt_range

/-- What is found is the last node of which `q` holds. -/
theorem getLast?_filter_ids {q : NodeId → Bool} {found : Option NodeId} (hfound : ∀ n, found = some n → n ∈ a.ids ∧ q n)
    (hlast : ∀ n ∈ a.ids, q n → ∃ m, found = some m ∧ n.index ≤ m.index) : (a.ids.filter q).getLast? = found := by
  rcases List.eq_nil_or_concat (a.ids.filter q) with hnil | ⟨before, last, heq⟩
  · rw [hnil, List.getLast?_nil]
    refine (Option.eq_none_iff_forall_ne_some.2 fun n hn => ?_).symm
    have hmem : n ∈ a.ids.filter q := List.mem_filter.2 (hfound n hn)
    rw [hnil] at hmem
    exact List.not_mem_nil hmem
  have hsorted := (a.pairwise_ids).filter q
  rw [List.concat_eq_append] at heq
  obtain ⟨hids, hq⟩ := List.mem_filter.1 (heq ▸ List.mem_append_right before (List.mem_singleton_self last))
  obtain ⟨m, hm, hle⟩ := hlast last hids hq
  have hmem : m ∈ before ++ [last] := heq ▸ List.mem_filter.2 (hfound m hm)
  rw [heq, List.pairwise_append] at hsorted
  rw [heq, List.getLast?_concat, hm]
  -- what is found is in the list too, and not before the last one, which is no newer
  rcases List.mem_append.1 hmem with hbefore | hmem
  · exact absurd (hsorted.2.2 m hbefore last (List.mem_singleton_self last)) (Nat.not_lt.2 hle)
  · rw [List.mem_singleton.1 hmem]

theorem Linked.getLast?_holders (h : a.Linked) (c : NodeId) :
    (a.ids.filter (a.IsPart · c)).getLast? = a.parent? c := by
  refine getLast?_filter_ids (fun p hp => ?_) fun n _ hn => h.parent n c (of_decide_eq_true hn)
  have hpart := h.child c p hp
  exact ⟨mem_ids_iff.2 (lt_size_of_mem_children hpart), decide_eq_true hpart⟩

theorem Linked.getLast?_declarers (h : a.Linked) (d : DeclId) :
    (a.ids.filter (a.declaredAt? · = some d)).getLast? = a.declaringNode? d := by
  refine getLast?_filter_ids (fun n hn => ?_) fun n _ hn => h.declaring d n (of_decide_eq_true hn)
  have hdeclared := h.declared d n hn
  exact ⟨mem_ids_iff.2 (lt_size_of_declaredAt? hdeclared), decide_eq_true hdeclared⟩

theorem Linked.parent?_eq_none_iff (h : a.Linked) : a.parent? c = none ↔ ∀ n, ¬ a.IsPart n c := by
  constructor
  · intro hnone n hn
    obtain ⟨p, hp, -⟩ := h.parent n c hn
    exact Option.some_ne_none p (hp.symm.trans hnone)
  · exact fun hnot => Option.eq_none_iff_forall_ne_some.2 fun p hp => hnot p (h.child c p hp)

/-! ## The way up -/

/-- On the way up nodes get newer and newer. -/
theorem Linked.pairwise_ancestors (h : a.Linked) (n : NodeId) :
    (n :: a.ancestors n).Pairwise fun m m' => m.index < m'.index := by
  induction n using h.parent_induct with
  | step n ih =>
    rw [h.ancestors_eq]
    cases hp : a.parent? n with
    | none => exact List.pairwise_singleton _ n
    | some p =>
      have hlt := (h.lt_of_parent? hp).1
      refine List.pairwise_cons.2 ⟨fun m hm => ?_, ih p hp⟩
      rcases List.mem_cons.1 hm with rfl | hm
      · exact hlt
      · exact Nat.lt_trans hlt ((List.pairwise_cons.1 (ih p hp)).1 m hm)

/-! ## All creations -/

/-- **Links and indexes agree with the nodes after any creations** that are given nodes which exist. The parent of a
node is the last node created that it is a part of, and is newer; a node without a parent is a part of none. The nodes
above a node are its parent and the nodes above that, each newer than the one before. The references of a declaration
are all its reference nodes in the order of their creation, its declaring node is the last other node that names it. -/
theorem createAll_consistent (fileName : String) (creations : List Creation)
    (hgiven : Given { fileName } creations) :
    let a := createAll { fileName } creations
    (∀ c, (a.parent? c = none ↔ ∀ n, ¬ a.IsPart n c) ∧ a.parent? c = (a.ids.filter (a.IsPart · c)).getLast? ∧
        ∀ p, a.parent? c = some p → c.index < p.index) ∧
      (∀ c, a.ancestors c = (a.parent? c).elim [] (fun p => p :: a.ancestors p) ∧
        (c :: a.ancestors c).Pairwise fun m m' => m.index < m'.index) ∧
      (∀ d, a.referencesTo d = a.ids.filter (a.isReferenceTo d)) ∧
      ∀ d, a.declaringNode? d = (a.ids.filter (a.declaredAt? · = some d)).getLast? := by
  have hlinked := ((Built.new fileName).createAll hgiven).linked
  refine ⟨fun c => ⟨?_, ?_, fun p hp => ?_⟩, fun c => ⟨?_, ?_⟩, ?_, fun d => ?_⟩
  · exact hlinked.parent?_eq_none_iff
  · exact (hlinked.getLast?_holders c).symm
  · exact (hlinked.lt_of_parent? hp).1
  · exact hlinked.ancestors_eq c
  · exact hlinked.pairwise_ancestors c
  · exact hlinked.references
  · exact (hlinked.getLast?_declarers d).symm

/-- `alias A => Nothing` and twice `x = 1;` with the same literal, in a block; the second declaration of `A` is the one
that counts. -/
def sharedLiteral : List Creation :=
  [.node .literal .dummy, .specifier ⟨2⟩ (some ⟨0⟩), .specifier ⟨2⟩ (some ⟨0⟩), .node (.aliasDecl ⟨3⟩ none) .dummy,
    .aliasDecl ⟨3⟩ .nothing, .satisfiedTypes [.nothing, .nothing],
    .node (.block [some ⟨2⟩, none, some ⟨4⟩, some ⟨7⟩]) .dummy, .setSpan ⟨20⟩ .dummy]

theorem createAll_consistent_sharedLiteral :
    Given { fileName := "unit" } sharedLiteral ∧
      let a := createAll { fileName := "unit" } sharedLiteral
      a.parent? ⟨0⟩ = some ⟨4⟩ ∧ a.ancestors ⟨0⟩ = [⟨4⟩, ⟨11⟩] ∧ a.parent? ⟨8⟩ = some ⟨10⟩ ∧
        (∀ n, ¬ a.IsPart n ⟨10⟩) ∧ a.referencesTo ⟨2⟩ = [⟨1⟩, ⟨3⟩] ∧ a.declaringNode? ⟨3⟩ = some ⟨7⟩ := by
  have hgiven : Given { fileName := "unit" } sharedLiteral := by decide
  obtain ⟨hparent, hup, hreferences, hdeclaring⟩ := createAll_consistent "unit" sharedLiteral hgiven
  refine ⟨hgiven, ?_, ?_, ?_, ?_, ?_, ?_⟩
  · exact (hparent ⟨0⟩).2.1.trans (by decide)
  · exact (hup ⟨0⟩).1.trans (by decide)
  · exact (hparent ⟨8⟩).2.1.trans (by decide)
  · exact (hparent ⟨10⟩).1.1 (by decide)
  · exact (hreferences ⟨2⟩).trans (by decide)
  · exact (hdeclaring ⟨3⟩).trans (by decide)

end SemCheck.Arena
