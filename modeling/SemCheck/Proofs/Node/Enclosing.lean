import SemCheck.Node.Scope
import SemCheck.Proofs.Node.Built

/-!
# The smallest block around a declaration

Scopes are found by parent links, upwards. What stands beneath a node is said by the parts of nodes, downwards
(`Arena.Above`). In an arena that has been built from the leaves up and in which no node is a part of two, the nodes
that are met on the way up are those above (`Linked.mem_ancestors_iff`), the nearer one beneath the farther one
(`Linked.eq_ancestors_of_append`).

Main statement: the scope of a declaration is the innermost block above its declaring node that is above all references
to it too, and the root above the declaring node if there is no such block (`enclosingScope?_innermost`).
-/

namespace SemCheck.Arena

variable {a : Arena} {n m b c p : NodeId} {d : DeclId}

/-- No node is a part of two nodes. -/
def Unshared (a : Arena) : Prop := ∀ n n' c, a.IsPart n c → a.IsPart n' c → n = n'

/-! ## The way up -/

theorem Linked.lt_of_parent? (h : a.Linked) (hp : a.parent? c = some p) : c.index < p.index ∧ p.index < a.nodes.size :=
  ⟨h.earlier p c (h.child c p hp), lt_size_of_mem_children (h.child c p hp)⟩

theorem Linked.parent?_eq_some_iff (h : a.Linked) (hparts : a.Unshared) : a.parent? c = some p ↔ a.IsPart p c := by
  constructor
  · exact h.child c p
  · intro hc
    obtain ⟨q, hq, -⟩ := h.parent p c hc
    rw [hq, hparts q p c (h.child c q hq) hc]

/-- Induction upwards: parents are newer, and there are only so many nodes. -/
@[elab_as_elim]
theorem Linked.parent_induct (h : a.Linked) {motive : NodeId → Prop}
    (step : ∀ n, (∀ p, a.parent? n = some p → motive p) → motive n) (n : NodeId) : motive n := by
  induction hn : a.nodes.size - n.index using Nat.strongRecOn generalizing n with
  | _ left ih =>
    refine step n fun p hp => ih _ ?_ p rfl
    obtain ⟨hlt, hsize⟩ := h.lt_of_parent? hp
    omega

/-- More room makes no difference where there is as much as there are newer nodes. -/
theorem Linked.climb_eq (h : a.Linked) {room room' : Nat} (hp : p.index < a.nodes.size)
    (hroom : a.nodes.size ≤ room + p.index) (hroom' : a.nodes.size ≤ room' + p.index) :
    a.climb room (some p) = a.climb room' (some p) := by
  induction room generalizing p room' with
  | zero => omega
  | succ room ih =>
    obtain ⟨room', rfl⟩ : ∃ more, room' = more + 1 := Nat.exists_eq_succ_of_ne_zero (by omega)
    rw [climb, climb]
    congr 1
    cases hq : a.parent? p with
    | none => cases room <;> cases room' <;> rfl
    | some q =>
      obtain ⟨hlt, hsize⟩ := h.lt_of_parent? hq
      exact ih hsize (by omega) (by omega)

theorem Linked.ancestors_eq (h : a.Linked) (n : NodeId) :
    a.ancestors n = (a.parent? n).elim [] fun p => p :: a.ancestors p := by
  cases hp : a.parent? n with
  | none =>
    rw [ancestors, hp]
    cases a.nodes.size <;> rfl
  | some p =>
    obtain ⟨-, hsize⟩ := h.lt_of_parent? hp
    obtain ⟨room, hroom⟩ := Nat.exists_eq_succ_of_ne_zero (Nat.ne_zero_of_lt hsize)
    rw [ancestors, hp, hroom, climb, Option.elim_some, ancestors]
    congr 1
    cases hq : a.parent? p with
    | none => cases room <;> cases a.nodes.size <;> rfl
    | some q =>
      obtain ⟨hlt, hsize⟩ := h.lt_of_parent? hq
      exact h.climb_eq hsize (by omega) (by omega)

/-- **The nodes on the way up** are the nodes above. -/
theorem Linked.mem_ancestors_iff (h : a.Linked) (hparts : a.Unshared) : m ∈ a.ancestors n ↔ a.Above m n := by
  induction n using h.parent_induct with
  | step n ih =>
    rw [h.ancestors_eq, Above, Relation.TransGen.tail'_iff]
    constructor
    · intro hm
      cases hp : a.parent? n with
      | none =>
        rw [hp] at hm
        exact absurd hm List.not_mem_nil
      | some p =>
        rw [hp, Option.elim_some, List.mem_cons, ih p hp] at hm
        exact ⟨p, spans_iff.2 (hm.imp_left Eq.symm), h.child n p hp⟩
    · rintro ⟨p, hm, hn⟩
      have hp := (h.parent?_eq_some_iff hparts).2 hn
      rw [hp, Option.elim_some, List.mem_cons, ih p hp]
      exact (spans_iff.1 hm).imp_left Eq.symm

/-- Past a node the way up is the way up from that node. -/
theorem Linked.eq_ancestors_of_append (h : a.Linked) {before after : List NodeId}
    (hn : a.ancestors n = before ++ b :: after) : after = a.ancestors b := by
  induction n using h.parent_induct generalizing before with
  | step n ih =>
    rw [h.ancestors_eq] at hn
    cases hp : a.parent? n with
    | none =>
      rw [hp, Option.elim_none] at hn
      exact absurd hn (by simp)
    | some p =>
      rw [hp, Option.elim_some] at hn
      rcases List.cons_eq_append_iff.1 hn with ⟨-, heq⟩ | ⟨rest, -, heq⟩
      · rw [(List.cons.inj heq).1, (List.cons.inj heq).2]
      · exact ih p hp heq

/-- The first node of a kind on the way up stands beneath all others. -/
theorem Linked.eq_or_above_of_find? (h : a.Linked) (hparts : a.Unshared) {p : NodeId → Bool}
    (hfind : (a.ancestors n).find? p = some b) (hm : a.Above m n) (hp : p m = true) : m = b ∨ a.Above m b := by
  obtain ⟨-, before, after, hsplit, hbefore⟩ := List.find?_eq_some_iff_append.1 hfind
  have hmem := (h.mem_ancestors_iff hparts).2 hm
  rw [hsplit, List.mem_append, List.mem_cons] at hmem
  rcases hmem with hmem | rfl | hmem
  · have hnot := hbefore m hmem
    rw [hp] at hnot
    exact absurd hnot Bool.false_ne_true
  · exact Or.inl rfl
  · rw [h.eq_ancestors_of_append hsplit, h.mem_ancestors_iff hparts] at hmem
    exact Or.inr hmem

/-- The way up ends at a root. -/
theorem Linked.getLastD_ancestors (h : a.Linked) (hparts : a.Unshared) (n : NodeId) :
    a.Spans ((a.ancestors n).getLastD n) n ∧ ∀ m, ¬ a.IsPart m ((a.ancestors n).getLastD n) := by
  induction n using h.parent_induct with
  | step n ih =>
    rw [h.ancestors_eq]
    cases hp : a.parent? n with
    | none =>
      refine ⟨.refl, fun m hm => ?_⟩
      rw [Option.elim_none, List.getLastD_nil, ← h.parent?_eq_some_iff hparts, hp] at hm
      exact Option.some_ne_none m hm.symm
    | some p =>
      obtain ⟨hspans, hroot⟩ := ih p hp
      rw [Option.elim_some, List.getLastD_cons]
      exact ⟨hspans.tail (h.child n p hp), hroot⟩

/-! ## Scopes -/

/-- The node `n` is the last one that declares `d`. -/
structure LastDeclares (a : Arena) (d : DeclId) (n : NodeId) : Prop where
  declares : a.declaredAt? n = some d
  last : ∀ m, a.declaredAt? m = some d → m.index ≤ n.index

/-- A block above `n` and all references to `d`. -/
structure Covers (a : Arena) (d : DeclId) (n b : NodeId) : Prop where
  block : a.isBlock b = true
  above : a.Above b n
  references : ∀ m, a.isReferenceTo d m = true → a.Above b m

theorem Linked.declaringNode?_eq_none_iff (h : a.Linked) :
    a.declaringNode? d = none ↔ ∀ n, a.declaredAt? n ≠ some d := by
  constructor
  · intro hnone n hn
    obtain ⟨m, hm, -⟩ := h.declaring d n hn
    exact Option.some_ne_none m (hm.symm.trans hnone)
  · intro hnot
    exact Option.eq_none_iff_forall_ne_some.2 fun n hn => hnot n (h.declared d n hn)

theorem Linked.declaringNode?_of_lastDeclares (h : a.Linked) (hn : a.LastDeclares d n) :
    a.declaringNode? d = some n := by
  obtain ⟨m, hm, hle⟩ := h.declaring d n hn.declares
  have hindex := Nat.le_antisymm (hn.last m (h.declared d m hm)) hle
  cases m
  cases n
  exact hm.trans (congrArg (fun i => some (NodeId.mk i)) hindex)

theorem Linked.mem_referencesTo_iff (h : a.Linked) : m ∈ a.referencesTo d ↔ a.isReferenceTo d m = true := by
  rw [h.references, List.mem_filter, mem_ids_iff]
  refine and_iff_right_of_imp fun hm => ?_
  by_contra hle
  rw [isReferenceTo, kind?_eq_none_iff.2 (Nat.le_of_not_lt hle)] at hm
  exact Bool.false_ne_true hm

/-- What is looked for on the way up is a block that covers the declaration. -/
theorem Linked.covers_iff (h : a.Linked) (hparts : a.Unshared) (hb : a.Above b n) :
    (a.isBlock b && (a.referencesTo d).all (a.isAncestor b)) = true ↔ a.Covers d n b := by
  rw [Bool.and_eq_true, List.all_eq_true]
  simp only [h.mem_referencesTo_iff, isAncestor, List.contains_iff_mem, h.mem_ancestors_iff hparts]
  exact ⟨fun ⟨hblock, hall⟩ => ⟨hblock, hb, hall⟩, fun hcovers => ⟨hcovers.block, hcovers.references⟩⟩

theorem enclosingScope?_of_declaringNode? (hn : a.declaringNode? d = some n) :
    a.enclosingScope? d = some
      (((a.ancestors n).find? fun b => a.isBlock b && (a.referencesTo d).all (a.isAncestor b)).getD
        ((a.ancestors n).getLastD n)) := by
  rw [enclosingScope?, hn]
  dsimp only
  split
  · next hfind => rw [hfind, Option.getD_some]
  · next hfind => rw [hfind, Option.getD_none]

/-- **The scope of a declaration is the innermost block around it**: it has none exactly if no node declares it. If
blocks cover the last declaring node and all references, the scope is the one of them that all others are above; else
it is the root that the declaring node is or stands beneath. -/
theorem enclosingScope?_innermost (h : a.Built) (hparts : a.Unshared) (d : DeclId) :
    (a.enclosingScope? d = none ↔ ∀ n, a.declaredAt? n ≠ some d) ∧
      ∀ n, a.LastDeclares d n →
        ((∃ b, a.Covers d n b) →
          ∃ b, a.enclosingScope? d = some b ∧ a.Covers d n b ∧ ∀ b', a.Covers d n b' → b' = b ∨ a.Above b' b) ∧
        ((∀ b, ¬ a.Covers d n b) → ∃ r, a.enclosingScope? d = some r ∧ a.Spans r n ∧ ∀ m, ¬ a.IsPart m r) := by
  have hlinked := h.linked
  constructor
  · rw [← hlinked.declaringNode?_eq_none_iff]
    cases hn : a.declaringNode? d with
    | none => exact iff_of_true (by rw [enclosingScope?, hn]) rfl
    | some n => exact iff_of_false (by rw [enclosingScope?_of_declaringNode? hn]; exact nofun) nofun
  intro n hn
  rw [enclosingScope?_of_declaringNode? (hlinked.declaringNode?_of_lastDeclares hn)]
  have hcovers (b : NodeId) (hb : a.Above b n) := hlinked.covers_iff (d := d) hparts hb
  have habove (b : NodeId) (hb : b ∈ a.ancestors n) := (hlinked.mem_ancestors_iff hparts).1 hb
  cases hfind : (a.ancestors n).find? fun b => a.isBlock b && (a.referencesTo d).all (a.isAncestor b) with
  | some b =>
    have hb := (hcovers b (habove b (List.mem_of_find?_eq_some hfind))).1 (List.find?_eq_some_iff_append.1 hfind).1
    refine ⟨fun _ => ⟨b, rfl, hb, fun b' hb' => ?_⟩, fun hnone => absurd hb (hnone b)⟩
    exact hlinked.eq_or_above_of_find? hparts hfind hb'.above ((hcovers b' hb'.above).2 hb')
  | none =>
    constructor
    · rintro ⟨b, hb⟩
      have hmem := (hlinked.mem_ancestors_iff hparts).2 hb.above
      exact absurd ((hcovers b hb.above).2 hb) (List.find?_eq_none.1 hfind b hmem)
    · exact fun _ => ⟨_, rfl, hlinked.getLastD_ancestors hparts n⟩

/-- `{ { value x; { x } } }`. -/
def nestedBlocks : Arena :=
  [.valueDecl ⟨2⟩ none none, .reference ⟨2⟩ .unqualified, .block [some ⟨1⟩], .block [some ⟨0⟩, some ⟨2⟩],
    .block [some ⟨3⟩]].foldl (fun a kind => (a.add kind).2) { fileName := "unit" }

/-- The innermost of the three blocks is above the reference only. Of the two that cover `x` the scope is the inner
one. -/
theorem enclosingScope?_innermost_nestedBlocks :
    nestedBlocks.enclosingScope? ⟨2⟩ = some ⟨3⟩ ∧ nestedBlocks.Covers ⟨2⟩ ⟨0⟩ ⟨3⟩ ∧ nestedBlocks.Covers ⟨2⟩ ⟨0⟩ ⟨4⟩ ∧
      ∀ b, nestedBlocks.Covers ⟨2⟩ ⟨0⟩ b → b = ⟨3⟩ ∨ nestedBlocks.Above b ⟨3⟩ := by
  have hbuilt : nestedBlocks.Built := (Built.new "unit").addAll (by decide)
  have hparts : nestedBlocks.Unshared := by
    have hall : ∀ n ∈ nestedBlocks.ids, ∀ n' ∈ nestedBlocks.ids, ∀ c ∈ nestedBlocks.children n,
        c ∈ nestedBlocks.children n' → n = n' := by decide
    intro n n' c hc hc'
    exact hall n (mem_ids_iff.2 (lt_size_of_mem_children hc)) n' (mem_ids_iff.2 (lt_size_of_mem_children hc')) c hc hc'
  have hdeclares : nestedBlocks.LastDeclares ⟨2⟩ ⟨0⟩ := by
    refine ⟨rfl, fun m hm => ?_⟩
    have hall : ∀ m ∈ nestedBlocks.ids, nestedBlocks.declaredAt? m = some ⟨2⟩ → m.index ≤ 0 := by decide
    exact hall m (mem_ids_iff.2 (lt_size_of_declaredAt? hm)) hm
  have habove (b n : NodeId) (hb : b ∈ nestedBlocks.ancestors n) := (hbuilt.linked.mem_ancestors_iff hparts).1 hb
  have houter : nestedBlocks.Covers ⟨2⟩ ⟨0⟩ ⟨4⟩ := by
    refine ⟨rfl, habove ⟨4⟩ ⟨0⟩ (by decide), fun m hm => ?_⟩
    have hreferences : nestedBlocks.referencesTo ⟨2⟩ = [⟨1⟩] := by decide
    rw [← hbuilt.linked.mem_referencesTo_iff, hreferences, List.mem_singleton] at hm
    exact hm ▸ habove ⟨4⟩ ⟨1⟩ (by decide)
  obtain ⟨b, hb, hcovers, hall⟩ := ((enclosingScope?_innermost hbuilt hparts ⟨2⟩).2 ⟨0⟩ hdeclares).1 ⟨_, houter⟩
  have hscope : nestedBlocks.enclosingScope? ⟨2⟩ = some ⟨3⟩ := by decide
  obtain rfl := Option.some.inj (hb.symm.trans hscope)
  exact ⟨hscope, hcovers, houter, hall⟩

end SemCheck.Arena
