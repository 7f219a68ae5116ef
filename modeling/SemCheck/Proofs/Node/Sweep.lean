import Mathlib.Data.List.Nodup
import SemCheck.Proofs.Node.Built

/-!
# Sweeping an arena

A *listing* puts after one another what it lists for the parts of a node, in order, and then the node itself
(`Arena.IsListing`). Main statement: in an arena that has been built from the leaves up a sweep ends and gives the
listing, whether nodes are shared or not, and `postOrder` is that listing (`sweep_listing`).

A sweep that comes to a node lists what stands under the node and goes on with the stack below it
(`IsListing.sweepFrom_node`). This is said for every stack, so that the induction is on the node alone: its parts are
older than it, and are swept with the opened node below them.
-/

namespace SemCheck.Arena

variable {a : Arena} {n m c r : NodeId} {listing : Option NodeId → List NodeId}

/-- Nothing is listed for an empty slot, and for a node what is listed for its parts and then the node. -/
structure IsListing (a : Arena) (listing : Option NodeId → List NodeId) : Prop where
  absent : listing none = []
  present : ∀ n, listing (some n) = (a.children n).flatMap (fun c => listing (some c)) ++ [n]

/-! ## The listing by recursion -/

theorem Linked.children_eq_nil (h : a.Linked) (hn : n.index = 0) : a.children n = [] := by
  refine List.eq_nil_iff_forall_not_mem.2 fun c hc => ?_
  have hlt := h.earlier n c hc
  omega

theorem postOrderWithin_of_leaf (hn : a.children n = []) (room : Nat) (later : List NodeId) :
    a.postOrderWithin room n later = n :: later := by
  cases room with
  | zero => rfl
  | succ room => rw [postOrderWithin, hn, List.foldr_nil]

/-- More room makes no difference where there is as much as there are older nodes. -/
theorem Linked.postOrderWithin_eq (h : a.Linked) {room room' : Nat} (hroom : n.index ≤ room)
    (hroom' : n.index ≤ room') (later : List NodeId) :
    a.postOrderWithin room n later = a.postOrderWithin room' n later := by
  induction room generalizing n room' later with
  | zero =>
    have hn := h.children_eq_nil (Nat.le_zero.1 hroom)
    rw [postOrderWithin_of_leaf hn, postOrderWithin_of_leaf hn]
  | succ room ih =>
    cases room' with
    | zero =>
      have hn := h.children_eq_nil (Nat.le_zero.1 hroom')
      rw [postOrderWithin_of_leaf hn, postOrderWithin_of_leaf hn]
    | succ room' =>
      rw [postOrderWithin, postOrderWithin]
      refine List.foldr_ext _ _ _ fun c hc later => ?_
      have hlt := h.earlier n c hc
      exact ih (by omega) (by omega) later

theorem Linked.postOrder_eq_flatMap (h : a.Linked) (n : NodeId) :
    a.postOrder n = (a.children n).flatMap a.postOrder ++ [n] := by
  by_cases hn : n.index < a.nodes.size
  · obtain ⟨room, hroom⟩ := Nat.exists_eq_succ_of_ne_zero (Nat.ne_zero_of_lt hn)
    have hparts : ∀ c ∈ a.children n, ∀ later,
        a.postOrderWithin room c later = a.postOrder c ++ later := by
      intro c hc later
      have hlt := h.earlier n c hc
      rw [postOrder, ← postOrderWithin_eq_append]
      exact h.postOrderWithin_eq (by omega) (by omega) later
    rw [postOrder, hroom, postOrderWithin, List.foldr_ext _ _ _ hparts, List.foldr_append_eq_append, List.flatMap]
  · have hleaf : a.children n = [] := by
      rw [children, kind?_eq_none_iff.2 (Nat.le_of_not_lt hn)]
    rw [postOrder, postOrderWithin_of_leaf hleaf, hleaf, List.flatMap_nil, List.nil_append]

theorem Linked.isListing_postOrder (h : a.Linked) : a.IsListing fun root => (root.map a.postOrder).getD [] where
  absent := rfl
  present := h.postOrder_eq_flatMap

/-! ## The sweep -/

theorem sweepFrom_open (a : Arena) (n : NodeId) (pops : Nat) (stack : List Waiting) (listed : Array NodeId) :
    a.sweepFrom (pops + 1) (⟨some n, false⟩ :: stack) listed =
      a.sweepFrom pops ((a.children n).map (⟨some ·, false⟩) ++ ⟨some n, true⟩ :: stack) listed := by
  rw [sweepFrom, List.foldl_reverse, List.foldr_cons_eq_append]

/-- The sweep of a node takes two pops for everything that it lists, whatever waits below it. -/
theorem IsListing.sweepFrom_node (hlisting : a.IsListing listing) (h : a.Linked) (n : NodeId) (pops : Nat)
    (stack : List Waiting) (listed : Array NodeId) :
    a.sweepFrom (pops + 2 * (listing (some n)).length) (⟨some n, false⟩ :: stack) listed =
      a.sweepFrom pops stack (listed ++ listing (some n)) := by
  induction hn : n.index using Nat.strongRecOn generalizing n pops stack listed with
  | _ index ih =>
    -- The parts are swept in turn, with the rest of them and the opened node below.
    have hparts (cs : List NodeId) (hcs : ∀ c ∈ cs, c ∈ a.children n) (pops : Nat) (stack : List Waiting)
        (listed : Array NodeId) :
        a.sweepFrom (pops + 2 * (cs.flatMap fun c => listing (some c)).length)
            (cs.map (⟨some ·, false⟩) ++ stack) listed =
          a.sweepFrom pops stack (listed ++ cs.flatMap fun c => listing (some c)) := by
      induction cs generalizing pops stack listed with
      | nil => simp
      | cons c cs ih' =>
        obtain ⟨hc, hcs⟩ := List.forall_mem_cons.1 hcs
        have hpops : pops + 2 * ((c :: cs).flatMap fun c => listing (some c)).length =
            pops + 2 * (cs.flatMap fun c => listing (some c)).length + 2 * (listing (some c)).length := by
          rw [List.flatMap_cons, List.length_append]
          omega
        rw [hpops, List.map_cons, List.cons_append, ih c.index (hn ▸ h.earlier n c hc) c _ _ _ rfl, ih' hcs,
          List.flatMap_cons]
        exact congrArg (a.sweepFrom pops stack) (Array.ext' (by simp))
    have hpops : pops + 2 * (listing (some n)).length =
        pops + 1 + 2 * ((a.children n).flatMap fun c => listing (some c)).length + 1 := by
      rw [hlisting.present, List.length_append, List.length_singleton]
      omega
    rw [hpops, sweepFrom_open, hparts _ fun _ => id, sweepFrom, hlisting.present]
    exact congrArg (a.sweepFrom pops stack) (Array.ext' (by simp))

theorem IsListing.sweep_eq (hlisting : a.IsListing listing) (h : a.Linked) (root : Option NodeId) {pops : Nat}
    (hpops : 2 * (listing root).length < pops) : a.sweep pops root = some (listing root) := by
  cases root with
  | none =>
    obtain ⟨pops, rfl⟩ := Nat.exists_eq_succ_of_ne_zero (Nat.ne_zero_of_lt hpops)
    rw [hlisting.absent, sweep, sweepFrom, sweepFrom]
    rfl
  | some n =>
    obtain ⟨more, rfl⟩ := Nat.exists_eq_add_of_le' (Nat.le_of_lt hpops)
    rw [sweep, hlisting.sweepFrom_node h, sweepFrom]
    simp

/-! ## What is listed -/

theorem IsListing.mem_iff (hlisting : a.IsListing listing) (h : a.Linked) : m ∈ listing (some n) ↔ a.Spans n m := by
  constructor
  · intro hm
    induction hn : n.index using Nat.strongRecOn generalizing n with
    | _ index ih =>
      rw [hlisting.present, List.mem_append, List.mem_singleton] at hm
      rcases hm with hm | rfl
      · obtain ⟨c, hc, hm⟩ := List.mem_flatMap.1 hm
        exact .head hc (ih c.index (hn ▸ h.earlier n c hc) hm rfl)
      · exact .refl
  · intro hm
    induction hm using Relation.ReflTransGen.head_induction_on with
    | refl =>
      rw [hlisting.present]
      exact List.mem_append_right _ (List.mem_singleton_self m)
    | head hc _ ih =>
      rw [hlisting.present]
      exact List.mem_append_left _ (List.mem_flatMap.2 ⟨_, hc, ih⟩)

/-- What stands beneath a node is listed ahead of the node itself. -/
theorem IsListing.mem_parts (hlisting : a.IsListing listing) (h : a.Linked) (hm : a.Above n m) :
    m ∈ (a.children n).flatMap fun c => listing (some c) := by
  obtain ⟨c, hc, hm⟩ := Relation.TransGen.head'_iff.1 hm
  exact List.mem_flatMap.2 ⟨c, hc, (hlisting.mem_iff h).2 hm⟩

/-- The listing of a node stands in that of every node above it. -/
theorem IsListing.exists_append (hlisting : a.IsListing listing) (hn : a.Spans r n) :
    ∃ before after, listing (some r) = before ++ listing (some n) ++ after := by
  induction hn using Relation.ReflTransGen.head_induction_on with
  | refl => exact ⟨[], [], by rw [List.nil_append, List.append_nil]⟩
  | @head r c hc _ ih =>
    obtain ⟨before, after, heq⟩ := ih
    obtain ⟨cs, cs', hsplit⟩ := List.append_of_mem hc
    refine ⟨(cs.flatMap fun c => listing (some c)) ++ before,
      after ++ (cs'.flatMap fun c => listing (some c)) ++ [r], ?_⟩
    rw [hlisting.present, hsplit, List.flatMap_append, List.flatMap_cons, heq]
    simp only [List.append_assoc]

/-! ## Trees -/

/-- From `r` down every node is a part of one node only, and only once. -/
structure FormsTree (a : Arena) (r : NodeId) : Prop where
  once : ∀ n, a.Spans r n → (a.children n).Nodup
  apart : ∀ n n' c, a.Spans r n → a.Spans r n' → a.IsPart n c → a.IsPart n' c → n = n'

/-- Of two nodes above one node, one is above the other. -/
theorem FormsTree.spans_or_spans (htree : a.FormsTree r) (hn : a.Spans r n) (hc : a.Spans r c) (hnm : a.Spans n m)
    (hcm : a.Spans c m) : a.Spans n c ∨ a.Spans c n := by
  have hup {n x : NodeId} (hn : a.Spans r n) (hx : a.Spans n x) :
      Relation.ReflTransGen (fun c n => a.Spans r n ∧ a.IsPart n c) x n := by
    induction hx with
    | refl => exact .refl
    | tail hspans hpart ih => exact .head ⟨hn.trans hspans, hpart⟩ ih
  have hdown {n c : NodeId} (hup : Relation.ReflTransGen (fun c n => a.Spans r n ∧ a.IsPart n c) c n) :
      a.Spans n c := by
    induction hup with
    | refl => exact .refl
    | tail _ hpart ih => exact .head hpart.2 ih
  have hunique : Relator.RightUnique fun c n => a.Spans r n ∧ a.IsPart n c :=
    fun c n n' hn hn' => htree.apart n n' c hn.1 hn'.1 hn.2 hn'.2
  exact (Relation.ReflTransGen.total_of_right_unique hunique (hup hn hnm) (hup hc hcm)).symm.imp hdown hdown

theorem IsListing.nodup (hlisting : a.IsListing listing) (h : a.Linked) (htree : a.FormsTree r) (hn : a.Spans r n) :
    (listing (some n)).Nodup := by
  induction hindex : n.index using Nat.strongRecOn generalizing n with
  | _ index ih =>
    have hunder (c : NodeId) (hc : c ∈ a.children n) : a.Spans r c := hn.tail hc
    -- A part of the node that stands beneath another one would have the node itself beneath it.
    have happart (c : NodeId) (hc : c ∈ a.children n) (c' : NodeId) (hc' : c' ∈ a.children n) (hne : c ≠ c') :
        ¬ a.Spans c c' := by
      intro hspans
      obtain ⟨p, hp, hpart⟩ := (Relation.ReflTransGen.cases_tail hspans).resolve_left (Ne.symm hne)
      obtain rfl := htree.apart p n c' ((hunder c hc).trans hp) hn hpart hc'
      have hlt := h.earlier p c hc
      rcases spans_iff.1 hp with rfl | habove
      · exact Nat.lt_irrefl _ hlt
      · exact Nat.lt_asymm hlt (h.lt_of_above habove)
    rw [hlisting.present, List.nodup_append]
    refine ⟨List.nodup_flatMap.2 ⟨fun c hc => ?_, ?_⟩, List.nodup_singleton n, ?_⟩
    · exact ih c.index (hindex ▸ h.earlier n c hc) (hunder c hc) rfl
    · refine (htree.once n hn).pairwise_of_forall_ne fun c hc c' hc' hne => ?_
      intro x hx hx'
      rcases htree.spans_or_spans (hunder c hc) (hunder c' hc') ((hlisting.mem_iff h).1 hx)
        ((hlisting.mem_iff h).1 hx') with hspans | hspans
      · exact happart c hc c' hc' hne hspans
      · exact happart c' hc' c hc hne.symm hspans
    · intro x hx y hy heq
      rw [List.mem_singleton] at hy
      obtain ⟨c, hc, hx⟩ := List.mem_flatMap.1 hx
      have habove : a.Above n x := Relation.TransGen.head' hc ((hlisting.mem_iff h).1 hx)
      rw [heq, hy] at habove
      exact Nat.lt_irrefl _ (h.lt_of_above habove)

/-- **A sweep ends with the listing**: after two pops for everything that is listed, and one at most for an empty slot.
Where the nodes under `r` form a tree every one of them is listed once, and after all that stands beneath it. -/
theorem sweep_listing (h : a.Built) (root : Option NodeId) :
    (a.IsListing fun root => (root.map a.postOrder).getD []) ∧
      ∀ listing, a.IsListing listing →
        (∀ pops, 2 * (listing root).length < pops → a.sweep pops root = some (listing root)) ∧
          ∀ r, root = some r → a.FormsTree r → ∀ n, a.Spans r n →
            (listing root).count n = 1 ∧
              ∃ before after, listing root = before ++ n :: after ∧ ∀ m, a.Above n m → m ∈ before := by
  have hlinked := h.linked
  refine ⟨hlinked.isListing_postOrder, fun listing hlisting => ⟨fun pops => hlisting.sweep_eq hlinked root, ?_⟩⟩
  rintro r rfl htree n hn
  obtain ⟨before, after, heq⟩ := hlisting.exists_append hn
  refine ⟨List.count_eq_one_of_mem (hlisting.nodup hlinked htree .refl) ((hlisting.mem_iff hlinked).2 hn),
    before ++ (a.children n).flatMap fun c => listing (some c), after, ?_, fun m hm => ?_⟩
  · rw [heq, hlisting.present]
    simp only [List.append_assoc, List.singleton_append]
  · exact List.mem_append_right _ (hlisting.mem_parts hlinked hm)

/-- `{ { 1; } 1 }`, with one node for both numbers. -/
def sharedLeaf : Arena :=
  [.literal, .exprStmt (some ⟨0⟩), .block [some ⟨1⟩], .block [some ⟨2⟩, some ⟨0⟩]].foldl
    (fun a kind => (a.add kind).2) { fileName := "unit" }

theorem formsTree_sharedLeaf : sharedLeaf.FormsTree ⟨2⟩ := by
  have hbuilt : sharedLeaf.Built := (Built.new "unit").addAll (by decide)
  have hspans (n : NodeId) (hn : sharedLeaf.Spans ⟨2⟩ n) : n ∈ sharedLeaf.postOrder ⟨2⟩ :=
    (hbuilt.linked.isListing_postOrder.mem_iff hbuilt.linked).2 hn
  have hall : ∀ n ∈ sharedLeaf.postOrder ⟨2⟩, (sharedLeaf.children n).Nodup ∧
      ∀ n' ∈ sharedLeaf.postOrder ⟨2⟩, ∀ c ∈ sharedLeaf.children n, c ∈ sharedLeaf.children n' → n = n' := by decide
  exact ⟨fun n hn => (hall n (hspans n hn)).1,
    fun n n' c hn hn' hc hc' => (hall n (hspans n hn)).2 n' (hspans n' hn') c hc hc'⟩

/-- The shared number is listed twice under the outer block, and once under the inner one. -/
theorem sweep_listing_sharedLeaf :
    sharedLeaf.sweep 11 (some ⟨3⟩) = some [⟨0⟩, ⟨1⟩, ⟨2⟩, ⟨0⟩, ⟨3⟩] ∧
      (sharedLeaf.postOrder ⟨2⟩).count ⟨0⟩ = 1 ∧
        ∃ before after, sharedLeaf.postOrder ⟨2⟩ = before ++ ⟨1⟩ :: after ∧
          ∀ m, sharedLeaf.Above ⟨1⟩ m → m ∈ before := by
  have hbuilt : sharedLeaf.Built := (Built.new "unit").addAll (by decide)
  have houter := sweep_listing hbuilt (some ⟨3⟩)
  have hinner := ((sweep_listing hbuilt (some ⟨2⟩)).2 _ houter.1).2 ⟨2⟩ rfl formsTree_sharedLeaf
  refine ⟨(houter.2 _ houter.1).1 11 (by decide), (hinner ⟨0⟩ ?_).1, (hinner ⟨1⟩ ?_).2⟩
  · exact .tail (b := ⟨1⟩) (.single (by decide)) (by decide)
  · exact .single (by decide)

end SemCheck.Arena
