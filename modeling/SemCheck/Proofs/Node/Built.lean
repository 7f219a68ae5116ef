import Mathlib.Data.List.Basic
import Mathlib.Logic.Relation
import SemCheck.Proofs.Node.Subtrees

/-!
# Arenas built from the leaves up

An arena is *built* if every node has been added after its parts (`Arena.Built`). What the arena keeps beside its nodes
then agrees with them (`Built.linked`): a part is older than the node that it is a part of, the parent of a node is the
last node that it is a part of, and the indexes know the last declaring node and all reference nodes of a declaration.
-/

namespace SemCheck

/-- Whether the node is a reference to `d`. -/
def NodeKind.isReferenceTo {γ : Type} (d : DeclId) : NodeKind γ → Bool
  | reference e _ => e = d
  | _ => false

namespace Arena

variable {a : Arena} {kind : NodeKind NodeId} {span : Span} {n c p : NodeId} {d : DeclId}

/-! ## After adding a node -/

theorem size_foldl_setParent (p : NodeId) (cs : List NodeId) (nodes : Array Node) :
    (cs.foldl (setParent p) nodes).size = nodes.size := by
  induction cs generalizing nodes with
  | nil => rfl
  | cons c cs ih => rw [List.foldl_cons, ih, setParent, Array.size_modify]

theorem getElem?_foldl_setParent (p : NodeId) (cs : List NodeId) (nodes : Array Node) (n : NodeId) :
    (cs.foldl (setParent p) nodes)[n.index]? =
      nodes[n.index]?.map fun node => if n ∈ cs then { node with parent := some p } else node := by
  induction cs generalizing nodes with
  | nil => simp
  | cons c cs ih =>
    have hindex : c.index = n.index ↔ n = c := by
      cases c
      cases n
      simp [eq_comm]
    rw [List.foldl_cons, ih, setParent, Array.getElem?_modify]
    by_cases hc : n = c
    · rw [if_pos (hindex.2 hc), Option.map_map]
      congr 1
      funext node
      split <;> simp [hc]
    · rw [if_neg (mt hindex.1 hc)]
      simp [hc]

theorem nodes_addNode (a : Arena) (kind : NodeKind NodeId) (span : Span) :
    (a.addNode kind span).2.nodes =
      (kind.children.foldl (setParent ⟨a.nodes.size⟩) a.nodes).push { kind, span } := by
  unfold addNode
  split
  · rfl
  · dsimp only
    split <;> rfl

theorem size_addNode (a : Arena) (kind : NodeKind NodeId) (span : Span) :
    (a.addNode kind span).2.nodes.size = a.nodes.size + 1 := by
  rw [nodes_addNode, Array.size_push, size_foldl_setParent]

theorem get?_addNode (a : Arena) (kind : NodeKind NodeId) (span : Span) (n : NodeId) :
    (a.addNode kind span).2.get? n =
      if n.index = a.nodes.size then some { kind, span }
      else (a.get? n).map fun node =>
        if n ∈ kind.children then { node with parent := some ⟨a.nodes.size⟩ } else node := by
  rw [get?, nodes_addNode, Array.getElem?_push, size_foldl_setParent, getElem?_foldl_setParent]
  rfl

theorem kind?_addNode (a : Arena) (kind : NodeKind NodeId) (span : Span) (n : NodeId) :
    (a.addNode kind span).2.kind? n = if n.index = a.nodes.size then some kind else a.kind? n := by
  rw [kind?, get?_addNode]
  split
  · rfl
  · rw [kind?, Option.map_map]
    congr 1
    funext node
    dsimp only [Function.comp]
    split <;> rfl

theorem get?_eq_none_iff : a.get? n = none ↔ a.nodes.size ≤ n.index := Array.getElem?_eq_none_iff

theorem kind?_eq_none_iff : a.kind? n = none ↔ a.nodes.size ≤ n.index := by
  rw [kind?, Option.map_eq_none_iff, get?_eq_none_iff]

theorem lt_size_of_mem_children (h : c ∈ a.children n) : n.index < a.nodes.size := by
  by_contra hle
  rw [children, kind?_eq_none_iff.2 (Nat.le_of_not_lt hle)] at h
  exact absurd h List.not_mem_nil

theorem children_addNode (a : Arena) (kind : NodeKind NodeId) (span : Span) (n : NodeId) :
    (a.addNode kind span).2.children n = if n.index = a.nodes.size then kind.children else a.children n := by
  rw [children, kind?_addNode, children]
  by_cases hn : n.index = a.nodes.size
  · rw [if_pos hn, if_pos hn]
  · rw [if_neg hn, if_neg hn]

theorem parent?_addNode (hn : n.index < a.nodes.size) :
    (a.addNode kind span).2.parent? n = if n ∈ kind.children then some ⟨a.nodes.size⟩ else a.parent? n := by
  rw [parent?, parent?, get?_addNode, if_neg (Nat.ne_of_lt hn)]
  obtain ⟨node, hnode⟩ := Option.ne_none_iff_exists'.1 (mt get?_eq_none_iff.1 (Nat.not_le_of_lt hn))
  rw [hnode]
  by_cases hc : n ∈ kind.children <;> simp [hc]

theorem parent?_addNode_of_le (hn : a.nodes.size ≤ n.index) : (a.addNode kind span).2.parent? n = none := by
  rw [parent?, get?_addNode]
  split
  · rfl
  · rw [get?_eq_none_iff.2 hn]
    rfl

theorem lt_size_of_declaredAt? (h : a.declaredAt? n = some d) : n.index < a.nodes.size := by
  by_contra hle
  rw [declaredAt?, kind?_eq_none_iff.2 (Nat.le_of_not_lt hle)] at h
  exact Option.some_ne_none d h.symm

theorem declaredAt?_addNode (a : Arena) (kind : NodeKind NodeId) (span : Span) (n : NodeId) :
    (a.addNode kind span).2.declaredAt? n =
      if n.index = a.nodes.size then kind.declared? else a.declaredAt? n := by
  rw [declaredAt?, kind?_addNode]
  split
  · rfl
  · rfl

theorem declaringNode?_addNode (a : Arena) (kind : NodeKind NodeId) (span : Span) (d : DeclId) :
    (a.addNode kind span).2.declaringNode? d =
      if kind.declared? = some d then some ⟨a.nodes.size⟩ else a.declaringNode? d := by
  unfold addNode
  split
  · next e q => exact (if_neg (nofun : NodeKind.declared? (.reference e q) ≠ some d)).symm
  · dsimp only
    split
    · next e he =>
      rw [declaringNode?, List.lookup_cons, he]
      by_cases hd : e = d
      · rw [if_pos (congrArg some hd), hd, beq_self_eq_true]
      · rw [if_neg (mt Option.some.inj hd), beq_false_of_ne (Ne.symm hd)]
        rfl
    · next he =>
      rw [he, if_neg nofun]
      rfl

theorem referencesTo_addNode (a : Arena) (kind : NodeKind NodeId) (span : Span) (d : DeclId) :
    (a.addNode kind span).2.referencesTo d =
      a.referencesTo d ++ if kind.isReferenceTo d then [⟨a.nodes.size⟩] else [] := by
  unfold addNode
  split
  · next e q =>
    by_cases hd : e = d <;> simp [referencesTo, NodeKind.isReferenceTo, hd]
  · next hkind =>
    have hnot : kind.isReferenceTo d = false := by
      cases kind with
      | reference e q => exact absurd rfl (hkind e q)
      | _ => rfl
    rw [hnot]
    dsimp only
    split <;> simp [referencesTo]

/-! ## Links and indexes -/

/-- The nodes of an arena, in the order in which they have been added. -/
def ids (a : Arena) : List NodeId := (List.range a.nodes.size).map NodeId.mk

theorem mem_ids_iff : n ∈ a.ids ↔ n.index < a.nodes.size := by
  rw [ids, List.mem_map]
  constructor
  · rintro ⟨i, hi, rfl⟩
    exact List.mem_range.1 hi
  · exact fun hn => ⟨n.index, List.mem_range.2 hn, rfl⟩

theorem ids_addNode (a : Arena) (kind : NodeKind NodeId) (span : Span) :
    (a.addNode kind span).2.ids = a.ids ++ [⟨a.nodes.size⟩] := by
  rw [ids, size_addNode, List.range_succ, List.map_append, ids, List.map_singleton]

/-- Whether a node is a reference to `d`. -/
def isReferenceTo (a : Arena) (d : DeclId) (n : NodeId) : Bool := (a.kind? n).any (NodeKind.isReferenceTo d)

/-- What an arena keeps beside its nodes, against the nodes. -/
structure Linked (a : Arena) : Prop where
  earlier : ∀ n, ∀ c ∈ a.children n, c.index < n.index
  /-- The parent of a node is one that it is a part of. -/
  child : ∀ c p, a.parent? c = some p → c ∈ a.children p
  /-- It is the last one. -/
  parent : ∀ n, ∀ c ∈ a.children n, ∃ p, a.parent? c = some p ∧ n.index ≤ p.index
  /-- The declaring node of a declaration declares it. -/
  declared : ∀ d n, a.declaringNode? d = some n → a.declaredAt? n = some d
  /-- It is the last one. -/
  declaring : ∀ d n, a.declaredAt? n = some d → ∃ m, a.declaringNode? d = some m ∧ n.index ≤ m.index
  references : ∀ d, a.referencesTo d = a.ids.filter (a.isReferenceTo d)

/-- An arena in which every node has been added after its parts. Spans may be set and reports be kept at any time. -/
inductive Built : Arena → Prop
  | new (fileName : String) : Built { fileName }
  | addNode {a : Arena} (h : Built a) {kind : NodeKind NodeId} (span : Span)
    (hparts : ∀ c ∈ kind.children, c.index < a.nodes.size) : Built (a.addNode kind span).2
  | setSpan {a : Arena} (h : Built a) (n : NodeId) (span : Span) : Built (a.setSpan n span)
  | addDiagnostic {a : Arena} (h : Built a) (slot : Option NodeId) (report : Diagnostic) :
    Built (a.addDiagnostic slot report)

theorem linked_new (fileName : String) : Linked { fileName } where
  earlier _ _ hc := absurd (lt_size_of_mem_children hc) (Nat.not_lt_zero _)
  child _ _ h := nomatch h
  parent _ _ hc := absurd (lt_size_of_mem_children hc) (Nat.not_lt_zero _)
  declared _ _ h := nomatch h
  declaring _ _ h := nomatch h
  references _ := rfl

theorem Linked.addNode (h : a.Linked) (span : Span) (hparts : ∀ c ∈ kind.children, c.index < a.nodes.size) :
    (a.addNode kind span).2.Linked := by
  constructor
  case earlier =>
    intro n c hc
    rw [children_addNode] at hc
    split at hc
    · next hn => exact hn ▸ hparts c hc
    · exact h.earlier n c hc
  case child =>
    intro c p hp
    rw [children_addNode]
    by_cases hc : c.index < a.nodes.size
    · rw [parent?_addNode hc] at hp
      split at hp
      · next hmem =>
        obtain rfl := Option.some.inj hp
        rwa [if_pos rfl]
      · have hmem := h.child c p hp
        rwa [if_neg (Nat.ne_of_lt (lt_size_of_mem_children hmem))]
    · rw [parent?_addNode_of_le (Nat.le_of_not_lt hc)] at hp
      exact nomatch hp
  case parent =>
    intro n c hc
    rw [children_addNode] at hc
    split at hc
    · next hn =>
      refine ⟨⟨a.nodes.size⟩, ?_, Nat.le_of_eq hn⟩
      rw [parent?_addNode (hparts c hc), if_pos hc]
    · have hlt := lt_size_of_mem_children hc
      rw [parent?_addNode (Nat.lt_trans (h.earlier n c hc) hlt)]
      split
      · exact ⟨_, rfl, Nat.le_of_lt hlt⟩
      · exact h.parent n c hc
  case declared =>
    intro d n hn
    rw [declaringNode?_addNode] at hn
    rw [declaredAt?_addNode]
    split at hn
    · next hd =>
      obtain rfl := Option.some.inj hn
      rwa [if_pos rfl]
    · have hd := h.declared d n hn
      rwa [if_neg (Nat.ne_of_lt (lt_size_of_declaredAt? hd))]
  case declaring =>
    intro d n hn
    rw [declaredAt?_addNode] at hn
    rw [declaringNode?_addNode]
    split at hn
    · next hsize => exact ⟨_, if_pos hn, Nat.le_of_eq hsize⟩
    · split
      · exact ⟨_, rfl, Nat.le_of_lt (lt_size_of_declaredAt? hn)⟩
      · exact h.declaring d n hn
  case references =>
    intro d
    have hold : a.ids.filter ((a.addNode kind span).2.isReferenceTo d) = a.ids.filter (a.isReferenceTo d) := by
      refine List.filter_congr fun n hn => ?_
      rw [isReferenceTo, kind?_addNode, if_neg (Nat.ne_of_lt (mem_ids_iff.1 hn)), isReferenceTo]
    have hnew : (a.addNode kind span).2.isReferenceTo d ⟨a.nodes.size⟩ = kind.isReferenceTo d := by
      rw [isReferenceTo, kind?_addNode, if_pos rfl, Option.any_some]
    rw [referencesTo_addNode, h.references d, ids_addNode, List.filter_append, hold, List.filter_singleton, hnew,
      Bool.cond_eq_ite]

/-- The links and indexes do not depend on spans and reports. -/
theorem Linked.congr {a' : Arena} (h : a.Linked) (hsize : a'.nodes.size = a.nodes.size)
    (hkind : ∀ n, a'.kind? n = a.kind? n) (hparent : ∀ n, a'.parent? n = a.parent? n)
    (hdeclaring : a'.declaring = a.declaring) (hreferences : a'.references = a.references) : a'.Linked := by
  have hchildren (n : NodeId) : a'.children n = a.children n := by rw [children, hkind, children]
  have hdeclared (n : NodeId) : a'.declaredAt? n = a.declaredAt? n := by rw [declaredAt?, hkind, declaredAt?]
  have hnode (d : DeclId) : a'.declaringNode? d = a.declaringNode? d := by
    rw [declaringNode?, hdeclaring, declaringNode?]
  constructor
  case earlier => simpa only [hchildren] using h.earlier
  case child => simpa only [hchildren, hparent] using h.child
  case parent => simpa only [hchildren, hparent] using h.parent
  case declared => simpa only [hnode, hdeclared] using h.declared
  case declaring => simpa only [hnode, hdeclared] using h.declaring
  case references =>
    intro d
    have hreference : a'.isReferenceTo d = a.isReferenceTo d := funext fun n => by
      rw [isReferenceTo, hkind, isReferenceTo]
    rw [referencesTo, hreferences, ids, hsize, hreference]
    exact h.references d

theorem Linked.setSpan (h : a.Linked) (n : NodeId) (span : Span) : (a.setSpan n span).Linked := by
  have hget (m : NodeId) : (a.setSpan n span).get? m = (a.get? m).map fun node =>
      if n.index = m.index then { node with span } else node := by
    rw [get?, Arena.setSpan, Array.getElem?_modify]
    split
    · rfl
    · exact Option.map_id'.symm
  refine h.congr (Array.size_modify ..) (fun m => ?_) (fun m => ?_) rfl rfl
  · rw [kind?, hget, Option.map_map, kind?]
    congr 1
    funext node
    dsimp only [Function.comp]
    split <;> rfl
  · rw [parent?, hget, parent?]
    cases a.get? m with
    | none => rfl
    | some node =>
      dsimp only [Option.map_some, Option.bind_some]
      split <;> rfl

/-- **Links and indexes agree with the nodes** in every arena that has been built from the leaves up. -/
theorem Built.linked (h : a.Built) : a.Linked := by
  induction h with
  | new fileName => exact linked_new fileName
  | addNode _ span hparts ih => exact ih.addNode span hparts
  | setSpan _ n span ih => exact ih.setSpan n span
  | addDiagnostic _ _ _ ih => exact ih.congr rfl (fun _ => rfl) (fun _ => rfl) rfl rfl

/-- Whether nodes of these kinds, added to an arena of that size, come after their parts. -/
def bottomUp : (size : Nat) → List (NodeKind NodeId) → Bool
  | _, [] => true
  | size, kind :: kinds => kind.children.all (fun c => c.index < size) && bottomUp (size + 1) kinds

theorem Built.addAll (h : a.Built) {kinds : List (NodeKind NodeId)} (hkinds : bottomUp a.nodes.size kinds = true) :
    (kinds.foldl (fun a kind => (a.add kind).2) a).Built := by
  induction kinds generalizing a with
  | nil => exact h
  | cons kind kinds ih =>
    obtain ⟨hparts, hrest⟩ := Bool.and_eq_true_iff.1 hkinds
    have hadded : (a.add kind).2.Built :=
      h.addNode .dummy fun c hc => of_decide_eq_true (List.all_eq_true.1 hparts c hc)
    refine ih hadded ?_
    show bottomUp (a.addNode kind .dummy).2.nodes.size kinds = true
    rwa [size_addNode]

/-! ## Above and beneath -/

/-- The node `c` is a part of `n`. -/
def IsPart (a : Arena) (n c : NodeId) : Prop := c ∈ a.children n

instance (a : Arena) (n c : NodeId) : Decidable (a.IsPart n c) := inferInstanceAs (Decidable (_ ∈ _))

/-- From `n` parts lead down to `m`, in one step or more. -/
def Above (a : Arena) : NodeId → NodeId → Prop := Relation.TransGen a.IsPart

/-- The node `m` is `n` itself or stands beneath it. -/
def Spans (a : Arena) : NodeId → NodeId → Prop := Relation.ReflTransGen a.IsPart

theorem Linked.lt_of_above (h : a.Linked) (hc : a.Above n c) : c.index < n.index := by
  induction hc with
  | single hc => exact h.earlier _ _ hc
  | tail _ hc ih => exact Nat.lt_trans (h.earlier _ _ hc) ih

theorem spans_iff : a.Spans n c ↔ c = n ∨ a.Above n c := by
  rw [Spans, Relation.reflTransGen_iff_eq_or_transGen, Above]

end Arena

end SemCheck
