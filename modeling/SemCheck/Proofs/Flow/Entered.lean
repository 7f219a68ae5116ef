import SemCheck.Proofs.Flow.Exactness

/-!
# What a node does with its parts

The parts that a node enters are those in its slots, once and in source order, except in a specifier of the target
(`map_fst_entered`). What it finds is first what is wrong at itself (`finding?`) and then what is found in the parts
that it enters; it ends in a state that only depends on where they end. This holds whatever the passes of the parts
report (`step_part`), and so of the walk itself (`findings_node`) and of a walk that reports more.
-/

namespace SemCheck.Execution

variable {target : DeclId} {n : NodeId} {k : NodeKind Tree} {s : FlowState}

/-! ## The parts that are entered -/

theorem map_fst_inTurn (pass : Option Tree → Pass) (os : List (Option Tree)) (s : FlowState) :
    (inTurn pass os s).map Prod.fst = os := by
  induction os generalizing s with
  | nil => rfl
  | cons o os ih => exact congrArg (o :: ·) (ih _)

theorem map_fst_branches (os : List (Option Tree)) (s : FlowState) : (os.map (·, s)).map Prod.fst = os := by
  rw [List.map_map]
  exact List.map_id os

/-- Except in a specifier of the target, every part is entered once and in source order. -/
theorem map_fst_entered (hk : ¬ IsSpecifier target (.node n k)) (s : FlowState) :
    (entered target k s).map Prod.fst = k.slots := by
  have hturn (os : List (Option Tree)) (s : FlowState) := map_fst_inTurn (partPass target) os s
  cases k with
  | reference d qualifier =>
    cases qualifier with
    | expr primary => exact hturn _ s
    | unqualified | self => rfl
  | specifier left value =>
    have hleft : ¬ specifies target left = true := hk
    rw [entered, if_neg hleft]
    exact hturn _ s
  | ifElse condition thenBranch elseBranch => rfl
  | switch subject arms default exhaustive => exact congrArg (subject :: ·) (map_fst_branches _ _)
  | whileLoop | doWhile | lambda => exact hturn _ _
  | forLoop iterator iterable body fail => rfl
  | tryCatch body catches finalizer =>
    rw [entered, List.map_cons, List.map_append, map_fst_inTurn]
    rfl
  | valueDecl d | functionDecl d | getterDecl d | classDecl d | interfaceDecl d | aliasDecl d | typeConstraint d
  | parameter d | variableDecl d =>
    show (if d = target then _ else _ : List (Option Tree × FlowState)).map Prod.fst = _
    split
    · exact hturn _ _
    · exact hturn _ _
  | returnStmt | throwStmt | breakStmt | continueStmt | block | exprStmt | caseArm | catchClause | literal | call
  | binary | extendedType | satisfiedTypes | staticType => exact hturn _ s

/-- A rejected specifier is not entered. -/
theorem entered_rejected {left value : Option Tree} (hleft : specifies target left = true)
    (h : Assignment.specifierFault? s ≠ none) : entered target (.specifier left value) s = [] := by
  rw [entered, if_pos hleft, if_pos (Option.isSome_iff_ne_none.2 h)]

/-- An accepted specifier is entered from the right. -/
theorem entered_accepted {left value : Option Tree} (hleft : specifies target left = true)
    (h : Assignment.specifierFault? s = none) : entered target (.specifier left value) s =
      [(value, s), (left, (partPass target value s).1.assigned)] := by
  rw [entered, if_pos hleft, h]
  rfl

theorem mem_slots_of_mem_entered {x : Option Tree × FlowState} (h : x ∈ entered target k s) : x.1 ∈ k.slots := by
  have hfst := List.mem_map_of_mem (f := Prod.fst) h
  by_cases hk : IsSpecifier target (.node ⟨0⟩ k)
  · cases k with
    | specifier left value =>
      cases hfault : Assignment.specifierFault? s with
      | some message =>
        rw [entered_rejected hk (hfault ▸ Option.some_ne_none message)] at h
        exact absurd h List.not_mem_nil
      | none =>
        rw [entered_accepted hk hfault] at hfst
        simpa [NodeKind.slots, or_comm] using hfst
    | _ => exact absurd hk id
  · rwa [map_fst_entered hk] at hfst

/-! ## What is wrong at a node -/

/-- What is wrong with a read of the target in a state. -/
def readFault? (s : FlowState) : Option Message :=
  if !s.declared then some .notYetDeclared else if !s.definite then some .notDefinitelyAssigned else none

/-- What is wrong with a node that is visited in a state, apart from its parts. -/
def fault? (target : DeclId) : Tree → FlowState → Option Message
  | .node _ (.specifier left _), s => if specifies target left then Assignment.specifierFault? s else none
  | .node _ k, s => if k.localReference? = some target then readFault? s else none
  | .missing _, _ => none

/-- The finding at a node that is visited in a state. -/
def finding? (target : DeclId) (visit : Tree × FlowState) : Option Finding :=
  (fault? target visit.1 visit.2).map fun message => ⟨visit.1.id, message⟩

theorem findings_read_eq (n : NodeId) (s : FlowState) :
    (Assignment.read n s).2 = ((readFault? s).map fun message => ⟨n, message⟩).toList := by
  rw [findings_read, readFault?]
  split
  · rfl
  · split <;> rfl

/-! ## What the parts find -/

/-- The pass in a slot, from the subnodes that stand for trees. -/
def slotPass (part : Tree → Subnode) (o : Option Tree) : Pass := Subnode.slot (o.map part)

/-- What is found in a part that is entered in a state. -/
def foundIn (part : Tree → Subnode) (x : Option Tree × FlowState) : List Finding := (slotPass part x.1 x.2).2

/-- `p` ends where `q` does, and finds what is found in the parts that are entered in turn. -/
def Tells (part : Tree → Subnode) (p q : Pass) (entered : FlowState → List (Option Tree × FlowState)) : Prop :=
  ∀ s, p s = ((q s).1, (entered s).flatMap (foundIn part))

/-- The pass in a slot ends where the one of the walk does. -/
def TellsPart (target : DeclId) (part : Tree → Subnode) (o : Option Tree) : Prop :=
  ∀ s, (slotPass part o s).1 = (partPass target o s).1

namespace Tells

variable {part : Tree → Subnode} {p q p' q' : Pass} {entered entered' : FlowState → List (Option Tree × FlowState)}

/-- Parts in which nothing is found make no difference. -/
theorem congr (h : Tells part p q entered)
    (hfound : ∀ s, (entered s).flatMap (foundIn part) = (entered' s).flatMap (foundIn part)) :
    Tells part p q entered' :=
  fun s => (h s).trans (congrArg ((q s).1, ·) (hfound s))

theorem change (f : FlowState → FlowState) : Tells part (.change f) (.change f) fun _ => [] := fun _ => rfl

theorem andThen (h : Tells part p q entered) (h' : Tells part p' q' entered') :
    Tells part (p.andThen p') (q.andThen q') fun s => entered s ++ entered' (q s).1 := by
  intro s
  rw [List.flatMap_append]
  show ((p' (p s).1).1, (p s).2 ++ (p' (p s).1).2) = _
  rw [h s, h' (q s).1]
  rfl

theorem loop (h : Tells part p q entered) : Tells part p.loop q.loop fun s => entered s.withBarrier := by
  intro s
  show (s.afterLoop (p s.withBarrier).1, (p s.withBarrier).2) = _
  rw [h s.withBarrier]
  rfl

theorem nested (h : Tells part p q entered) : Tells part p.nested q.nested fun s => entered s.withBarrier := by
  intro s
  show (s, (p s.withBarrier).2) = _
  rw [h s.withBarrier]
  rfl

theorem interruptible (h : Tells part p q entered) : Tells part p.interruptible q.interruptible entered := by
  intro s
  show ((p s).1.restorePartial s, (p s).2) = _
  rw [h s]
  rfl

theorem keepDeclared (h : Tells part p q entered) : Tells part p.keepDeclared q.keepDeclared entered := by
  intro s
  show ({ (p s).1 with declared := s.declared }, (p s).2) = _
  rw [h s]
  rfl

section

variable {os : List (Option Tree)} {p q : Option Tree → Pass}

theorem all (h : ∀ o ∈ os, Tells part (p o) (q o) fun s => [(o, s)]) :
    Tells part (.all (os.map p)) (.all (os.map q)) (inTurn q os) := by
  induction os with
  | nil => exact change id
  | cons o os ih =>
    obtain ⟨ho, hos⟩ := List.forall_mem_cons.1 h
    exact ho.andThen (ih hos)

theorem fork (h : ∀ o ∈ os, Tells part (p o) (q o) fun s => [(o, s)]) :
    Tells part (.fork (os.map p)) (.fork (os.map q)) fun s => os.map (·, s) := by
  intro s
  have hstates : os.map (fun o => (p o s).1) = os.map fun o => (q o s).1 :=
    List.map_congr_left fun o ho => by rw [h o ho s]
  have hfound : os.flatMap (fun o => (p o s).2) = os.flatMap fun o => foundIn part (o, s) :=
    List.flatMap_congr fun o ho => by rw [h o ho s, List.flatMap_singleton]
  simp only [Pass.fork, List.map_map, List.flatMap_map, Function.comp_def, hstates, hfound]

end

end Tells

theorem TellsPart.tells {part : Tree → Subnode} {o : Option Tree} (h : TellsPart target part o) :
    Tells part (slotPass part o) (partPass target o) fun s => [(o, s)] := by
  intro s
  rw [List.flatMap_singleton, ← h s]
  rfl

/-! ## Nodes -/

section

variable {part : Tree → Subnode}

theorem slots_part (k : NodeKind Tree) : Subnode.slots (k.map part).slots = .all (k.slots.map (slotPass part)) := by
  rw [Subnode.slots, NodeKind.slots_map, List.map_map]
  rfl

theorem inside_part (f g : Tree → Subnode) (k : NodeKind Tree) (s : FlowState) :
    inside (k.map f) s = inside (k.map g) s := by
  rw [inside, inside, (assigned_map f k).1, (assigned_map g k).1]

/-- The parts of the declaration of something else are entered behind a barrier. -/
theorem entered_declaring {d : DeclId} (hk : k.declared? = some d) (hd : d ≠ target) :
    entered target k = fun s => inTurn (partPass target) k.slots s.withBarrier := by
  funext s
  cases k <;> first | (cases hk; exact if_neg hd) | cases hk

theorem entered_declare (hk : k.declared? = some target) : entered target k =
    fun s => inTurn (partPass target) k.slots (inside (k.map (Assignment.subnode target)) s).withBarrier := by
  funext s
  cases k <;> first | (cases hk; exact if_pos rfl) | cases hk

theorem tells_declaring {d : DeclId} (hk : k.declared? = some d) (hparts : ∀ o ∈ k.slots, TellsPart target part o) :
    Tells part (Assignment.step target n (k.map part)) (partPass target (some (.node n k))) (entered target k) := by
  have hstep : Assignment.step target n (k.map part) =
      if d = target then Assignment.declare (k.map part) else .nested (.all (k.slots.map (slotPass part))) := by
    rw [← slots_part]
    cases k <;> first | (cases hk; rfl) | cases hk
  have hall := Tells.all fun o ho => (hparts o ho).tells
  rw [hstep, pass_declaring hk]
  by_cases hd : d = target
  · subst hd
    rw [if_pos rfl, if_pos rfl, entered_declare hk]
    intro s
    rw [declare_eq, declare_eq, inside_part part (Assignment.subnode d), (assigned_map part k).2,
      (assigned_map (Assignment.subnode d) k).2, slots_part]
    have hbody := congrArg Prod.snd (hall (inside (k.map (Assignment.subnode d)) s).withBarrier)
    exact congrArg (Prod.mk _) hbody
  · rw [if_neg hd, if_neg hd, entered_declaring hk hd]
    exact hall.nested

theorem switch_part {subject default : Option Tree} {arms : List (Option Tree)} {exhaustive : Bool} :
    Assignment.step target n ((NodeKind.switch subject arms default exhaustive).map part) =
      (slotPass part subject).andThen
        (.fork ((arms ++ if default.isSome || !exhaustive then [default] else []).map (slotPass part))) := by
  have harms : (arms.map (Option.map part)).map Subnode.slot = arms.map (slotPass part) := List.map_map
  rw [List.map_append, ← harms]
  cases default <;> cases exhaustive <;> rfl

/-- A node that is not a reference to the target or a specifier of it. -/
theorem tells_node (hreference : k.localReference? ≠ some target) (hspecifier : ¬ IsSpecifier target (.node n k))
    (hspecifies : ∀ left, Assignment.specifies target (left.map part) = specifies target left)
    (hparts : ∀ o ∈ k.slots, TellsPart target part o) :
    Tells part (Assignment.step target n (k.map part)) (partPass target (some (.node n k))) (entered target k) := by
  have hpart {o : Option Tree} (ho : o ∈ k.slots) := (hparts o ho).tells
  have hslots (os : List (Option Tree)) (hos : os ⊆ k.slots) :
      Tells part (.all (os.map (slotPass part))) (.all (os.map (partPass target))) (inTurn (partPass target) os) :=
    .all fun o ho => hpart (hos ho)
  have hall := hslots k.slots (List.Subset.refl _)
  cases k with
  | reference d qualifier =>
    rw [pass_node]
    cases qualifier with
    | expr primary => exact hpart List.mem_cons_self
    | unqualified | self =>
      have hd : d ≠ target := fun hd => hreference (congrArg some hd)
      show Tells part (if d = target then _ else _) (if d = target then _ else _) _
      rw [if_neg hd]
      exact .change id
  | specifier left value =>
    have hleft : ¬ specifies target left = true := hspecifier
    have hentered : entered target (.specifier left value) = inTurn (partPass target) [left, value] :=
      funext fun s => if_neg hleft
    rw [pass_node, hentered]
    show Tells part (Assignment.specify target n _ _) (Assignment.specify target n _ _) _
    rw [Assignment.specify, Assignment.specify, hspecifies, specifies_eq, if_neg hleft, if_neg hleft]
    exact hall
  | returnStmt value | throwStmt value =>
    rw [pass_node]
    exact (hpart List.mem_cons_self).andThen (.change .exit)
  | breakStmt | continueStmt => exact .change .exit
  | ifElse condition thenBranch elseBranch =>
    rw [pass_node]
    exact (hpart List.mem_cons_self).andThen (.fork fun o ho => hpart (List.mem_cons_of_mem _ ho))
  | switch subject arms default exhaustive =>
    have hbranches (s : FlowState) :
        ((arms ++ if default.isSome || !exhaustive then [default] else []).map (·, s)).flatMap (foundIn part) =
          ((arms ++ [default]).map (·, s)).flatMap (foundIn part) := by
      cases default <;> cases exhaustive <;> simp [foundIn, slotPass, Subnode.slot, Pass.skip, Pass.change]
    have hslot : (arms ++ if default.isSome || !exhaustive then [default] else []) ⊆ arms ++ [default] := by
      split <;> simp
    have hfork := Tells.fork fun o ho => hpart (List.mem_cons_of_mem subject (hslot ho))
    rw [pass_switch, switch_part]
    exact (hpart List.mem_cons_self).andThen (hfork.congr hbranches)
  | whileLoop first second | doWhile first second =>
    rw [pass_node]
    exact hall.loop
  | forLoop iterator iterable body fail =>
    have hloop := (hslots [iterator, iterable, body] (List.subset_append_left _ [fail])).loop
    rw [pass_node]
    exact hloop.andThen (hpart (by simp [NodeKind.slots])).interruptible
  | tryCatch body catches finalizer =>
    have htried : Tells part
        (if (catches.map (Option.map part)).isEmpty then slotPass part body
          else .all (((body :: catches).map (Option.map part)).map fun o => (Subnode.slot o).interruptible))
        (tried target body catches) fun s => (body, s) :: inTurn (fun o => (partPass target o).interruptible) catches
          ((partPass target body).interruptible s).1 := by
      have hclauses (o : Option Tree) (ho : o ∈ body :: catches) := hpart (List.mem_append_left [finalizer] ho)
      cases catches with
      | nil => exact hclauses body List.mem_cons_self
      | cons c cs =>
        rw [List.map_map]
        exact .all fun o ho => (hclauses o ho).interruptible
    have hfinalizer : Tells part (slotPass part finalizer) (partPass target finalizer) fun s => [(finalizer, s)] :=
      hpart (by simp [NodeKind.slots])
    rw [pass_try]
    exact htried.andThen hfinalizer.keepDeclared
  | lambda =>
    rw [pass_lambda]
    show Tells part (Pass.nested (Subnode.slots _)) _ _
    rw [slots_part]
    exact hall.nested
  | valueDecl d | functionDecl d | getterDecl d | classDecl d | interfaceDecl d | aliasDecl d | typeConstraint d
  | parameter d | variableDecl d =>
    exact tells_declaring rfl hparts
  | block | exprStmt | caseArm | catchClause | literal | call | binary | extendedType | satisfiedTypes
  | staticType =>
    rw [pass_plain rfl]
    show Tells part (Subnode.slots _) _ _
    rw [slots_part]
    exact hall

/-- A reference to the target. -/
theorem step_reference (hk : k.localReference? = some target) (f : Tree → Subnode) :
    Assignment.step target n (k.map f) = Assignment.read n := by
  cases k with
  | reference d qualifier =>
    cases qualifier with
    | expr primary => cases hk
    | unqualified | self =>
      cases hk
      exact if_pos rfl
  | _ => cases hk

theorem fault?_reference (hk : k.localReference? = some target) : fault? target (.node n k) s = readFault? s := by
  cases k with
  | reference => exact if_pos hk
  | _ => cases hk

theorem fault?_eq_none (hreference : k.localReference? ≠ some target) (hspecifier : ¬ IsSpecifier target (.node n k)) :
    fault? target (.node n k) s = none := by
  cases k with
  | reference => exact if_neg hreference
  | specifier => exact if_neg hspecifier
  | _ => rfl

theorem fault?_of_isSpecifier {t : Tree} (h : IsSpecifier target t) (s : FlowState) :
    fault? target t s = Assignment.specifierFault? s := by
  cases t with
  | missing m => exact absurd h id
  | node n k =>
    cases k with
    | specifier left value => exact if_pos h
    | _ => exact absurd h id

/-- A specifier of the target. -/
theorem step_specifier_part {left value : Option Tree}
    (hspecifier : IsSpecifier target (.node n (.specifier left value)))
    (hspecifies : Assignment.specifies target (left.map part) = specifies target left)
    (hparts : ∀ o ∈ [left, value], TellsPart target part o) (s : FlowState) :
    Assignment.specify target n (left.map part) (value.map part) s =
      ((partPass target (some (.node n (.specifier left value))) s).1,
        (finding? target (.node n (.specifier left value), s)).toList ++
          (entered target (.specifier left value) s).flatMap (foundIn part)) := by
  have hleft : specifies target left = true := hspecifier
  have hown := (specifies_eq left).trans hleft
  rw [finding?, fault?_of_isSpecifier hspecifier, pass_node]
  show _ = ((Assignment.specify target n _ _ s).1, _)
  cases hfault : Assignment.specifierFault? s with
  | some message =>
    rw [specify_rejected (hspecifies.trans hleft) hfault, specify_rejected hown hfault,
      entered_rejected hleft (hfault ▸ Option.some_ne_none message)]
    rfl
  | none =>
    have hvalue := (hparts value (by simp)).tells
    have hread := (hparts left (by simp)).tells
    have htells := hvalue.andThen ((Tells.change .assigned).andThen (hread.andThen (.change id)))
    rw [Assignment.specify, Assignment.specify, if_pos (hspecifies.trans hleft), if_pos hown,
      entered_accepted hleft hfault]
    simp only [hfault]
    exact htells s

/-- **What a node does**, whatever the passes of its parts report: it ends where the node of the walk does, and first
what is wrong at itself is found, then what is found in the parts that are entered. -/
theorem step_part (hspecifies : ∀ left, Assignment.specifies target (left.map part) = specifies target left)
    (hparts : ∀ o ∈ k.slots, TellsPart target part o) (s : FlowState) :
    Assignment.step target n (k.map part) s = ((partPass target (some (.node n k)) s).1,
      (finding? target (.node n k, s)).toList ++ (entered target k s).flatMap (foundIn part)) := by
  by_cases hreference : k.localReference? = some target
  · have hentered : entered target k s = [] := by
      cases k with
      | reference d qualifier => cases qualifier <;> first | rfl | cases hreference
      | _ => cases hreference
    rw [pass_node, step_reference hreference, step_reference hreference, hentered, finding?,
      fault?_reference hreference, List.flatMap_nil, List.append_nil]
    exact Prod.ext rfl (findings_read_eq n s)
  by_cases hspecifier : IsSpecifier target (.node n k)
  · cases k with
    | specifier left value => exact step_specifier_part hspecifier (hspecifies left) hparts s
    | _ => exact absurd hspecifier id
  · rw [finding?, fault?_eq_none hreference hspecifier]
    exact tells_node hreference hspecifier hspecifies hparts s

end

/-- The findings in a part that is entered in a state. -/
def partFindings (target : DeclId) (x : Option Tree × FlowState) : List Finding := (partPass target x.1 x.2).2

/-- **The findings in a node**: first its own, then those of the parts that are entered, in turn. -/
theorem findings_node (target : DeclId) (n : NodeId) (k : NodeKind Tree) (s : FlowState) :
    (partPass target (some (.node n k)) s).2 =
      (finding? target (.node n k, s)).toList ++ (entered target k s).flatMap (partFindings target) := by
  have hparts (o : Option Tree) (_ : o ∈ k.slots) : TellsPart target (Assignment.subnode target) o := fun _ => rfl
  have hstep := step_part (n := n) specifies_eq hparts s
  rw [← pass_node] at hstep
  exact congrArg Prod.snd hstep

end SemCheck.Execution
